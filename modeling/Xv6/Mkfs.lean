import Xv6.Fs

/-!
# The Image Builder

`mkfs.c`, which makes the file system image from a list of host files. It has its own code for
the block tree of an inode (`iappend`), for inode and block allocation, two counters, and for
the bitmap, which it writes last.

The image starts out as `size` zeroed sectors. Reading or writing a sector past the end of it
makes `mkfs` exit; such a run has used more blocks than the last assertion allows, so it does not
end with an image here either. The conversions `xint` and `xshort` to the byte order of the
target are the identity on the values that the model has.

`iappend` reads a sector into the first half of its array `indirect` and leaves the second half
uninitialised. What an element of that half holds is a parameter of the model (`junk`), for each
round of the loop, which the inode number and the offset identify. An access past the end of the
array is `undefined`.

## Main definitions

* `Mkfs.iappend`: append bytes to an inode.
* `Mkfs.main`: the image for a list of host files.
* `Mkfs.mounted`: the kernel with an image.
-/

namespace Xv6

namespace Mkfs

/-- `nblocks`, the number of data blocks. -/
def nblocks : ℕ := 25000

/-- `nlog`, the number of log blocks. -/
def nlog : ℕ := LOGSIZE

/-- `ninodes`. -/
def ninodes : ℕ := 200

/-- `size`, the number of sectors of the image. -/
def size : ℕ := 25045

/-- `bitblocks`. -/
def bitblocks : ℕ := size / (512 * 8) + 1

/-- The first value of `usedblocks` and `freeblock`. -/
def metablocks : ℕ := ninodes / IPB + 3 + bitblocks

theorem metablocks_eq : metablocks = 35 := rfl

/-- The assertion on the size of the image. -/
example : nblocks + metablocks + nlog = size := rfl

/-- `sb`. -/
def sb : Superblock := ⟨size, nblocks, ninodes, nlog⟩

/-- How `mkfs` can end without an image. -/
inductive Abort
  /-- an `assert` fails -/
  | assertion
  /-- an array is accessed past its end -/
  | undefined
  deriving DecidableEq, Repr

/-- The image file and the global variables of `mkfs`. -/
structure State where
  disk : Disk
  freeblock : ℕ
  usedblocks : ℕ
  freeinode : ℕ

/-- The state once the sectors are zeroed and the superblock is written. -/
def start : State where
  disk := Function.update (fun _ => Block.zero) 1 sb.toBlock
  freeblock := metablocks
  usedblocks := metablocks
  freeinode := 1

namespace State

/-- `wsect(sec, buf)`. -/
def wsect (m : State) (sec : ℕ) (buf : Block) : State :=
  { m with disk := Function.update m.disk sec buf }

/-- `freeblock++; usedblocks++`. -/
def bump (m : State) : State :=
  { m with freeblock := m.freeblock + 1, usedblocks := m.usedblocks + 1 }

/-- `rinode(inum, ip)`. -/
def rinode (m : State) (inum : ℕ) : Dinode := getDinode (m.disk (IBLOCK inum)) (inum % IPB)

/-- `winode(inum, ip)`. -/
def winode (m : State) (inum : ℕ) (ip : Dinode) : State :=
  m.wsect (IBLOCK inum) (putDinode (m.disk (IBLOCK inum)) (inum % IPB) ip)

/-- `ialloc(type)`. -/
def ialloc (m : State) (type : BitVec 16) : ℕ × State :=
  (m.freeinode, { m with freeinode := m.freeinode + 1 }.winode m.freeinode
    { Dinode.zero with type := type, nlink := 1 })

end State

/-- `if(xint(din.addrs[k]) == 0){ din.addrs[k] = xint(freeblock++); usedblocks++; }` -/
def setBlock (k : ℕ) (din : Dinode) (m : State) : Dinode × State :=
  if din.addr k = 0 then (din.setAddr k m.freeblock, m.bump) else (din, m)

/-- The use of the array `indirect` in a round of `iappend`: the sector in its element `k`. Of the
array only the first half is read from sector `blk` and written back to it; an element of the
second half holds `v`. -/
def indirectEntry (v k blk : ℕ) (m : State) : Except Abort (ℕ × State) :=
  let indirect := m.disk blk
  if NINDIRECT ≤ k then .error .undefined
  else
    let x := if k < PTRS_PER_BLOCK then indirect.word k else v
    if x = 0 then .ok (m.freeblock, m.bump.wsect blk (indirect.setWord k m.freeblock))
    else .ok (x, m)

/-- The part of a round of `iappend` that finds the sector `x` of the block at offset `off`,
with its changes to `din`. -/
def iappendBlock (junk : ℕ → ℕ → ℕ) (inum : ℕ) (din : Dinode) (off : ℕ) (m : State) :
    Except Abort (ℕ × Dinode × State) :=
  let fbn := off / 512
  if MAXFILE ≤ fbn then .error .assertion
  else if fbn < NDIRECT then
    let (din, m) := setBlock fbn din m
    .ok (din.addr fbn, din, m)
  else do
    let (din, m) := setBlock NDIRECT din m
    let (x, m) ← indirectEntry (junk inum off) (fbn - NDIRECT) (din.addr NDIRECT) m
    return (x, din, m)

/-- The loop of `iappend`, with the bytes `p` to go. Every round writes at least one byte. -/
def iappendLoop (junk : ℕ → ℕ → ℕ) (inum : ℕ) :
    ℕ → List UInt8 → Dinode → ℕ → State → Except Abort (Dinode × ℕ × State)
  | 0, _, din, off, m => .ok (din, off, m)
  | fuel + 1, p, din, off, m =>
    if p = [] then .ok (din, off, m)
    else do
      let (x, din, m) ← iappendBlock junk inum din off m
      let n1 := min p.length ((off / 512 + 1) * 512 - off)
      let buf := (m.disk x).blit (off - off / 512 * 512) (p.take n1)
      iappendLoop junk inum fuel (p.drop n1) din (off + n1) (m.wsect x buf)

/-- `iappend(inum, xp, n)`. -/
def iappend (junk : ℕ → ℕ → ℕ) (inum : ℕ) (p : List UInt8) (m : State) : Except Abort State := do
  let (din, off, m) ← iappendLoop junk inum p.length p (m.rinode inum) (m.rinode inum).size m
  return m.winode inum { din with size := off }

/-- A host file: its name, and its contents in the pieces that `read` returns. -/
structure HostFile where
  name : List UInt8
  chunks : List (List UInt8)
  chunk_ok : ∀ c ∈ chunks, c ≠ [] ∧ c.length ≤ 512

/-- The contents of a host file. -/
def HostFile.content (f : HostFile) : List UInt8 := f.chunks.flatten

/-- The character `_`. -/
def underscore : UInt8 := 95

/-- The loop body of `main`: add a file, and its entry in the root directory. -/
def addFile (junk : ℕ → ℕ → ℕ) (m : State) (f : HostFile) : Except Abort State :=
  if slash ∈ f.name then .error .assertion
  else do
    let name := if f.name.head? = some underscore then f.name.tail else f.name
    let (inum, m) := m.ialloc T_FILE
    let m ← iappend junk ROOTINO (mkDirent name inum) m
    f.chunks.foldlM (fun m c => iappend junk inum c m) m

/-- `main` up to the end of its loop over the files. -/
def build (junk : ℕ → ℕ → ℕ) (files : List HostFile) : Except Abort State := do
  let (rootino, m) := start.ialloc T_DIR
  if rootino ≠ ROOTINO then .error .assertion
  else
    let m ← iappend junk rootino (mkDirent [46] rootino) m
    let m ← iappend junk rootino (mkDirent [46, 46] rootino) m
    files.foldlM (addFile junk) m

/-- `main`: "fix size of root inode dir". -/
def fixRoot (m : State) : State :=
  let din := m.rinode ROOTINO
  m.winode ROOTINO { din with size := (din.size / BSIZE + 1) * BSIZE }

/-- `balloc(used)`: write the bitmap. -/
def balloc (used : ℕ) (m : State) : Except Abort State :=
  if 512 * 8 ≤ used then .error .assertion
  else .ok (m.wsect (ninodes / IPB + 3) (Block.usedPrefix used))

/-- `main`: the image for these host files. -/
def main (junk : ℕ → ℕ → ℕ) (files : List HostFile) : Except Abort Disk := do
  let m ← build junk files
  let m ← balloc m.usedblocks (fixRoot m)
  return m.disk

/-- The kernel with this image as its disk, once `initlog` has read the superblock: no inodes in
the cache and no open files. The log area of an image is empty, so there is nothing to recover. -/
def mounted (img : Disk) : Sys where
  disk := img
  log :=
    let sb := Superblock.ofBlock (img 1)
    ⟨sb.size - sb.nlog, sb.nlog, false, []⟩
  icache _ := noInode
  ftable _ := ⟨.none, 0, false, false, 0, 0⟩
  proc _ := ⟨fun _ => none, none⟩
  input := []
  owner := none

end Mkfs

end Xv6
