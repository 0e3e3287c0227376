import Xv6.Kernel

/-!
# The File System Code

The functions of `fs.c`, as programs over the operations of `Xv6.Kernel`: the block
allocator, the inode cache, the block tree of an inode with its direct, singly-indirect and
doubly-indirect tiers, reading and writing of inode contents, directories and path names.

A buffer that the code holds is read again where the code reads it through its pointer, so a
read always sees the buffer's current contents.

## Main definitions

* `balloc`, `bfree`; `ialloc`, `iupdate`, `ilock`, `iput`; `bmap`, `itrunc`; `readi`, `writei`;
  `dirlookup`, `dirlink`; `namex`.
-/

namespace Xv6

/-! ### Operations -/

/-- Perform one operation. -/
def perform (o : Op) : Fs o.Ret := Prog.lift o

/-- `bread(dev, b)`: the contents of the buffer. -/
def bread (b : ℕ) : Fs Block := perform (.bread b)

/-- `log_write` of the buffer of block `b`, whose contents have become `data`. -/
def logWrite (b : ℕ) (data : Block) : Fs Unit := perform (.logWrite b data)

/-- The branch `m` is taken. -/
def mark (m : Mark) : Fs Unit := perform (.mark m)

/-- The fields of the cache entry `ip`. -/
def getInode (ip : ℕ) : Fs Inode := perform (.inode ip)

/-- `ip->addrs[k]`. -/
def getAddr (ip k : ℕ) : Fs ℕ := perform (.addr ip k)

/-- `a[k]`, where `a` is the data of the indirect block `blk`. -/
def getEntry (blk k : ℕ) : Fs ℕ := perform (.entry blk k)

/-- Assign the copied fields of the cache entry `ip`. -/
def setDinode (ip : ℕ) (d : Dinode) : Fs Unit := perform (.setDinode ip d)

/-- `panic`, and other ways in which a path ends. -/
def fail {α : Type} (e : Fault) : Fs α := Prog.op (.fail e) Empty.elim

section Operations

variable {md : Mode} {p : ℕ} {s : Sys}

@[simp] theorem run_perform (o : Op) : Prog.run (exec md p) (perform o) s = exec md p o s :=
  Prog.run_lift o s

@[simp] theorem run_bread (b : ℕ) : Prog.run (exec md p) (bread b) s = .ok (s.disk b, s) :=
  run_perform _

@[simp] theorem run_getInode (ip : ℕ) :
    Prog.run (exec md p) (getInode ip) s = .ok (s.icache ip, s) :=
  run_perform _

@[simp] theorem run_getAddr (ip k : ℕ) :
    Prog.run (exec md p) (getAddr ip k) s = .ok ((s.icache ip).din.addr k, s) :=
  run_perform _

@[simp] theorem run_getEntry (blk k : ℕ) :
    Prog.run (exec md p) (getEntry blk k) s = .ok ((s.disk blk).word k, s) :=
  run_perform _

@[simp] theorem run_setDinode (ip : ℕ) (d : Dinode) :
    Prog.run (exec md p) (setDinode ip d) s = .ok ((), s.setDin ip d) :=
  run_perform _

/-- `log_write` in an open transaction, with room in the log. -/
theorem run_logWrite {b : ℕ} {data : Block} (hroom : md.limited → s.log.isFull = false)
    (hbusy : s.log.busy = true) :
    Prog.run (exec md p) (logWrite b data) s = .ok ((), s.logPut b data) := by
  rw [logWrite, run_perform]
  simp only [exec, hbusy]
  rw [if_neg (by rintro ⟨h1, h2⟩; simp [hroom h1] at h2)]
  simp

/-- `log_write` with a full log. -/
theorem run_logWrite_full {b : ℕ} {data : Block} (hlim : md.limited = true)
    (hfull : s.log.isFull = true) :
    Prog.run (exec md p) (logWrite b data) s = .error (.panic .tooBigTransaction) := by
  rw [logWrite, run_perform]
  exact if_pos ⟨hlim, hfull⟩

/-- The mark of an allocation outside the log area. -/
theorem run_mark_alloc {b : ℕ} (h : md.guarded → b < s.log.start) :
    Prog.run (exec md p) (mark (.alloc b)) s = .ok ((), s) := by
  rw [mark, run_perform]
  simp only [exec]
  rw [if_neg (by rintro ⟨h1, h2⟩; have := h h1; omega)]

end Operations

/-! ### Blocks -/

/-- `readsb(dev, &sb)`. -/
def readsb : Fs Superblock := do
  let bp ← bread 1
  return Superblock.ofBlock bp

/-- `bzero(dev, bno)`. -/
def bzero (bno : ℕ) : Fs Unit := do
  let _ ← bread bno
  logWrite bno Block.zero

/-- The inner loop of `balloc`: the first clear bit of a bitmap block, among the first
`limit`. -/
def findClear (bp : Block) (limit : ℕ) : Option ℕ :=
  (List.range (min BPB limit)).find? fun bi => !bp.bit bi

/-- The loop of `balloc` over the bitmap blocks `ks`. -/
def ballocScan (sb : Superblock) : List ℕ → Fs ℕ
  | [] => fail (.panic .outOfBlocks)
  | k :: ks => do
    let b := BPB * k
    let bp ← bread (BBLOCK b sb.ninodes)
    match findClear bp (sb.size - b) with
    | some bi => do
      mark (.alloc (b + bi))
      logWrite (BBLOCK b sb.ninodes) (bp.setBit bi)
      bzero (b + bi)
      return b + bi
    | none => ballocScan sb ks

/-- `balloc(dev)`: allocate a zeroed disk block. -/
def balloc : Fs ℕ := do
  let sb ← readsb
  ballocScan sb (List.range ((sb.size + (BPB - 1)) / BPB))

/-- `bfree(dev, b)`. -/
def bfree (b : ℕ) : Fs Unit := do
  let sb ← readsb
  let bp ← bread (BBLOCK b sb.ninodes)
  if bp.bit (b % BPB) then
    logWrite (BBLOCK b sb.ninodes) (bp.clearBit (b % BPB))
  else
    fail (.panic .freeingFreeBlock)

/-! ### Inodes -/

/-- `iget(dev, inum)`. -/
def iget (inum : ℕ) : Fs ℕ := perform (.iget inum)

/-- `idup(ip)`. -/
def idup (ip : ℕ) : Fs ℕ := do
  perform (.idup ip)
  return ip

/-- The loop of `ialloc` over the inode numbers `is`. -/
def iallocScan (type : BitVec 16) : List ℕ → Fs ℕ
  | [] => fail (.panic .iallocNoInodes)
  | i :: is => do
    let bp ← bread (IBLOCK i)
    if (getDinode bp (i % IPB)).type = 0 then
      logWrite (IBLOCK i) (putDinode bp (i % IPB) { Dinode.zero with type := type })
      iget i
    else iallocScan type is

/-- `ialloc(dev, type)`. -/
def ialloc (type : BitVec 16) : Fs ℕ := do
  let sb ← readsb
  iallocScan type ((List.range sb.ninodes).drop 1)

/-- `iupdate(ip)`: copy a modified in-memory inode to disk. -/
def iupdate (ip : ℕ) : Fs Unit := do
  let v ← getInode ip
  let bp ← bread (IBLOCK v.inum)
  logWrite (IBLOCK v.inum) (putDinode bp (v.inum % IPB) v.din)

/-- `ilock(ip)`. -/
def ilock (ip : ℕ) : Fs Unit := do
  perform (.lock ip)
  let v ← getInode ip
  if v.valid then return ()
  else
    let bp ← bread (IBLOCK v.inum)
    let d := getDinode bp (v.inum % IPB)
    setDinode ip d
    perform (.setValid ip)
    if d.type = 0 then fail (.panic .ilockNoType)
    else return ()

/-- `iunlock(ip)`. -/
def iunlock (ip : ℕ) : Fs Unit := perform (.unlock ip)

/-! ### Inode content -/

/-- `if((addr = ip->addrs[k]) == 0) ip->addrs[k] = addr = balloc(ip->dev)`. -/
def inodePtr (ip k : ℕ) : Fs ℕ := do
  let addr ← getAddr ip k
  if addr = 0 then
    let addr ← balloc
    let v ← getInode ip
    setDinode ip (v.din.setAddr k addr)
    return addr
  else return addr

/-- `if((addr = a[k]) == 0){ a[k] = addr = balloc(ip->dev); log_write(bp); }`, where `a` is the
data of the indirect block `blk`. -/
def blockPtr (blk k : ℕ) : Fs ℕ := do
  let addr ← getEntry blk k
  if addr = 0 then
    let addr ← balloc
    let bp ← bread blk
    logWrite blk (bp.setWord k addr)
    return addr
  else return addr

/-- `bmap(ip, bn)`: the disk block address of the `bn`th block of an inode, allocated if there
is none. -/
def bmap (ip bn : ℕ) : Fs ℕ :=
  if bn < NDIRECT then inodePtr ip bn
  else
    let bn := bn - NDIRECT
    if bn < NINDIRECT then do
      let addr ← inodePtr ip (NDIRECT + bn / PTRS_PER_BLOCK)
      blockPtr addr (bn % PTRS_PER_BLOCK)
    else
      let bn := bn - NINDIRECT
      if bn < NDOUBLE then do
        let addr ← inodePtr ip (NDIRECT + NUM_INDIRECT)
        let addr ← blockPtr addr (bn % (PTRS_PER_BLOCK * PTRS_PER_BLOCK) / PTRS_PER_BLOCK)
        blockPtr addr (bn % (PTRS_PER_BLOCK * PTRS_PER_BLOCK) % PTRS_PER_BLOCK)
      else fail (.panic .bmapOutOfRange)

/-- The first loop of `itrunc`, over the direct blocks `is`. -/
def itruncDirect (ip : ℕ) : List ℕ → Fs Unit
  | [] => return ()
  | i :: is => do
    let v ← getInode ip
    if v.din.addr i ≠ 0 then
      bfree (v.din.addr i)
      let v ← getInode ip
      setDinode ip (v.din.setAddr i 0)
    itruncDirect ip is

/-- The second loop of `itrunc`, over the entries `js` of the indirect block `blk`. An entry
past the end of the buffer is not part of the block. -/
def itruncIndirect (blk : ℕ) : List ℕ → Fs Unit
  | [] => return ()
  | j :: js => do
    let bp ← bread blk
    if PTRS_PER_BLOCK ≤ j then fail .undefined
    else
      if bp.word j ≠ 0 then bfree (bp.word j)
      itruncIndirect blk js

/-- `itrunc(ip)`. -/
def itrunc (ip : ℕ) : Fs Unit := do
  itruncDirect ip (List.range NDIRECT)
  let v ← getInode ip
  if v.din.addr NDIRECT ≠ 0 then
    itruncIndirect (v.din.addr NDIRECT) (List.range NINDIRECT)
    bfree (v.din.addr NDIRECT)
    let v ← getInode ip
    setDinode ip (v.din.setAddr NDIRECT 0)
  let v ← getInode ip
  setDinode ip { v.din with size := 0 }
  iupdate ip

/-- `iput(ip)`. -/
def iput (ip : ℕ) : Fs Unit := do
  if ← perform (.putEnter ip) then
    mark (.free ip)
    itrunc ip
    let v ← getInode ip
    setDinode ip { v.din with type := 0 }
    iupdate ip
    perform (.putLeave ip)

/-- `iunlockput(ip)`. -/
def iunlockput (ip : ℕ) : Fs Unit := do
  iunlock ip
  iput ip

/-- `CONSOLE` (`file.h`), the only device with `read` and `write` functions. -/
def CONSOLE : BitVec 16 := 1

/-- `consoleread(ip, dst, n)`. -/
def consoleread (ip n : ℕ) : Fs (List UInt8) := do
  iunlock ip
  let bs ← perform (.devRead n)
  ilock ip
  return bs

/-- `consolewrite(ip, buf, n)`. -/
def consolewrite (ip : ℕ) (src : List UInt8) : Fs ℕ := do
  iunlock ip
  ilock ip
  return src.length

/-- The loop of `readi`, with `n` bytes to go. Every round reads at least one byte, so `n`
rounds are enough. -/
def readiLoop (ip : ℕ) : ℕ → ℕ → ℕ → Fs (List UInt8)
  | 0, _, _ => return []
  | fuel + 1, off, n =>
    if n = 0 then return []
    else do
      let addr ← bmap ip (off / BSIZE)
      let bp ← bread addr
      let m := min n (BSIZE - off % BSIZE)
      let rest ← readiLoop ip fuel (off + m) (n - m)
      return bp.slice (off % BSIZE) m ++ rest

/-- `readi(ip, dst, off, n)`: the bytes read, or `none` for `-1`. -/
def readi (ip off n : ℕ) : Fs (Option (List UInt8)) := do
  let v ← getInode ip
  if v.din.type = T_DEV then
    if v.din.major = CONSOLE then return some (← consoleread ip n)
    else return none
  else if v.din.size < off ∨ (off + n) % 2 ^ 32 < off then return none
  else
    let n := if v.din.size < (off + n) % 2 ^ 32 then v.din.size - off else n
    return some (← readiLoop ip n off n)

/-- The loop of `writei`, with the bytes `src` to go. -/
def writeiLoop (ip : ℕ) : ℕ → ℕ → List UInt8 → Fs Unit
  | 0, _, _ => return ()
  | fuel + 1, off, src =>
    if src = [] then return ()
    else do
      let addr ← bmap ip (off / BSIZE)
      let bp ← bread addr
      let m := min src.length (BSIZE - off % BSIZE)
      logWrite addr (bp.blit (off % BSIZE) (src.take m))
      writeiLoop ip fuel (off + m) (src.drop m)

/-- `writei(ip, src, off, n)`: the number of bytes written, or `none` for `-1`. -/
def writei (ip : ℕ) (src : List UInt8) (off : ℕ) : Fs (Option ℕ) := do
  let v ← getInode ip
  if v.din.type = T_DEV then
    if v.din.major = CONSOLE then return some (← consolewrite ip src)
    else return none
  else if v.din.size < off ∨ (off + src.length) % 2 ^ 32 < off then return none
  else if MAXFILE * BSIZE < (off + src.length) % 2 ^ 32 then return none
  else
    writeiLoop ip src.length off src
    let v ← getInode ip
    if 0 < src.length ∧ v.din.size < off + src.length then
      setDinode ip { v.din with size := off + src.length }
      iupdate ip
    return some src.length

/-! ### Directories -/

/-- `DIRSIZ` (`fs.h`). -/
@[simp] def DIRSIZ : ℕ := 14

/-- `sizeof(struct dirent)`. -/
@[simp] def DIRENT : ℕ := 2 + DIRSIZ

/-- The name in a `DIRSIZ`-byte array: the bytes before the first zero. -/
def nameOf (bs : List UInt8) : List UInt8 := (bs.take DIRSIZ).takeWhile (· ≠ 0)

/-- `de.inum` of a directory entry read as bytes. -/
def direntInum (de : List UInt8) : ℕ := (de.getD 0 0).toNat + 256 * (de.getD 1 0).toNat

/-- `de.name` of a directory entry read as bytes. -/
def direntName (de : List UInt8) : List UInt8 := nameOf (de.drop 2)

/-- `namecmp(s, t) == 0`. -/
def nameEq (s t : List UInt8) : Bool := nameOf s = nameOf t

/-- The directory entry that `dirlink` writes: `strncpy(de.name, name, DIRSIZ)` pads with
zeros, and `de.inum` has 16 bits. -/
def mkDirent (name : List UInt8) (inum : ℕ) : List UInt8 :=
  [UInt8.ofNat inum, UInt8.ofNat (inum / 256)] ++
    nameOf name ++ List.replicate (DIRSIZ - (nameOf name).length) 0

/-- An entry has 16 bytes. -/
theorem length_mkDirent (name : List UInt8) (inum : ℕ) : (mkDirent name inum).length = 16 := by
  have : (nameOf name).length ≤ 14 :=
    (List.takeWhile_sublist _).length_le.trans (by simp)
  simp only [mkDirent, List.length_append, List.length_cons, List.length_nil,
    List.length_replicate, DIRSIZ]
  omega

/-- `readi(dp, &de, off, sizeof(de)) != sizeof(de)` is a panic. -/
def readDirent (p : Panic) (dp off : ℕ) : Fs (List UInt8) := do
  match ← readi dp off DIRENT with
  | some de => if de.length = DIRENT then return de else fail (.panic p)
  | none => fail (.panic p)

/-- The loop of `dirlookup` over the entries `ks`: the offset and number of the first live
entry with this name. -/
def dirScan (dp : ℕ) (name : List UInt8) : List ℕ → Fs (Option (ℕ × ℕ))
  | [] => return none
  | k :: ks => do
    let de ← readDirent .dirlinkRead dp (DIRENT * k)
    if direntInum de = 0 then dirScan dp name ks
    else if nameEq name (direntName de) then return some (DIRENT * k, direntInum de)
    else dirScan dp name ks

/-- The number of entries that the loops over a directory of this size look at. -/
def dirEntries (size : ℕ) : ℕ := (size + (DIRENT - 1)) / DIRENT

/-- `dirlookup(dp, name, poff)`: the cache entry of the inode found, and `*poff`. -/
def dirlookup (dp : ℕ) (name : List UInt8) : Fs (Option (ℕ × ℕ)) := do
  let v ← getInode dp
  if v.din.type ≠ T_DIR then fail (.panic .dirlookupNotDir)
  else
    match ← dirScan dp name (List.range (dirEntries v.din.size)) with
    | some (off, inum) => return some (← iget inum, off)
    | none => return none

/-- The loop of `dirlink` over the entries `ks`: the offset of the first free one, or the end of
the directory. -/
def findSlot (dp last : ℕ) : List ℕ → Fs ℕ
  | [] => return DIRENT * last
  | k :: ks => do
    let de ← readDirent .dirlinkRead dp (DIRENT * k)
    if direntInum de = 0 then return DIRENT * k
    else findSlot dp last ks

/-- `dirlink(dp, name, inum)`: whether the entry was added. -/
def dirlink (dp : ℕ) (name : List UInt8) (inum : ℕ) : Fs Bool := do
  match ← dirlookup dp name with
  | some (ip, _) => do
    iput ip
    return false
  | none => do
    let v ← getInode dp
    let n := dirEntries v.din.size
    let off ← findSlot dp n (List.range n)
    match ← writei dp (mkDirent name inum) off with
    | some m => if m = DIRENT then return true else fail (.panic .dirlink)
    | none => fail (.panic .dirlink)

/-! ### Paths -/

/-- The character `/`. -/
def slash : UInt8 := 47

/-- `skipelem(path, name)`: the next path element, cut to `DIRSIZ` bytes, and the rest of the
path without leading slashes. -/
def skipelem (path : List UInt8) : Option (List UInt8 × List UInt8) :=
  let path := path.dropWhile (· = slash)
  if path = [] then none
  else
    some ((path.takeWhile (· ≠ slash)).take DIRSIZ,
      (path.dropWhile (· ≠ slash)).dropWhile (· = slash))

/-- Every round of `namex` takes something off the path. -/
theorem skipelem_length {path name rest : List UInt8} (h : skipelem path = some (name, rest)) :
    rest.length < path.length := by
  unfold skipelem at h
  dsimp only at h
  split_ifs at h with hne
  cases h
  obtain ⟨b, l, hl⟩ := List.exists_cons_of_ne_nil hne
  have hb : b ≠ slash := by
    have := List.head_dropWhile_not (fun b : UInt8 => decide (b = slash)) hne
    simpa [hl] using this
  calc (((path.dropWhile (· = slash)).dropWhile (· ≠ slash)).dropWhile (· = slash)).length
      ≤ ((path.dropWhile (· = slash)).dropWhile (· ≠ slash)).length :=
        (List.dropWhile_sublist _).length_le
    _ = (l.dropWhile (· ≠ slash)).length := by rw [hl, List.dropWhile_cons_of_pos (by simpa)]
    _ ≤ l.length := (List.dropWhile_sublist _).length_le
    _ < (path.dropWhile (· = slash)).length := by rw [hl]; exact Nat.lt_succ_self _
    _ ≤ path.length := (List.dropWhile_sublist _).length_le

/-- The loop of `namex`. Every round takes at least one byte off the path. -/
def namexLoop (parent : Bool) : ℕ → ℕ → List UInt8 → Fs (Option (ℕ × List UInt8))
  | 0, _, _ => return none
  | fuel + 1, ip, path =>
    match skipelem path with
    | none =>
      if parent then do
        iput ip
        return none
      else return some (ip, [])
    | some (name, rest) => do
      ilock ip
      let v ← getInode ip
      if v.din.type ≠ T_DIR then
        iunlockput ip
        return none
      else if parent ∧ rest = [] then
        iunlock ip
        return some (ip, name)
      else
        match ← dirlookup ip name with
        | none => do
          iunlockput ip
          return none
        | some (next, _) => do
          iunlockput ip
          namexLoop parent fuel next rest

/-- `namex(path, nameiparent, name)`: the cache entry found and the last name. A process that
has exited has no current directory left to start from. -/
def namex (path : List UInt8) (parent : Bool) : Fs (Option (ℕ × List UInt8)) := do
  if path.head? = some slash then
    let ip ← iget ROOTINO
    namexLoop parent (path.length + 1) ip path
  else
    match ← perform .cwd with
    | some cwd => do
      let ip ← idup cwd
      namexLoop parent (path.length + 1) ip path
    | none => fail .undefined

/-- `namei(path)`. -/
def namei (path : List UInt8) : Fs (Option ℕ) := do
  return (← namex path false).map Prod.fst

/-- `nameiparent(path, name)`. -/
def nameiparent (path : List UInt8) : Fs (Option (ℕ × List UInt8)) := namex path true

end Xv6
