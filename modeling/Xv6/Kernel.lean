import Xv6.Dinode
import Xv6.Log
import Xv6.Prog

/-!
# The Kernel State and Its Atomic Operations

The state that the file system code of the kernel works on, and the operations it performs
on it one at a time: reading a block through the buffer cache, `log_write`, opening and
committing a transaction, and the critical sections of `icache.lock` and `ftable.lock`. The
functions of `fs.c`, `file.c` and `sysfile.c` are programs over these operations
(`Xv6.Prog`), so that the same text can be run by one process alone and interleaved with
others.

The buffer cache is taken as coherent: `bread` returns the current contents of the sector,
those of an open transaction included. There is one device. The process whose transaction is
open, which the code does not record, is kept as ghost state.

## Main definitions

* `Sys`, `Op`: the state and the operations.
* `exec`: what an operation does. It takes a `Mode`, which can lift the limit of the log or
  exclude the allocation of blocks of the log area; `Mode.real` is the kernel.
-/

open WriteSeq

namespace Xv6

/-- `NINODE` (`param.h`). -/
@[simp] def NINODE : ℕ := 50

/-- `NFILE` (`param.h`). -/
@[simp] def NFILE : ℕ := 100

/-- `NOFILE` (`param.h`). -/
@[simp] def NOFILE : ℕ := 16

/-- `struct inode`: an entry of the inode cache. -/
structure Inode where
  inum : ℕ
  ref : ℤ
  busy : Bool
  valid : Bool
  /-- the copy of the disk inode -/
  din : Dinode

/-- A free entry of the inode cache. -/
def noInode : Inode := ⟨0, 0, false, false, Dinode.zero⟩

/-- `FD_NONE`, `FD_PIPE` and `FD_INODE`. -/
inductive FileType
  | none
  | pipe
  | inode
  deriving DecidableEq, Repr

/-- `struct file`. -/
structure File where
  type : FileType
  ref : ℤ
  readable : Bool
  writable : Bool
  ip : ℕ
  off : ℕ

/-- The file system part of `struct proc`. -/
structure ProcFiles where
  ofile : ℕ → Option ℕ
  cwd : Option ℕ

/-- The kernel state. Processes, cache entries and open files are named by their index. -/
structure Sys where
  /-- the current contents of each sector -/
  disk : Disk
  log : Log
  icache : ℕ → Inode
  ftable : ℕ → File
  proc : ℕ → ProcFiles
  /-- console input not read yet -/
  input : List UInt8
  /-- ghost: the process whose transaction is open -/
  owner : Option ℕ

/-- The branches that results can single out. -/
inductive Mark
  /-- `balloc` has chosen this block -/
  | alloc (b : ℕ)
  /-- `iput` truncates and frees this inode -/
  | free (ip : ℕ)
  deriving DecidableEq, Repr

/-- The operations of the file system code. -/
inductive Op
  /-- `bread`, and `brelse` later on -/
  | bread (b : ℕ)
  /-- `log_write` of sector `b` with these contents -/
  | logWrite (b : ℕ) (data : Block)
  | beginTrans
  | commitTrans
  /-- no code: the branch `m` is taken -/
  | mark (m : Mark)
  /-- read the fields of a cache entry -/
  | inode (ip : ℕ)
  /-- read the block pointer `k` of a cache entry, in `bmap` -/
  | addr (ip k : ℕ)
  /-- read the pointer `k` in the buffer of an indirect block, in `bmap` -/
  | entry (blk k : ℕ)
  /-- assign the copied fields of a cache entry -/
  | setDinode (ip : ℕ) (d : Dinode)
  /-- `ip->flags |= I_VALID` -/
  | setValid (ip : ℕ)
  /-- the critical section of `iget` -/
  | iget (inum : ℕ)
  /-- the critical section of `idup` -/
  | idup (ip : ℕ)
  /-- the first part of `ilock` -/
  | lock (ip : ℕ)
  /-- `iunlock` -/
  | unlock (ip : ℕ)
  /-- the first critical section of `iput`: whether the inode is to be freed -/
  | putEnter (ip : ℕ)
  /-- the second critical section of `iput`, after the inode has been freed -/
  | putLeave (ip : ℕ)
  /-- the critical section of `filealloc` -/
  | filealloc
  /-- `filedup` -/
  | filedup (f : ℕ)
  /-- the critical section of `fileclose`: the file, if this was its last reference -/
  | fileDrop (f : ℕ)
  /-- read the fields of an open file -/
  | file (f : ℕ)
  /-- assign the fields of an open file, other than its count -/
  | setFile (f : ℕ) (v : File)
  /-- `proc->ofile[fd]` -/
  | ofile (fd : ℕ)
  /-- `proc->ofile[fd] = v` -/
  | setOfile (fd : ℕ) (v : Option ℕ)
  /-- `proc->cwd` -/
  | cwd
  /-- `proc->cwd = v` -/
  | setCwd (v : Option ℕ)
  /-- the console gives at most `n` bytes -/
  | devRead (n : ℕ)
  /-- the path ends -/
  | fail (e : Fault)

/-- The type of the answer to an operation. -/
@[reducible] def Op.Ret : Op → Type
  | .bread _ => Block
  | .inode _ => Inode
  | .addr _ _ => ℕ
  | .entry _ _ => ℕ
  | .iget _ => ℕ
  | .putEnter _ => Bool
  | .filealloc => Option ℕ
  | .fileDrop _ => Option File
  | .file _ => File
  | .ofile _ => Option ℕ
  | .cwd => Option ℕ
  | .devRead _ => List UInt8
  | .fail _ => Empty
  | _ => Unit

/-- Kernel code. -/
abbrev Fs (α : Type) := Prog Op Op.Ret α

/-- Which faults are looked for. -/
structure Mode where
  /-- `log_write` panics when the log is full -/
  limited : Bool
  /-- paths on which `balloc` takes a block of the log area are excluded -/
  guarded : Bool
  deriving DecidableEq, Repr

/-- The kernel as it is. -/
def Mode.real : Mode := ⟨true, false⟩

/-- The kernel with a log that never fills up, on paths that stay out of the log area. -/
def Mode.ideal : Mode := ⟨false, true⟩

namespace Sys

/-- Change a cache entry. -/
def setInode (s : Sys) (ip : ℕ) (v : Inode) : Sys :=
  { s with icache := Function.update s.icache ip v }

/-- Assign the copied fields of a cache entry. -/
def setDin (s : Sys) (ip : ℕ) (d : Dinode) : Sys := s.setInode ip { s.icache ip with din := d }

/-- Change an open file. -/
def setFile (s : Sys) (f : ℕ) (v : File) : Sys :=
  { s with ftable := Function.update s.ftable f v }

/-- Change the files of a process. -/
def setProc (s : Sys) (p : ℕ) (v : ProcFiles) : Sys :=
  { s with proc := Function.update s.proc p v }

/-- `log_write` past its tests: the sector has new contents, and so has its slot. -/
def logPut (s : Sys) (b : ℕ) (data : Block) : Sys :=
  { s with
    disk := applyWrites (s.log.record b data).2 (Function.update s.disk b data)
    log := (s.log.record b data).1 }

/-- `begin_trans` of process `p`, once no other transaction is open. -/
def begun (s : Sys) (p : ℕ) : Sys :=
  { s with log := { s.log with busy := true }, owner := some p }

/-- `commit_trans`: the home sectors are installed and the header is cleared. -/
def commit (s : Sys) : Sys :=
  { s with
    disk := applyWrites (s.log.commitTrans s.disk) s.disk
    log := { s.log with busy := false, lh := [] }
    owner := none }

/-- The loop of `iget`: an entry for this inode. -/
def findCached (s : Sys) (inum : ℕ) : Option ℕ :=
  (List.range NINODE).find? fun ip => 0 < (s.icache ip).ref ∧ (s.icache ip).inum = inum

/-- The loop of `iget`: the first free entry. -/
def findEmpty (s : Sys) : Option ℕ :=
  (List.range NINODE).find? fun ip => (s.icache ip).ref = 0

/-- The loop of `filealloc`: the first free open file. -/
def findFile (s : Sys) : Option ℕ :=
  (List.range NFILE).find? fun f => (s.ftable f).ref = 0

end Sys

/-- The effect of an operation performed by process `p`. -/
def exec (md : Mode) (p : ℕ) : (o : Op) → Sys → Except Fault (o.Ret × Sys)
  | .bread b, s => .ok (s.disk b, s)
  | .logWrite b data, s =>
    if md.limited ∧ s.log.isFull then .error (.panic .tooBigTransaction)
    else if ¬ s.log.busy then .error (.panic .writeOutsideTrans)
    else .ok ((), s.logPut b data)
  | .beginTrans, s =>
    if s.log.busy then .error .blocked
    else .ok ((), { s with log := { s.log with busy := true }, owner := some p })
  | .commitTrans, s => .ok ((), s.commit)
  | .mark m, s =>
    match m with
    | .alloc b => if md.guarded ∧ s.log.start ≤ b then .error .excluded else .ok ((), s)
    | .free _ => .ok ((), s)
  | .inode ip, s => .ok (s.icache ip, s)
  | .addr ip k, s => .ok ((s.icache ip).din.addr k, s)
  | .entry blk k, s => .ok ((s.disk blk).word k, s)
  | .setDinode ip d, s => .ok ((), s.setDin ip d)
  | .setValid ip, s => .ok ((), s.setInode ip { s.icache ip with valid := true })
  | .iget inum, s =>
    match s.findCached inum with
    | some ip => .ok (ip, s.setInode ip { s.icache ip with ref := (s.icache ip).ref + 1 })
    | none =>
      match s.findEmpty with
      | some ip => .ok (ip, s.setInode ip
          { s.icache ip with inum := inum, ref := 1, busy := false, valid := false })
      | none => .error (.panic .igetNoInodes)
  | .idup ip, s => .ok ((), s.setInode ip { s.icache ip with ref := (s.icache ip).ref + 1 })
  | .lock ip, s =>
    if (s.icache ip).ref < 1 then .error (.panic .ilock)
    else if (s.icache ip).busy then .error .blocked
    else .ok ((), s.setInode ip { s.icache ip with busy := true })
  | .unlock ip, s =>
    if ¬ (s.icache ip).busy ∨ (s.icache ip).ref < 1 then .error (.panic .iunlock)
    else .ok ((), s.setInode ip { s.icache ip with busy := false })
  | .putEnter ip, s =>
    if (s.icache ip).ref = 1 ∧ (s.icache ip).valid ∧ (s.icache ip).din.nlink = 0 then
      if (s.icache ip).busy then .error (.panic .iputBusy)
      else .ok (true, s.setInode ip { s.icache ip with busy := true })
    else .ok (false, s.setInode ip { s.icache ip with ref := (s.icache ip).ref - 1 })
  | .putLeave ip, s =>
    .ok ((), s.setInode ip
      { s.icache ip with busy := false, valid := false, ref := (s.icache ip).ref - 1 })
  | .filealloc, s =>
    match s.findFile with
    | some f => .ok (some f, s.setFile f { s.ftable f with ref := 1 })
    | none => .ok (none, s)
  | .filedup f, s =>
    if (s.ftable f).ref < 1 then .error (.panic .filedup)
    else .ok ((), s.setFile f { s.ftable f with ref := (s.ftable f).ref + 1 })
  | .fileDrop f, s =>
    if (s.ftable f).ref < 1 then .error (.panic .fileclose)
    else if 1 < (s.ftable f).ref then
      .ok (none, s.setFile f { s.ftable f with ref := (s.ftable f).ref - 1 })
    else .ok (some (s.ftable f), s.setFile f { s.ftable f with ref := 0, type := .none })
  | .file f, s => .ok (s.ftable f, s)
  | .setFile f v, s => .ok ((), s.setFile f { v with ref := (s.ftable f).ref })
  | .ofile fd, s => .ok ((s.proc p).ofile fd, s)
  | .setOfile fd v, s =>
    .ok ((), s.setProc p { s.proc p with ofile := Function.update (s.proc p).ofile fd v })
  | .cwd, s => .ok ((s.proc p).cwd, s)
  | .setCwd v, s => .ok ((), s.setProc p { s.proc p with cwd := v })
  | .devRead n, s =>
    if 0 < n ∧ s.input = [] then .error .blocked
    else .ok (s.input.take n, { s with input := s.input.drop n })
  | .fail e, _ => .error e

/-- Run kernel code as process `p`. -/
abbrev Fs.run {α : Type} (md : Mode) (p : ℕ) (c : Fs α) (s : Sys) : Except Fault (α × Sys) :=
  Prog.run (exec md p) c s

end Xv6
