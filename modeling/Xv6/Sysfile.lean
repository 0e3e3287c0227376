import Xv6.Fs
import Xv6.PageTable

/-!
# The File System Calls

The functions of `file.c` and `sysfile.c`, and what `exec`, `fork` and `exit` do to files, as
programs over the operations of `Xv6.Kernel`.

Arguments that a system call fetches from user memory are arguments here, `none` if `argstr`,
`argint` or `argptr` fails. So are the answers of the parts of the kernel that are not about
files: what a pipe returns, and whether the memory for a new program can be allocated.

## Main definitions

* `fileclose`, `fileread`, `filewrite`, `filestat`.
* `create`, `sysLink`, `sysUnlink`, `sysOpen`, `sysMkdir`, `sysMknod`, `sysChdir`.
* `loaduvm`, `execFile`, `exitFiles`.
-/

namespace Xv6

/-- `begin_trans()`. -/
def beginTrans : Fs Unit := perform .beginTrans

/-- `commit_trans()`. -/
def commitTrans : Fs Unit := perform .commitTrans

/-- Assign copied fields of `*ip`, then `iupdate(ip)`. -/
def updateInode (ip : ℕ) (f : Dinode → Dinode) : Fs Unit := do
  let v ← getInode ip
  setDinode ip (f v.din)
  iupdate ip

/-! ### Open files -/

/-- `fileclose(f)`. Closing an end of a pipe does nothing to the file system. -/
def fileclose (f : ℕ) : Fs Unit := do
  match ← perform (.fileDrop f) with
  | some ff =>
    if ff.type = .inode then
      beginTrans
      iput ff.ip
      commitTrans
  | none => return ()

/-- `struct stat`, without the device. -/
structure Stat where
  type : BitVec 16
  ino : ℕ
  nlink : BitVec 16
  size : ℕ

/-- `stati(ip, st)`. -/
def stati (ip : ℕ) : Fs Stat := do
  let v ← getInode ip
  return ⟨v.din.type, v.inum, v.din.nlink, v.din.size⟩

/-- `filestat(f, st)`. -/
def filestat (f : ℕ) : Fs (Option Stat) := do
  let ff ← perform (.file f)
  if ff.type = .inode then
    ilock ff.ip
    let st ← stati ff.ip
    iunlock ff.ip
    return some st
  else return none

/-- `f->off += r`. -/
def advance (f r : ℕ) : Fs Unit := do
  let ff ← perform (.file f)
  perform (.setFile f { ff with off := (ff.off + r) % 2 ^ 32 })

/-- `fileread(f, addr, n)`: the bytes read, or `none` for `-1`. The argument `pipe` is the answer
of `piperead`. The offset is read when the inode is locked; `f->ip` does not change. -/
def fileread (f n : ℕ) (pipe : Option (List UInt8)) : Fs (Option (List UInt8)) := do
  let ff ← perform (.file f)
  if ff.readable = false then return none
  else
    match ff.type with
    | .pipe => return pipe
    | .inode => do
      ilock ff.ip
      let now ← perform (.file f)
      let r ← readi ff.ip now.off n
      if 0 < (r.getD []).length then advance f (r.getD []).length
      iunlock ff.ip
      return r
    | .none => fail (.panic .fileread)

/-- `max` in `filewrite`: the most bytes that it writes in one transaction. -/
def filewriteMax : ℕ := (LOGSIZE - 1 - 1 - 2) / 2 * 512

/-- One transaction of `filewrite`: `writei` of the bytes `src` at the offset of the file. -/
def filewriteChunk (f : ℕ) (src : List UInt8) : Fs (Option ℕ) := do
  beginTrans
  let ff ← perform (.file f)
  ilock ff.ip
  let now ← perform (.file f)
  let r ← writei ff.ip src now.off
  if 0 < r.getD 0 then advance f (r.getD 0)
  iunlock ff.ip
  commitTrans
  return r

/-- The loop of `filewrite`, with the bytes `src` to go: whether all of them were written. Every
round writes at least one byte. -/
def filewriteLoop (f : ℕ) : ℕ → List UInt8 → Fs Bool
  | 0, _ => return true
  | fuel + 1, src =>
    if src = [] then return true
    else do
      let n1 := min src.length filewriteMax
      match ← filewriteChunk f (src.take n1) with
      | none => return false
      | some r =>
        if r = n1 then filewriteLoop f fuel (src.drop n1)
        else fail (.panic .shortFilewrite)

/-- `filewrite(f, addr, n)`: the number of bytes, or `none` for `-1`. The argument `pipe` is the
answer of `pipewrite`. -/
def filewrite (f : ℕ) (src : List UInt8) (pipe : Option ℕ) : Fs (Option ℕ) := do
  let ff ← perform (.file f)
  if ff.writable = false then return none
  else
    match ff.type with
    | .pipe => return pipe
    | .inode => do
      if ← filewriteLoop f src.length src then return some src.length
      else return none
    | .none => fail (.panic .filewrite)

/-! ### File descriptors -/

/-- `argfd(n, pfd, pf)`: the open file of a descriptor. -/
def argfd (fd : ℤ) : Fs (Option ℕ) :=
  if fd < 0 ∨ (NOFILE : ℤ) ≤ fd then return none
  else perform (.ofile fd.toNat)

/-- The loop of `fdalloc` over the descriptors `fds`. -/
def fdallocScan (f : ℕ) : List ℕ → Fs (Option ℕ)
  | [] => return none
  | fd :: fds => do
    match ← perform (.ofile fd) with
    | none => do
      perform (.setOfile fd (some f))
      return some fd
    | some _ => fdallocScan f fds

/-- `fdalloc(f)`. -/
def fdalloc (f : ℕ) : Fs (Option ℕ) := fdallocScan f (List.range NOFILE)

/-- `sys_dup()`. -/
def sysDup (fd : ℤ) : Fs (Option ℕ) := do
  match ← argfd fd with
  | none => return none
  | some f =>
    match ← fdalloc f with
    | none => return none
    | some fd => do
      perform (.filedup f)
      return some fd

/-- `sys_read()`. -/
def sysRead (fd : ℤ) (n : Option ℕ) (pipe : Option (List UInt8)) : Fs (Option (List UInt8)) := do
  match ← argfd fd, n with
  | some f, some n => fileread f n pipe
  | _, _ => return none

/-- `sys_write()`. -/
def sysWrite (fd : ℤ) (src : Option (List UInt8)) (pipe : Option ℕ) : Fs (Option ℕ) := do
  match ← argfd fd, src with
  | some f, some src => filewrite f src pipe
  | _, _ => return none

/-- `sys_close()`. -/
def sysClose (fd : ℤ) : Fs Bool := do
  match ← argfd fd with
  | none => return false
  | some f => do
    perform (.setOfile fd.toNat none)
    fileclose f
    return true

/-- `sys_fstat()`. -/
def sysFstat (fd : ℤ) (st : Bool) : Fs (Option Stat) := do
  match ← argfd fd with
  | none => return none
  | some f => if st then filestat f else return none

/-! ### Links -/

/-- The characters `.` and `..`. -/
def dot : List UInt8 := [46]

/-- The name `..`. -/
def dotdot : List UInt8 := [46, 46]

/-- The part of `sys_link` after the label `bad`. -/
def linkBad (ip : ℕ) : Fs Bool := do
  ilock ip
  updateInode ip fun d => { d with nlink := d.nlink - 1 }
  iunlockput ip
  commitTrans
  return false

/-- `sys_link()`. There is one device, so `dp->dev != ip->dev` does not hold. -/
def sysLink (old new : Option (List UInt8)) : Fs Bool := do
  match old, new with
  | some old, some new =>
    match ← namei old with
    | none => return false
    | some ip => do
      beginTrans
      ilock ip
      let v ← getInode ip
      if v.din.type = T_DIR then
        iunlockput ip
        commitTrans
        return false
      else
        updateInode ip fun d => { d with nlink := d.nlink + 1 }
        iunlock ip
        match ← nameiparent new with
        | none => linkBad ip
        | some (dp, name) => do
          ilock dp
          let v ← getInode ip
          if ← dirlink dp name v.inum then
            iunlockput dp
            iput ip
            commitTrans
            return true
          else
            iunlockput dp
            linkBad ip
  | _, _ => return false

/-- The loop of `isdirempty` over the entries `ks`. -/
def isdiremptyScan (dp : ℕ) : List ℕ → Fs Bool
  | [] => return true
  | k :: ks => do
    let de ← readDirent .isdirempty dp (DIRENT * k)
    if direntInum de ≠ 0 then return false
    else isdiremptyScan dp ks

/-- `isdirempty(dp)`: whether there are no entries past the first two. -/
def isdirempty (dp : ℕ) : Fs Bool := do
  let v ← getInode dp
  isdiremptyScan dp ((List.range (dirEntries v.din.size)).drop 2)

/-- The part of `sys_unlink` after the label `bad`. -/
def unlinkBad (dp : ℕ) : Fs Bool := do
  iunlockput dp
  commitTrans
  return false

/-- The part of `sys_unlink` that removes the entry at `off` of `dp`, which is for `ip`. -/
def unlinkEntry (dp ip off : ℕ) : Fs Bool := do
  match ← writei dp (List.replicate DIRENT 0) off with
  | some m =>
    if m = DIRENT then
      let v ← getInode ip
      if v.din.type = T_DIR then
        updateInode dp fun d => { d with nlink := d.nlink - 1 }
      iunlockput dp
      updateInode ip fun d => { d with nlink := d.nlink - 1 }
      iunlockput ip
      commitTrans
      return true
    else fail (.panic .unlinkWritei)
  | none => fail (.panic .unlinkWritei)

/-- `sys_unlink()`. -/
def sysUnlink (path : Option (List UInt8)) : Fs Bool := do
  match path with
  | none => return false
  | some path =>
    match ← nameiparent path with
    | none => return false
    | some (dp, name) => do
      beginTrans
      ilock dp
      if nameEq name dot ∨ nameEq name dotdot then unlinkBad dp
      else
        match ← dirlookup dp name with
        | none => unlinkBad dp
        | some (ip, off) => do
          ilock ip
          let v ← getInode ip
          if v.din.nlink.toInt < 1 then fail (.panic .unlinkNlink)
          else if v.din.type = T_DIR then
            if ← isdirempty ip then unlinkEntry dp ip off
            else
              iunlockput ip
              unlinkBad dp
          else unlinkEntry dp ip off

/-! ### New files -/

/-- The part of `create` that makes the entries `.` and `..` of a new directory. -/
def createDots (dp ip : ℕ) : Fs Unit := do
  updateInode dp fun d => { d with nlink := d.nlink + 1 }
  let v ← getInode ip
  let w ← getInode dp
  if ← dirlink ip dot v.inum then
    if ← dirlink ip dotdot w.inum then return ()
    else fail (.panic .createDots)
  else fail (.panic .createDots)

/-- The part of `create` that makes a new inode and links it to `dp`. -/
def createNew (dp : ℕ) (name : List UInt8) (type major minor : BitVec 16) : Fs (Option ℕ) := do
  let ip ← ialloc type
  ilock ip
  updateInode ip fun d => { d with major := major, minor := minor, nlink := 1 }
  if type = T_DIR then createDots dp ip
  let v ← getInode ip
  if ← dirlink dp name v.inum then
    iunlockput dp
    return some ip
  else fail (.panic .createDirlink)

/-- `create(path, type, major, minor)`. -/
def create (path : List UInt8) (type major minor : BitVec 16) : Fs (Option ℕ) := do
  match ← nameiparent path with
  | none => return none
  | some (dp, name) => do
    ilock dp
    match ← dirlookup dp name with
    | some (ip, _) => do
      iunlockput dp
      ilock ip
      let v ← getInode ip
      if type = T_FILE ∧ v.din.type = T_FILE then return some ip
      else
        iunlockput ip
        return none
    | none => createNew dp name type major minor

/-- `omode & O_CREATE`. -/
def isCreate (omode : BitVec 32) : Bool := omode &&& 0x200 ≠ 0

/-- The part of `sys_open` that finds or makes the inode, which is returned locked. -/
def openInode (path : List UInt8) (omode : BitVec 32) : Fs (Option ℕ) :=
  if isCreate omode then do
    beginTrans
    let r ← create path T_FILE 0 0
    commitTrans
    return r
  else do
    match ← namei path with
    | none => return none
    | some ip => do
      ilock ip
      let v ← getInode ip
      if v.din.type = T_DIR ∧ omode ≠ 0 then
        iunlockput ip
        return none
      else return some ip

/-- `sys_open()`. -/
def sysOpen (path : Option (List UInt8)) (omode : BitVec 32) : Fs (Option ℕ) := do
  match path with
  | none => return none
  | some path =>
    match ← openInode path omode with
    | none => return none
    | some ip =>
      match ← perform .filealloc with
      | none => do
        iunlockput ip
        return none
      | some f =>
        match ← fdalloc f with
        | none => do
          fileclose f
          iunlockput ip
          return none
        | some fd => do
          iunlock ip
          perform (.setFile f ⟨.inode, 0, omode &&& 1 = 0,
            omode &&& 1 ≠ 0 ∨ omode &&& 2 ≠ 0, ip, 0⟩)
          return some fd

/-- `sys_mkdir()` and `sys_mknod()`, which differ in the arguments of `create`. -/
def makeNode (path : Option (List UInt8)) (type major minor : BitVec 16) : Fs Bool := do
  beginTrans
  match path with
  | none => do
    commitTrans
    return false
  | some path =>
    match ← create path type major minor with
    | none => do
      commitTrans
      return false
    | some ip => do
      iunlockput ip
      commitTrans
      return true

/-- `sys_mkdir()`. -/
def sysMkdir (path : Option (List UInt8)) : Fs Bool := makeNode path T_DIR 0 0

/-- `sys_mknod()`. -/
def sysMknod (path : Option (List UInt8)) (major minor : BitVec 16) : Fs Bool :=
  makeNode path T_DEV major minor

/-- `sys_chdir()`. -/
def sysChdir (path : Option (List UInt8)) : Fs Bool := do
  match path with
  | none => return false
  | some path =>
    match ← namei path with
    | none => return false
    | some ip => do
      ilock ip
      let v ← getInode ip
      if v.din.type ≠ T_DIR then
        iunlockput ip
        return false
      else
        iunlock ip
        match ← perform .cwd with
        | none => fail .undefined
        | some cwd => do
          iput cwd
          perform (.setCwd (some ip))
          return true

/-! ### Pipes -/

/-- The label `bad` of `pipealloc` and the last branch of `sys_pipe`: close what was opened. -/
def closeAll : List ℕ → Fs Unit
  | [] => return ()
  | f :: fs => do
    fileclose f
    closeAll fs

/-- `pipealloc(f0, f1)`, where `kalloc` tells whether there is a page for the pipe. -/
def pipealloc (kalloc : Bool) : Fs (Option (ℕ × ℕ)) := do
  match ← perform .filealloc with
  | none => return none
  | some f0 =>
    match ← perform .filealloc with
    | none => do
      closeAll [f0]
      return none
    | some f1 =>
      if kalloc then
        perform (.setFile f0 ⟨.pipe, 0, true, false, 0, 0⟩)
        perform (.setFile f1 ⟨.pipe, 0, false, true, 0, 0⟩)
        return some (f0, f1)
      else
        closeAll [f0, f1]
        return none

/-- `sys_pipe()`. -/
def sysPipe (fd kalloc : Bool) : Fs (Option (ℕ × ℕ)) := do
  if fd = false then return none
  else
    match ← pipealloc kalloc with
    | none => return none
    | some (rf, wf) =>
      match ← fdalloc rf with
      | none => do
        closeAll [rf, wf]
        return none
      | some fd0 =>
        match ← fdalloc wf with
        | none => do
          perform (.setOfile fd0 none)
          closeAll [rf, wf]
          return none
        | some fd1 => return some (fd0, fd1)

/-! ### Programs and processes -/

/-- The loop of `loaduvm` over the pages `ks`. -/
def loaduvmScan (pte : ℕ → Bool) (addr ip offset sz : ℕ) : List ℕ → Fs Bool
  | [] => return true
  | k :: ks =>
    if pte (addr + Vm.PGSIZE * k) then do
      let n := min (sz - Vm.PGSIZE * k) Vm.PGSIZE
      match ← readi ip ((offset + Vm.PGSIZE * k) % 2 ^ 32) n with
      | some bs => if bs.length = n then loaduvmScan pte addr ip offset sz ks else return false
      | none => return false
    else fail (.panic .loaduvmExist)

/-- `loaduvm(pgdir, addr, ip, offset, sz)`, where `pte` tells whether `walkpgdir` finds an entry.
A read past the end of the file ends the loop, so `i` does not overflow. -/
def loaduvm (pte : ℕ → Bool) (addr ip offset sz : ℕ) : Fs Bool :=
  if addr % Vm.PGSIZE ≠ 0 then fail (.panic .loaduvmAligned)
  else loaduvmScan pte addr ip offset sz (List.range ((sz + (Vm.PGSIZE - 1)) / Vm.PGSIZE))

/-- The answers of the memory management while `exec` runs. -/
structure Memory where
  setupkvm : Bool
  /-- `allocuvm` for program header `i` does not return 0 -/
  allocuvm : ℕ → Bool
  pte : ℕ → Bool

/-- The little-endian number of `n` bytes at `i`. -/
def leNat (bs : List UInt8) (i n : ℕ) : ℕ :=
  ((bs.drop i).take n).foldr (fun b acc => b.toNat + 256 * acc) 0

/-- The loop of `exec` over the program headers `is`. -/
def loadProgram (mem : Memory) (ip phoff : ℕ) : List ℕ → Fs Bool
  | [] => return true
  | i :: is => do
    match ← readi ip ((phoff + 32 * i) % 2 ^ 32) 32 with
    | some ph =>
      if ph.length ≠ 32 then return false
      else if leNat ph 0 4 ≠ 1 then loadProgram mem ip phoff is
      else if leNat ph 20 4 < leNat ph 16 4 then return false
      else if mem.allocuvm i = false then return false
      else if ← loaduvm mem.pte (leNat ph 8 4) ip (leNat ph 4 4) (leNat ph 16 4) then
        loadProgram mem ip phoff is
      else return false
    | none => return false

/-- `exec` from `ilock(ip)` to `iunlockput(ip)`: whether the program has been loaded. -/
def loadElf (mem : Memory) (ip : ℕ) : Fs Bool := do
  match ← readi ip 0 52 with
  | some elf =>
    if elf.length < 52 ∨ leNat elf 0 4 ≠ 0x464C457F ∨ mem.setupkvm = false then return false
    else loadProgram mem ip (leNat elf 28 4) (List.range (leNat elf 44 2))
  | none => return false

/-- What `exec(path, argv)` does to the file system. -/
def execFile (mem : Memory) (path : Option (List UInt8)) : Fs Bool := do
  match path with
  | none => return false
  | some path =>
    match ← namei path with
    | none => return false
    | some ip => do
      ilock ip
      let r ← loadElf mem ip
      iunlockput ip
      return r

/-- The loop of `fork` and `thread_create` over the descriptors `fds`. -/
def dupFiles : List ℕ → Fs Unit
  | [] => return ()
  | fd :: fds => do
    match ← perform (.ofile fd) with
    | some f => do
      perform (.filedup f)
      dupFiles fds
    | none => dupFiles fds

/-- What `fork` and `thread_create` do to the file system: the child gets the same open files and
the same current directory. -/
def forkFiles : Fs Unit := do
  dupFiles (List.range NOFILE)
  match ← perform .cwd with
  | some cwd => do
    let _ ← idup cwd
  | none => fail .undefined

/-- The loop of `exit` over the descriptors `fds`. -/
def closeFds : List ℕ → Fs Unit
  | [] => return ()
  | fd :: fds => do
    match ← perform (.ofile fd) with
    | some f => do
      fileclose f
      perform (.setOfile fd none)
      closeFds fds
    | none => closeFds fds

/-- What `exit` does to the file system. -/
def exitFiles : Fs Unit := do
  closeFds (List.range NOFILE)
  match ← perform .cwd with
  | some cwd => do
    iput cwd
    perform (.setCwd none)
  | none => fail .undefined

end Xv6
