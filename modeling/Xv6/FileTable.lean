import Xv6.Kernel
import Xv6.RefCount
import Xv6.Transition

/-!
# Open Files

The table of open files with its reference counts, the descriptors of the processes and the ends
of the pipes: `filealloc`, `filedup` and `fileclose` of `file.c`, `pipealloc` and `pipeclose` of
`pipe.c`, and the system calls that make and drop references. A call is one step, successful or
not. What other parts of the kernel decide is an argument of the call: whether a path leads to an
inode that may be opened, and whether a page or a process slot can be had.

## Main definitions

* `State`: the tables.
* `Call.run`: the system calls.

## Main results

* `Inv`: the counts are right up to the references that the running code holds itself.
* `inv_call`: every call returns and keeps the invariant.
* `files_counted`: **the reference counts are right in every state of every run.**
-/

open Transition Transition.System
open Function (update update_apply update_eq_self update_idem update_of_ne update_self)

namespace Xv6.FileTable

/-- `NPROC` (`param.h`). -/
def NPROC : ℕ := 64

/-- `struct file`. The pipe is named by its page. -/
structure File where
  type : FileType
  ref : ℤ
  readable : Bool
  writable : Bool
  pipe : ℕ
  ip : ℕ
  off : ℕ

/-- The flags of `struct pipe`. -/
structure Ends where
  readopen : Bool
  writeopen : Bool
  deriving DecidableEq, Repr

/-- `p->writeopen = 0` or `p->readopen = 0`. -/
def Ends.close (e : Ends) (writable : Bool) : Ends :=
  if writable then { e with writeopen := false } else { e with readopen := false }

/-- `p->writeopen` or `p->readopen`. -/
def Ends.isOpen (e : Ends) (writable : Bool) : Bool :=
  if writable then e.writeopen else e.readopen

/-- A slot of the process table: free, in use, or of a process that has exited. -/
inductive Life
  | unused
  | live
  | zombie
  deriving DecidableEq, Repr

/-- The tables. -/
structure State where
  /-- `ftable.file` -/
  file : ℕ → File
  /-- `ofile` of each process -/
  ofile : ℕ × ℕ → Option ℕ
  life : ℕ → Life
  /-- the pages that are in use as pipes -/
  pipe : ℕ → Option Ends
  initproc : ℕ

/-- What can go wrong. -/
inductive Trouble
  /-- `filedup`: "filedup" -/
  | filedup
  /-- `fileclose`: "fileclose" -/
  | fileclose
  /-- `exit`: "init exiting" -/
  | initExiting
  /-- the code works on a page that is no pipe -/
  | noPipe
  deriving DecidableEq, Repr

namespace State

/-- Change an entry of the file table. -/
def setFile (s : State) (f : ℕ) (v : File) : State :=
  { s with file := update s.file f v }

/-- `p->ofile[fd] = v`. -/
def setOfile (s : State) (p fd : ℕ) (v : Option ℕ) : State :=
  { s with ofile := update s.ofile (p, fd) v }

/-- Change the state of a process. -/
def setLife (s : State) (p : ℕ) (v : Life) : State :=
  { s with life := update s.life p v }

/-- Change a page. -/
def setPipe (s : State) (q : ℕ) (v : Option Ends) : State :=
  { s with pipe := update s.pipe q v }

/-- The loop of `filealloc`: the first entry without references. -/
def findFile (s : State) : Option ℕ := (List.range NFILE).find? fun f => (s.file f).ref = 0

/-- The loop of `fdalloc`: the first free descriptor. -/
def findFd (s : State) (p : ℕ) : Option ℕ :=
  (List.range NOFILE).find? fun fd => s.ofile (p, fd) = none

/-- The loop of `allocproc`: the first free slot. -/
def findProc (s : State) : Option ℕ := (List.range NPROC).find? fun p => s.life p = .unused

end State

/-! ### `file.c` and `pipe.c` -/

/-- `filealloc()`. -/
def filealloc (s : State) : Option ℕ × State :=
  match s.findFile with
  | some f => (some f, s.setFile f { s.file f with ref := 1 })
  | none => (none, s)

/-- `filedup(f)`. -/
def filedup (s : State) (f : ℕ) : Except Trouble State :=
  if (s.file f).ref < 1 then .error .filedup
  else .ok (s.setFile f { s.file f with ref := (s.file f).ref + 1 })

/-- `pipeclose(p, writable)`. -/
def pipeclose (s : State) (q : ℕ) (writable : Bool) : Except Trouble State :=
  match s.pipe q with
  | none => .error .noPipe
  | some e =>
    let e := e.close writable
    if e.readopen = false ∧ e.writeopen = false then .ok (s.setPipe q none)
    else .ok (s.setPipe q (some e))

/-- `fileclose(f)`. The transaction in which the inode of a file is given up does not concern
these tables. -/
def fileclose (s : State) (f : ℕ) : Except Trouble State :=
  if (s.file f).ref < 1 then .error .fileclose
  else if 1 < (s.file f).ref then .ok (s.setFile f { s.file f with ref := (s.file f).ref - 1 })
  else
    let ff := s.file f
    let s := s.setFile f { s.file f with ref := 0, type := .none }
    if ff.type = .pipe then pipeclose s ff.pipe ff.writable else .ok s

/-- The page `q` becomes a pipe, with the entries `f0` and `f1` for its ends. -/
def State.newPipe (s : State) (f0 f1 q : ℕ) : State :=
  let s := s.setPipe q (some ⟨true, true⟩)
  let s := s.setFile f0
    { s.file f0 with type := .pipe, readable := true, writable := false, pipe := q }
  s.setFile f1 { s.file f1 with type := .pipe, readable := false, writable := true, pipe := q }

/-- `pipealloc(&f0, &f1)`, when `kalloc` returns `page`. -/
def pipealloc (s : State) (page : Option ℕ) : Except Trouble (Option (ℕ × ℕ) × State) :=
  match filealloc s with
  | (none, s) => .ok (none, s)
  | (some f0, s) =>
    match filealloc s with
    | (none, s) => do
      let s ← fileclose s f0
      return (none, s)
    | (some f1, s) =>
      match page with
      | none => do
        let s ← fileclose s f0
        let s ← fileclose s f1
        return (none, s)
      | some q => .ok (some (f0, f1), s.newPipe f0 f1 q)

/-! ### `sysfile.c` -/

/-- `argfd(n, &fd, &f)`, when the argument is `fd`. -/
def argfd (s : State) (p : ℕ) (fd : ℤ) : Option (ℕ × ℕ) :=
  if fd < 0 ∨ (NOFILE : ℤ) ≤ fd then none
  else (s.ofile (p, fd.toNat)).map fun f => (fd.toNat, f)

/-- `fdalloc(f)`. -/
def fdalloc (s : State) (p f : ℕ) : Option ℕ × State :=
  match s.findFd p with
  | some fd => (some fd, s.setOfile p fd (some f))
  | none => (none, s)

/-- `sys_dup()`. -/
def sysDup (s : State) (p : ℕ) (fd : ℤ) : Except Trouble (Option ℕ × State) :=
  match argfd s p fd with
  | none => .ok (none, s)
  | some (_, f) =>
    match fdalloc s p f with
    | (none, s) => .ok (none, s)
    | (some fd, s) => do
      let s ← filedup s f
      return (some fd, s)

/-- `sys_close()`. -/
def sysClose (s : State) (p : ℕ) (fd : ℤ) : Except Trouble (Option ℕ × State) :=
  match argfd s p fd with
  | none => .ok (none, s)
  | some (fd, f) => do
    let s := s.setOfile p fd none
    let s ← fileclose s f
    return (some 0, s)

/-- `O_WRONLY` (`fcntl.h`). -/
def O_WRONLY : BitVec 32 := 1

/-- `O_RDWR` (`fcntl.h`). -/
def O_RDWR : BitVec 32 := 2

/-- `sys_open()`. The part before `filealloc`, with or without `O_CREATE`, ends with the locked
inode `ip`, or with a return of `-1`. -/
def sysOpen (s : State) (p : ℕ) (ip : Option ℕ) (omode : BitVec 32) :
    Except Trouble (Option ℕ × State) :=
  match ip with
  | none => .ok (none, s)
  | some ip =>
    match filealloc s with
    | (none, s) => .ok (none, s)
    | (some f, s) =>
      match fdalloc s p f with
      | (none, s) => do
        let s ← fileclose s f
        return (none, s)
      | (some fd, s) =>
        .ok (some fd, s.setFile f
          { s.file f with
            type := .inode, ip := ip, off := 0
            readable := omode &&& O_WRONLY = 0
            writable := omode &&& O_WRONLY ≠ 0 ∨ omode &&& O_RDWR ≠ 0 })

/-- `sys_pipe()`, when `kalloc` returns `page`. The argument is a pointer into user memory, or it
is not. -/
def sysPipe (s : State) (p : ℕ) (arg : Bool) (page : Option ℕ) :
    Except Trouble (Option ℕ × State) :=
  if arg then do
    match ← pipealloc s page with
    | (none, s) => return (none, s)
    | (some (rf, wf), s) =>
      match fdalloc s p rf with
      | (none, s) =>
        let s ← fileclose s rf
        let s ← fileclose s wf
        return (none, s)
      | (some fd0, s) =>
        match fdalloc s p wf with
        | (none, s) =>
          let s := s.setOfile p fd0 none
          let s ← fileclose s rf
          let s ← fileclose s wf
          return (none, s)
        | (some _, s) => return (some 0, s)
  else return (none, s)

/-! ### `proc.c` -/

/-- `allocproc()`, when `kalloc` returns a page for the stack or not. -/
def allocproc (s : State) (kstack : Bool) : Option ℕ × State :=
  match s.findProc with
  | none => (none, s)
  | some np => if kstack then (some np, s.setLife np .live) else (none, s)

/-- The body of the loop that copies the descriptors of `p` to `np`. -/
def copyFile (p np : ℕ) (s : State) (i : ℕ) : Except Trouble State :=
  match s.ofile (p, i) with
  | none => .ok s
  | some f => do
    let s ← filedup s f
    return s.setOfile np i (some f)

/-- `fork()`, when `copyuvm` succeeds or not. -/
def fork (s : State) (p : ℕ) (kstack copied : Bool) : Except Trouble (Option ℕ × State) :=
  match allocproc s kstack with
  | (none, s) => .ok (none, s)
  | (some np, s) =>
    if copied then do
      let s ← (List.range NOFILE).foldlM (copyFile p np) s
      return (some np, s)
    else .ok (none, s.setLife np .unused)

/-- `thread_create(tmain, stack, arg)`. -/
def threadCreate (s : State) (p : ℕ) (kstack : Bool) : Except Trouble (Option ℕ × State) :=
  match allocproc s kstack with
  | (none, s) => .ok (none, s)
  | (some np, s) => do
    let s ← (List.range NOFILE).foldlM (copyFile p np) s
    return (some np, s)

/-- The body of the loop of `exit`. -/
def closeFile (p : ℕ) (s : State) (fd : ℕ) : Except Trouble State :=
  match s.ofile (p, fd) with
  | none => .ok s
  | some f => do
    let s ← fileclose s f
    return s.setOfile p fd none

/-- `exit()`. -/
def exit (s : State) (p : ℕ) : Except Trouble (Option ℕ × State) :=
  if p = s.initproc then .error .initExiting
  else do
    let s ← (List.range NOFILE).foldlM (closeFile p) s
    return (none, s.setLife p .zombie)

/-! ### Runs -/

/-- The system calls. The last one is the part of `wait` and `thread_join` that frees the slot of
a child. -/
inductive Call
  | open (ip : Option ℕ) (omode : BitVec 32)
  | pipe (arg : Bool) (page : Option ℕ)
  | dup (fd : ℤ)
  | close (fd : ℤ)
  | fork (kstack copied : Bool)
  | threadCreate (kstack : Bool)
  | exit
  | reap (child : ℕ)

/-- The outcome of a call by process `p`. -/
def Call.run (s : State) (p : ℕ) : Call → Except Trouble (Option ℕ × State)
  | .open ip omode => sysOpen s p ip omode
  | .pipe arg page => sysPipe s p arg page
  | .dup fd => sysDup s p fd
  | .close fd => sysClose s p fd
  | .fork kstack copied => FileTable.fork s p kstack copied
  | .threadCreate kstack => FileTable.threadCreate s p kstack
  | .exit => FileTable.exit s p
  | .reap child =>
    if s.life child = .zombie then .ok (some child, s.setLife child .unused) else .ok (none, s)

/-- Calls are made by live processes, and `kalloc` returns pages that are not in use. -/
def Call.Pre (s : State) (p : ℕ) (c : Call) : Prop :=
  p < NPROC ∧ s.life p = .live ∧ ∀ arg q, c = .pipe arg (some q) → s.pipe q = none

/-- The state after `userinit`: one process without open files. -/
def boot (initproc : ℕ) : State where
  file _ := ⟨.none, 0, false, false, 0, 0, 0⟩
  ofile _ := none
  life p := if p = initproc then .live else .unused
  pipe _ := none
  initproc := initproc

/-- The runs of system calls. -/
def system : System State (ℕ × Call) where
  init s := ∃ initproc < NPROC, s = boot initproc
  step s l t := l.2.Pre s l.1 ∧ ∃ r, l.2.run s l.1 = .ok (r, t)

/-! ### The invariant -/

/-- The descriptors of all processes. -/
def slots : Finset (ℕ × ℕ) := Finset.range NPROC ×ˢ Finset.range NOFILE

theorem mem_slots {p fd : ℕ} : (p, fd) ∈ slots ↔ p < NPROC ∧ fd < NOFILE := by
  rw [slots, Finset.mem_product, Finset.mem_range, Finset.mem_range]

attribute [irreducible] slots

namespace State

/-- The number of descriptors that hold the entry `f`. -/
def count (s : State) (f : ℕ) : ℕ := RefCount.count slots s.ofile f

/-- The entry `f` is the write end (`w = true`) or the read end of the pipe `q`. -/
structure IsEnd (s : State) (f q : ℕ) (w : Bool) : Prop where
  lt : f < NFILE
  type : (s.file f).type = .pipe
  pipe : (s.file f).pipe = q
  writable : (s.file f).writable = w

/-- `writeopen` or `readopen` of the pipe `q`. -/
def isOpen (s : State) (q : ℕ) (w : Bool) : Bool := (s.pipe q).any (·.isOpen w)

/-- The flags of the pipes: an end is open exactly while there is an entry for it, there is at most
one, and the page is in use exactly while an end is open. -/
structure PipesOk (s : State) : Prop where
  flag : ∀ q w, s.isOpen q w = true ↔ ∃ f, s.IsEnd f q w
  uniq : ∀ f f' q w, s.IsEnd f q w → s.IsEnd f' q w → f = f'
  page : ∀ q, (s.pipe q).isSome = (s.isOpen q false || s.isOpen q true)

end State

/-- **The invariant**, in the middle of a call: the count of the entry `f` exceeds the number of
descriptors that hold it by `d f`. -/
structure Inv (s : State) (d : ℕ → ℤ) : Prop where
  ref : ∀ f < NFILE, (s.file f).ref = s.count f + d f
  none : ∀ f < NFILE, (s.file f).ref = 0 → (s.file f).type = .none
  slot : ∀ p fd f, s.ofile (p, fd) = some f → p < NPROC ∧ fd < NOFILE ∧ f < NFILE
  unused : ∀ p, s.life p ≠ .live → ∀ fd, s.ofile (p, fd) = Option.none
  pipes : s.PipesOk

section Basic

variable {s t : State} {d : ℕ → ℤ} {f p fd q : ℕ}

@[simp] theorem setFile_self (v : File) : (s.setFile f v).file f = v := update_self ..

theorem setFile_of_ne {g : ℕ} (h : g ≠ f) (v : File) : (s.setFile f v).file g = s.file g :=
  update_of_ne h _ _

/-- A descriptor that holds an entry counts. -/
theorem Inv.count_pos (h : Inv s d) (hfd : s.ofile (p, fd) = some f) : 0 < s.count f := by
  obtain ⟨hp, hlt, -⟩ := h.slot p fd f hfd
  have hmem : (p, fd) ∈ slots := mem_slots.mpr ⟨hp, hlt⟩
  exact RefCount.count_pos hmem hfd

/-- The pipes only depend on the types, pipes and modes of the entries. -/
theorem State.PipesOk.congr (h : s.PipesOk) (hpipe : t.pipe = s.pipe)
    (hend : ∀ f q w, t.IsEnd f q w ↔ s.IsEnd f q w) : t.PipesOk := by
  have hopen (q : ℕ) (w : Bool) : t.isOpen q w = s.isOpen q w := by rw [isOpen, hpipe]; rfl
  refine ⟨fun q w => ?_, fun f f' q w hf hf' => ?_, fun q => ?_⟩
  · rw [hopen, h.flag]
    simp only [hend]
  · exact h.uniq f f' q w ((hend ..).mp hf) ((hend ..).mp hf')
  · rw [hpipe, h.page, hopen, hopen]

variable {w : Bool}

/-- Whether a file is an end of a pipe depends on three of its fields. -/
theorem isEnd_congr (htype : (t.file f).type = (s.file f).type)
    (hpipe : (t.file f).pipe = (s.file f).pipe)
    (hwritable : (t.file f).writable = (s.file f).writable) : t.IsEnd f q w ↔ s.IsEnd f q w := by
  constructor <;> rintro ⟨h1, h2, h3, h4⟩
  · exact ⟨h1, htype ▸ h2, hpipe ▸ h3, hwritable ▸ h4⟩
  · exact ⟨h1, htype.trans h2, hpipe.trans h3, hwritable.trans h4⟩

theorem isEnd_iff (hf : f < NFILE) (htype : (s.file f).type = .pipe) :
    s.IsEnd f q w ↔ (s.file f).pipe = q ∧ (s.file f).writable = w :=
  ⟨fun h => ⟨h.pipe, h.writable⟩, fun h => ⟨hf, htype, h.1, h.2⟩⟩

theorem not_isEnd (htype : (s.file f).type = .none) : ¬ s.IsEnd f q w := by
  intro h
  rw [h.type] at htype
  cases htype

/-- Changing an entry that is no end of a pipe, before or after. -/
theorem isEnd_setFile {v : File} (hold : (s.file f).type ≠ .pipe) (hnew : v.type ≠ .pipe) (g q : ℕ)
    (w : Bool) : (s.setFile f v).IsEnd g q w ↔ s.IsEnd g q w := by
  by_cases hg : g = f
  · subst hg
    exact ⟨fun h => absurd (by simpa using h.type) hnew, fun h => absurd h.type hold⟩
  · apply isEnd_congr <;> rw [setFile_of_ne hg]

/-- Changing the count of an entry is no change to the pipes. -/
theorem isEnd_setRef (r : ℤ) (g q : ℕ) (w : Bool) :
    (s.setFile f { s.file f with ref := r }).IsEnd g q w ↔ s.IsEnd g q w := by
  by_cases hg : g = f
  · subst hg
    apply isEnd_congr <;> rw [setFile_self]
  · apply isEnd_congr <;> rw [setFile_of_ne hg]

/-- **Changing entries of the file table.** -/
theorem Inv.of_files (h : Inv s d) {e : ℕ → ℤ} (hofile : t.ofile = s.ofile)
    (hlife : t.life = s.life) (href : ∀ g < NFILE, (t.file g).ref = (s.file g).ref + e g)
    (hnone : ∀ g < NFILE, (t.file g).ref = 0 → (t.file g).type = .none) (hpipes : t.PipesOk) :
    Inv t (d + e) where
  ref g hg := by
    have hcount : t.count g = s.count g := by rw [State.count, hofile]; rfl
    rw [href g hg, h.ref g hg, hcount, Pi.add_apply, add_assoc]
  none := hnone
  slot p fd g hg := h.slot p fd g (hofile ▸ hg)
  unused p hp fd := by
    rw [hlife] at hp
    rw [hofile]
    exact h.unused p hp fd
  pipes := hpipes

/-- Changing one entry. -/
theorem Inv.setFile (h : Inv s d) {v : File} {x : ℤ} (hfile : t.file = update s.file f v)
    (hofile : t.ofile = s.ofile) (hlife : t.life = s.life) (href : v.ref = (s.file f).ref + x)
    (hnone : v.ref = 0 → v.type = .none) (hpipes : t.PipesOk) : Inv t (d + Pi.single f x) := by
  refine h.of_files hofile hlife (fun g _ => ?_) (fun g hg h0 => ?_) hpipes
  · rw [hfile, Pi.single_apply, update_apply]
    split_ifs with hgf
    · rw [hgf, href]
    · rw [add_zero]
  · rw [hfile] at h0 ⊢
    rw [update_apply] at h0 ⊢
    split_ifs at h0 ⊢ with hgf
    · exact hnone h0
    · exact h.none g hg h0

/-- Assigning the other fields of an entry in use that is no end of a pipe. -/
theorem Inv.assign (h : Inv s d) {v : File} (hold : (s.file f).type ≠ .pipe)
    (hnew : v.type ≠ .pipe) (href : v.ref = (s.file f).ref) (hpos : (s.file f).ref ≠ 0) :
    Inv (s.setFile f v) d := by
  have hset : Inv (s.setFile f v) (d + Pi.single f 0) :=
    h.setFile rfl rfl rfl (by rw [href, add_zero]) (fun h0 => absurd (href ▸ h0) hpos)
      (h.pipes.congr rfl (isEnd_setFile hold hnew))
  rwa [Pi.single_zero, add_zero] at hset

/-- Changing the count of an entry. -/
theorem Inv.setRef (h : Inv s d) {x : ℤ}
    (hx : (s.file f).ref + x = 0 → (s.file f).type = .none) :
    Inv (s.setFile f { s.file f with ref := (s.file f).ref + x }) (d + Pi.single f x) :=
  h.setFile rfl rfl rfl rfl hx (h.pipes.congr rfl (isEnd_setRef _))

/-- A change of one descriptor moves one reference. -/
theorem count_setOfile (hp : p < NPROC) (hfd : fd < NOFILE) (v : Option ℕ) (g : ℕ) :
    ((s.setOfile p fd v).count g : ℤ) + (if s.ofile (p, fd) = some g then 1 else 0) =
      s.count g + if v = some g then 1 else 0 := by
  have hmem : (p, fd) ∈ slots := mem_slots.mpr ⟨hp, hfd⟩
  have := RefCount.count_update (h := s.ofile) hmem v g
  have heq : RefCount.count slots (update s.ofile (p, fd) v) g =
      (s.setOfile p fd v).count g := rfl
  rw [heq] at this
  have hs : RefCount.count slots s.ofile g = s.count g := rfl
  rw [hs] at this
  split_ifs at this ⊢ <;> omega

/-- Giving a descriptor another entry, or none. -/
theorem Inv.setOfile (h : Inv s d) (hp : p < NPROC) (hfd : fd < NOFILE) {v : Option ℕ} {e : ℕ → ℤ}
    (he : ∀ g, e g = (if s.ofile (p, fd) = some g then 1 else 0) - if v = some g then 1 else 0)
    (hv : ∀ g, v = some g → g < NFILE ∧ s.life p = .live) : Inv (s.setOfile p fd v) (d + e) where
  ref g hg := by
    have hc := count_setOfile (s := s) hp hfd v g
    have hr := h.ref g hg
    rw [Pi.add_apply, he]
    change (s.file g).ref = _
    omega
  none := h.none
  slot p' fd' g hg := by
    by_cases heq : (p', fd') = (p, fd)
    · obtain ⟨rfl, rfl⟩ := Prod.mk.inj heq
      exact ⟨hp, hfd, (hv g (by simpa [State.setOfile] using hg)).1⟩
    · exact h.slot p' fd' g (by simpa [State.setOfile, update_of_ne heq] using hg)
  unused p' hp' fd' := by
    by_cases heq : (p', fd') = (p, fd)
    · obtain ⟨rfl, rfl⟩ := Prod.mk.inj heq
      refine (update_self ..).trans (Option.eq_none_iff_forall_ne_some.mpr fun g hg => ?_)
      exact hp' (hv g hg).2
    · simpa [State.setOfile, update_of_ne heq] using h.unused p' hp' fd'
  pipes := h.pipes.congr rfl fun _ _ _ => isEnd_congr rfl rfl rfl

/-- **Giving a free descriptor an entry.** -/
theorem Inv.hold (h : Inv s d) (hp : p < NPROC) (hfd : fd < NOFILE) (hf : f < NFILE)
    (hlive : s.life p = .live) (hfree : s.ofile (p, fd) = Option.none) :
    Inv (s.setOfile p fd (some f)) (d + Pi.single f (-1)) := by
  refine h.setOfile hp hfd (fun g => ?_) fun g hg => ?_
  · rw [hfree, if_neg (by simp), Pi.single_apply]
    simp only [Option.some.injEq, eq_comm (a := f)]
    split_ifs <;> rfl
  · exact ⟨Option.some.inj hg ▸ hf, hlive⟩

/-- **Clearing a descriptor.** -/
theorem Inv.drop (h : Inv s d) (hfd : s.ofile (p, fd) = some f) :
    Inv (s.setOfile p fd Option.none) (d + Pi.single f 1) := by
  obtain ⟨hp, hlt, -⟩ := h.slot p fd f hfd
  refine h.setOfile hp hlt (fun g => ?_) (by simp)
  rw [hfd, Pi.single_apply]
  simp [eq_comm (a := f)]

/-- A reference that is given back. -/
theorem add_single_cancel (d : ℕ → ℤ) (f : ℕ) (x : ℤ) :
    d + Pi.single f x + Pi.single f (-x) = d := by
  funext g
  simp only [Pi.add_apply, Pi.single_apply]
  split_ifs <;> omega

/-- A reference that is taken back. -/
theorem add_neg_single_cancel (d : ℕ → ℤ) (f : ℕ) (x : ℤ) :
    d + Pi.single f (-x) + Pi.single f x = d := by
  simpa only [neg_neg] using add_single_cancel d f (-x)

/-- Two references taken and given back. -/
theorem add_single_cancel₂ (d : ℕ → ℤ) (f g : ℕ) :
    d + Pi.single f 1 + Pi.single g 1 + Pi.single f (-1) + Pi.single g (-1) = d := by
  funext a
  simp only [Pi.add_apply, Pi.single_apply]
  split_ifs <;> omega

/-- The state of a process that holds no files does not matter. -/
theorem Inv.setLife (h : Inv s d) {v : Life}
    (hv : v ≠ .live → ∀ fd, s.ofile (p, fd) = Option.none) : Inv (s.setLife p v) d where
  ref := h.ref
  none := h.none
  slot := h.slot
  unused a ha fd := by
    simp only [State.setLife, update_apply] at ha
    split_ifs at ha with hap
    · exact hap ▸ hv ha fd
    · exact h.unused a ha fd
  pipes := h.pipes.congr rfl fun _ _ _ => isEnd_congr rfl rfl rfl

/-! ### `file.c` and `pipe.c` keep the invariant -/

/-- The file that `filealloc` finds is not in use. -/
theorem findFile_some (hfind : s.findFile = some f) : f < NFILE ∧ (s.file f).ref = 0 := by
  rw [State.findFile, List.find?_eq_some_iff_append] at hfind
  obtain ⟨hf, l, r, hl, -⟩ := hfind
  have hmem : f ∈ List.range NFILE := by
    rw [hl]
    simp
  exact ⟨List.mem_range.mp hmem, by simpa using hf⟩

/-- `filealloc` returns an entry of no type, with one reference. -/
theorem filealloc_cases (h : Inv s d) :
    filealloc s = (none, s) ∨ ∃ f t, filealloc s = (some f, t) ∧ f < NFILE ∧
      Inv t (d + Pi.single f 1) ∧ t = s.setFile f { s.file f with ref := 1 } ∧
      (s.file f).ref = 0 ∧ (s.file f).type = .none := by
  rw [filealloc]
  cases hfind : s.findFile with
  | none => exact Or.inl rfl
  | some f =>
    obtain ⟨hf, h0⟩ := findFile_some hfind
    refine Or.inr ⟨f, _, rfl, hf, ?_, rfl, h0, h.none f hf h0⟩
    have hset := h.setRef (f := f) (x := 1) (by omega)
    rwa [h0] at hset

/-- `filedup` of an entry with references. -/
theorem filedup_spec (h : Inv s d) (href : 1 ≤ (s.file f).ref) :
    ∃ t, filedup s f = .ok t ∧ Inv t (d + Pi.single f 1) ∧ t.ofile = s.ofile ∧
      t.life = s.life := by
  refine ⟨_, ?_, h.setRef (f := f) (x := 1) fun h0 => ?_, rfl, rfl⟩
  · rw [filedup, if_neg (by omega)]
  · omega

/-- The ends of a pipe after a change of one pipe. -/
theorem isOpen_setPipe (q' : ℕ) (w : Bool) (v : Option Ends) :
    (s.setPipe q v).isOpen q' w = if q' = q then v.any (·.isOpen w) else s.isOpen q' w := by
  change (update s.pipe q v q').any _ = _
  rw [update_apply]
  split_ifs <;> rfl

/-- What is left of the ends of a pipe when one is closed. -/
def Ends.rest (e : Ends) (w : Bool) : Option Ends :=
  if (e.close w).readopen = false ∧ (e.close w).writeopen = false then none else some (e.close w)

theorem isOpen_rest (e : Ends) (w w' : Bool) :
    (e.rest w).any (·.isOpen w') = if w' = w then false else e.isOpen w' := by
  obtain ⟨r, wr⟩ := e
  cases r <;> cases wr <;> cases w <;> cases w' <;> rfl

theorem isSome_rest (e : Ends) (w : Bool) :
    (e.rest w).isSome = ((e.rest w).any (·.isOpen false) || (e.rest w).any (·.isOpen true)) := by
  obtain ⟨r, wr⟩ := e
  cases r <;> cases wr <;> cases w <;> rfl

/-- `pipeclose` clears a flag, and the page goes with the second one. -/
theorem pipeclose_spec (hopen : s.isOpen q w = true) : ∃ v, pipeclose s q w = .ok (s.setPipe q v) ∧
      (∀ q' w', (s.setPipe q v).isOpen q' w' =
        if q' = q ∧ w' = w then false else s.isOpen q' w') ∧
      v.isSome = ((s.setPipe q v).isOpen q false || (s.setPipe q v).isOpen q true) := by
  obtain ⟨e, he⟩ : ∃ e, s.pipe q = some e := by
    cases hq : s.pipe q with
    | none => simp [State.isOpen, hq] at hopen
    | some e => exact ⟨e, rfl⟩
  refine ⟨e.rest w, ?_, fun q' w' => ?_, ?_⟩
  · rw [pipeclose, he, Ends.rest]
    simp only
    split_ifs <;> rfl
  · rw [isOpen_setPipe, isOpen_rest]
    have hs : s.isOpen q w' = e.isOpen w' := by rw [State.isOpen, he]; rfl
    by_cases hq : q' = q
    · simp only [hq, true_and, if_true, hs]
    · rw [if_neg hq, if_neg (by tauto)]
  · rw [isOpen_setPipe, isOpen_setPipe, if_pos rfl, if_pos rfl]
    exact isSome_rest e w

/-- The entry of an end is cleared and the end is closed. -/
theorem State.PipesOk.close (h : s.PipesOk) (hend : s.IsEnd f q w)
    (hends : ∀ g q' w', t.IsEnd g q' w' ↔ s.IsEnd g q' w' ∧ g ≠ f)
    (hflag : ∀ q' w', t.isOpen q' w' = if q' = q ∧ w' = w then false else s.isOpen q' w')
    (hpage : ∀ q', (t.pipe q').isSome = (t.isOpen q' false || t.isOpen q' true)) : t.PipesOk := by
  refine ⟨fun q' w' => ?_, fun g g' q' w' hg hg' => ?_, hpage⟩
  · rw [hflag]
    simp only [hends]
    by_cases hq : q' = q ∧ w' = w
    · obtain ⟨rfl, rfl⟩ := hq
      simp only [and_self, if_true, Bool.false_eq_true, false_iff]
      rintro ⟨g, hg, hne⟩
      exact hne (h.uniq g f _ _ hg hend)
    · rw [if_neg hq]
      refine (h.flag q' w').trans ⟨?_, fun ⟨g, hg, _⟩ => ⟨g, hg⟩⟩
      rintro ⟨g, hg⟩
      refine ⟨g, hg, ?_⟩
      rintro rfl
      exact hq ⟨hg.pipe.symm.trans hend.pipe, hg.writable.symm.trans hend.writable⟩
  · exact h.uniq g g' q' w' ((hends ..).mp hg).1 ((hends ..).mp hg').1

/-- **`fileclose`** of an entry with references. -/
theorem fileclose_spec (h : Inv s d) (hf : f < NFILE) (href : 1 ≤ (s.file f).ref) :
    ∃ t, fileclose s f = .ok t ∧ Inv t (d + Pi.single f (-1)) ∧ t.ofile = s.ofile ∧
      t.life = s.life ∧ t.initproc = s.initproc ∧ ∀ g, g ≠ f → t.file g = s.file g := by
  rw [fileclose, if_neg (by omega)]
  by_cases hmany : 1 < (s.file f).ref
  · rw [if_pos hmany]
    refine ⟨_, rfl, ?_, rfl, rfl, rfl, fun g hg => setFile_of_ne hg _⟩
    exact h.setRef (f := f) (x := -1) fun h0 => by omega
  have hone : (s.file f).ref = 1 := by omega
  rw [if_neg hmany]
  by_cases htype : (s.file f).type = .pipe
  · -- the last reference to an end of a pipe
    have hend : s.IsEnd f (s.file f).pipe (s.file f).writable := ⟨hf, htype, rfl, rfl⟩
    let u : State := s.setFile f { s.file f with ref := 0, type := .none }
    have hopen : u.isOpen (s.file f).pipe (s.file f).writable = true :=
      (h.pipes.flag _ _).mpr ⟨f, hend⟩
    obtain ⟨v, hrun, hflag, hpage⟩ := pipeclose_spec hopen
    refine ⟨_, (if_pos htype).trans hrun, ?_, rfl, rfl, rfl, fun g hg => setFile_of_ne hg _⟩
    refine h.setFile (v := { s.file f with ref := 0, type := .none }) (x := -1) rfl rfl rfl
      (by rw [hone]; rfl) (fun _ => rfl) ?_
    have hends (g q' : ℕ) (w' : Bool) :
        (u.setPipe (s.file f).pipe v).IsEnd g q' w' ↔ s.IsEnd g q' w' ∧ g ≠ f := by
      by_cases hgf : g = f
      · subst hgf
        refine ⟨fun hg => ?_, fun hg => absurd rfl hg.2⟩
        exact absurd hg (not_isEnd (congrArg File.type (setFile_self _)))
      · have hsame : (u.setPipe (s.file f).pipe v).file g = s.file g := setFile_of_ne hgf _
        rw [isEnd_congr (s := s) (by rw [hsame]) (by rw [hsame]) (by rw [hsame])]
        exact (and_iff_left hgf).symm
    refine h.pipes.close hend hends hflag fun q' => ?_
    by_cases hq : q' = (s.file f).pipe
    · subst hq
      rw [← hpage]
      exact congrArg Option.isSome (update_self ..)
    · rw [hflag, hflag, if_neg (by tauto), if_neg (by tauto)]
      exact (congrArg Option.isSome (update_of_ne hq _ _)).trans (h.pipes.page q')
  · refine ⟨_, if_neg htype, ?_, rfl, rfl, rfl, fun g hg => setFile_of_ne hg _⟩
    refine h.setFile (v := { s.file f with ref := 0, type := .none }) (x := -1) rfl rfl rfl
      (by rw [hone]; rfl) (fun _ => rfl) (h.pipes.congr rfl ?_)
    exact isEnd_setFile htype (by simp)

/-- The two ends of a new pipe. -/
theorem State.PipesOk.alloc (h : s.PipesOk) (f0 f1 : ℕ) (hnew : s.pipe q = Option.none)
    (hpipe : t.pipe = update s.pipe q (some ⟨true, true⟩))
    (hends : ∀ g q' w, t.IsEnd g q' w ↔
      s.IsEnd g q' w ∨ (q' = q ∧ g = if w then f1 else f0)) : t.PipesOk := by
  have hclosed (w : Bool) : s.isOpen q w = false := by rw [isOpen, hnew]; rfl
  have hnone (g : ℕ) (w : Bool) : ¬ s.IsEnd g q w := by
    intro hg
    have := (h.flag q w).mpr ⟨g, hg⟩
    rw [hclosed] at this
    cases this
  have hopen (q' : ℕ) (w : Bool) : t.isOpen q' w = if q' = q then true else s.isOpen q' w := by
    rw [isOpen, hpipe, update_apply]
    split_ifs
    · cases w <;> rfl
    · rfl
  refine ⟨fun q' w => ?_, fun g g' q' w hg hg' => ?_, fun q' => ?_⟩
  · rw [hopen]
    split_ifs with hq
    · simp only [true_iff]
      exact ⟨_, (hends ..).mpr (Or.inr ⟨hq, rfl⟩)⟩
    · rw [h.flag]
      simp only [hends, hq, false_and, or_false]
  · rw [hends] at hg hg'
    rcases hg with hg | ⟨rfl, rfl⟩
    · rcases hg' with hg' | ⟨rfl, rfl⟩
      · exact h.uniq g g' q' w hg hg'
      · exact absurd hg (hnone g w)
    · rcases hg' with hg' | ⟨-, rfl⟩
      · exact absurd hg' (hnone g' w)
      · rfl
  · rw [hopen, hopen, hpipe, update_apply]
    split_ifs
    · rfl
    · exact h.page q'

section NewPipe

variable {f0 f1 : ℕ} (hne : f0 ≠ f1)

theorem newPipe_file_of_ne {g : ℕ} (hg0 : g ≠ f0) (hg1 : g ≠ f1) :
    (s.newPipe f0 f1 q).file g = s.file g :=
  (setFile_of_ne hg1 _).trans (setFile_of_ne hg0 _)

include hne

/-- The second file of `pipealloc` is the write end. -/
theorem newPipe_file_write : (s.newPipe f0 f1 q).file f1 =
    { s.file f1 with type := .pipe, readable := false, writable := true, pipe := q } := by
  refine (setFile_self _).trans ?_
  rw [setFile_of_ne hne.symm]
  rfl

theorem newPipe_file_read : (s.newPipe f0 f1 q).file f0 =
    { s.file f0 with type := .pipe, readable := true, writable := false, pipe := q } :=
  (setFile_of_ne hne _).trans (setFile_self _)

/-- `pipealloc` leaves the counts that `filealloc` set. -/
theorem newPipe_ref (g : ℕ) : ((s.newPipe f0 f1 q).file g).ref = (s.file g).ref := by
  by_cases hg1 : g = f1
  · rw [hg1, newPipe_file_write hne]
  by_cases hg0 : g = f0
  · rw [hg0, newPipe_file_read hne]
  · rw [newPipe_file_of_ne hg0 hg1]

/-- **A new pipe** on a free page, for two entries of no type. -/
theorem Inv.newPipe (h : Inv s d) (hf0 : f0 < NFILE) (hf1 : f1 < NFILE)
    (href0 : (s.file f0).ref = 1) (href1 : (s.file f1).ref = 1)
    (htype0 : (s.file f0).type = .none) (htype1 : (s.file f1).type = .none)
    (hnew : s.pipe q = Option.none) : Inv (s.newPipe f0 f1 q) d := by
  have hpipes : (s.newPipe f0 f1 q).PipesOk := by
    refine h.pipes.alloc f0 f1 hnew rfl fun g q' w => ?_
    by_cases hg1 : g = f1
    · subst hg1
      rw [isEnd_iff hf1 (by rw [newPipe_file_write hne]), newPipe_file_write hne]
      simp only [not_isEnd htype1, false_or]
      cases w <;> simp [hne.symm, eq_comm]
    by_cases hg0 : g = f0
    · subst hg0
      rw [isEnd_iff hf0 (by rw [newPipe_file_read hne]), newPipe_file_read hne]
      simp only [not_isEnd htype0, false_or]
      cases w <;> simp [hne, eq_comm]
    · have hsame : (s.newPipe f0 f1 q).file g = s.file g := newPipe_file_of_ne hg0 hg1
      rw [isEnd_congr (s := s) (by rw [hsame]) (by rw [hsame]) (by rw [hsame])]
      cases w <;> simp [hg0, hg1]
  have hinv : Inv (s.newPipe f0 f1 q) (d + 0) := by
    refine h.of_files rfl rfl (fun g _ => ?_) (fun g hg hz => ?_) hpipes
    · rw [newPipe_ref hne, Pi.zero_apply, add_zero]
    · rw [newPipe_ref hne] at hz
      have hg1 : g ≠ f1 := by rintro rfl; omega
      have hg0 : g ≠ f0 := by rintro rfl; omega
      rw [newPipe_file_of_ne hg0 hg1]
      exact h.none g hg hz
  rwa [add_zero] at hinv

end NewPipe

/-- The entries that `pipealloc` returns: they have one reference each, and no descriptor. -/
structure PipeEnds (s t : State) (d : ℕ → ℤ) (f0 f1 : ℕ) : Prop where
  inv : Inv t (d + Pi.single f0 1 + Pi.single f1 1)
  ofile : t.ofile = s.ofile
  life : t.life = s.life
  lt0 : f0 < NFILE
  lt1 : f1 < NFILE
  ne : f0 ≠ f1
  ref0 : (t.file f0).ref = 1
  ref1 : (t.file f1).ref = 1

/-- Giving back two entries with one reference each. -/
theorem fileclose_both {f0 f1 : ℕ} (h : PipeEnds s t d f0 f1) :
    ∃ u v, fileclose t f0 = .ok u ∧ fileclose u f1 = .ok v ∧ Inv v d ∧ v.ofile = s.ofile ∧
      v.life = s.life := by
  obtain ⟨u, hclose, hinv, hofile, hlife, -, hother⟩ := fileclose_spec h.inv h.lt0 h.ref0.ge
  obtain ⟨v, hclose', hinv', hofile', hlife', -⟩ :=
    fileclose_spec hinv h.lt1 (by rw [hother f1 h.ne.symm, h.ref1])
  rw [add_single_cancel₂] at hinv'
  exact ⟨u, v, hclose, hclose', hinv', by rw [hofile', hofile, h.ofile],
    by rw [hlife', hlife, h.life]⟩

/-- **`pipealloc`**. -/
theorem pipealloc_spec (h : Inv s d) {page : Option ℕ}
    (hpage : ∀ q, page = some q → s.pipe q = none) :
    ∃ r t, pipealloc s page = .ok (r, t) ∧
      ((r = none ∧ Inv t d ∧ t.ofile = s.ofile ∧ t.life = s.life) ∨
        ∃ f0 f1, r = some (f0, f1) ∧ PipeEnds s t d f0 f1) := by
  rw [pipealloc]
  rcases filealloc_cases h with halloc | ⟨f0, s0, halloc, hf0, h0, hs0, href0, htype0⟩
  · rw [halloc]
    exact ⟨none, s, rfl, Or.inl ⟨rfl, h, rfl, rfl⟩⟩
  rw [halloc]
  have hone0 : (s0.file f0).ref = 1 := by rw [hs0, setFile_self]
  rcases filealloc_cases h0 with halloc1 | ⟨f1, s1, halloc1, hf1, h1, hs1, href1, htype1⟩
  · -- the first entry is given back
    obtain ⟨t, hclose, hinv, hofile, hlife, -⟩ := fileclose_spec h0 hf0 hone0.ge
    rw [add_single_cancel] at hinv
    refine ⟨none, t, ?_, Or.inl ⟨rfl, hinv, ?_, ?_⟩⟩
    · simp only [halloc1, hclose]
      rfl
    · rw [hofile, hs0]; rfl
    · rw [hlife, hs0]; rfl
  have hne : f0 ≠ f1 := by
    rintro rfl
    omega
  have hfile0 : s1.file f0 = s0.file f0 := by rw [hs1, setFile_of_ne hne]
  have hends : PipeEnds s s1 d f0 f1 :=
    ⟨h1, by rw [hs1, hs0]; rfl, by rw [hs1, hs0]; rfl, hf0, hf1, hne, by rw [hfile0, hone0],
      by rw [hs1, setFile_self]⟩
  cases page with
  | none =>
    -- both entries are given back
    obtain ⟨t, u, hclose, hclose', hinv, hofile, hlife⟩ := fileclose_both hends
    refine ⟨none, u, ?_, Or.inl ⟨rfl, hinv, hofile, hlife⟩⟩
    simp only [halloc1, hclose, hclose', bind, Except.bind]
    rfl
  | some q =>
    have htype0' : (s1.file f0).type = .none := by rw [hfile0, hs0, setFile_self, ← htype0]
    have htype1' : (s1.file f1).type = .none := by rw [hs1, setFile_self, ← htype1]
    have hnew : s1.pipe q = Option.none := by
      rw [hs1, hs0]
      exact hpage q rfl
    refine ⟨some (f0, f1), s1.newPipe f0 f1 q, ?_, Or.inr ⟨f0, f1, rfl, ?_⟩⟩
    · simp only [halloc1]
    · exact ⟨h1.newPipe hne hf0 hf1 hends.ref0 hends.ref1 htype0' htype1' hnew, hends.ofile,
        hends.life, hf0, hf1, hne, by rw [newPipe_ref hne, hends.ref0],
        by rw [newPipe_ref hne, hends.ref1]⟩

end Basic

/-! ### The system calls keep the invariant -/

section Calls

variable {s t : State} {d : ℕ → ℤ} {f p fd np : ℕ}

/-- An entry that a descriptor holds has a reference. -/
theorem Inv.one_le_ref (h : Inv s 0) (hfd : s.ofile (p, fd) = some f) : 1 ≤ (s.file f).ref := by
  have hpos := h.count_pos hfd
  have href := h.ref f (h.slot p fd f hfd).2.2
  rw [Pi.zero_apply] at href
  omega

/-- `argfd` returns an open file of the process. -/
theorem argfd_some {n : ℤ} (h : argfd s p n = some (fd, f)) : s.ofile (p, fd) = some f := by
  rw [argfd] at h
  split_ifs at h
  obtain ⟨g, hg, he⟩ := Option.map_eq_some_iff.mp h
  obtain ⟨rfl, rfl⟩ := Prod.mk.inj he
  exact hg

/-- `fdalloc` finds a free descriptor, or none. -/
theorem fdalloc_cases (h : Inv s d) (hp : p < NPROC) (hlive : s.life p = .live)
    (hf : f < NFILE) :
    fdalloc s p f = (none, s) ∨ ∃ fd t, fdalloc s p f = (some fd, t) ∧
      Inv t (d + Pi.single f (-1)) ∧ t = s.setOfile p fd (some f) ∧
      s.ofile (p, fd) = none := by
  rw [fdalloc]
  cases hfind : s.findFd p with
  | none => exact Or.inl rfl
  | some fd =>
    have hfree : s.ofile (p, fd) = none := by simpa using List.find?_some hfind
    have hlt : fd < NOFILE := List.mem_range.mp (List.mem_of_find?_eq_some hfind)
    exact Or.inr ⟨fd, _, rfl, h.hold hp hlt hf hlive hfree, rfl, hfree⟩

/-- `dup` returns and keeps the invariant. -/
theorem sysDup_spec (h : Inv s 0) (hp : p < NPROC) (hlive : s.life p = .live) (n : ℤ) :
    ∃ r t, sysDup s p n = .ok (r, t) ∧ Inv t 0 := by
  rw [sysDup]
  cases harg : argfd s p n with
  | none => exact ⟨none, s, rfl, h⟩
  | some x =>
    obtain ⟨fd, f⟩ := x
    have hfd := argfd_some harg
    rcases fdalloc_cases h hp hlive (h.slot p fd f hfd).2.2 with
      halloc | ⟨fd', u, halloc, hu, rfl, -⟩
    · simp only [halloc]
      exact ⟨none, s, rfl, h⟩
    · obtain ⟨t, hdup, ht, -⟩ := filedup_spec hu (h.one_le_ref hfd)
      refine ⟨some fd', t, ?_, ?_⟩
      · simp only [halloc, hdup]
        rfl
      · rwa [add_neg_single_cancel] at ht

/-- `close` returns and keeps the invariant. -/
theorem sysClose_spec (h : Inv s 0) (n : ℤ) : ∃ r t, sysClose s p n = .ok (r, t) ∧ Inv t 0 := by
  rw [sysClose]
  cases harg : argfd s p n with
  | none => exact ⟨none, s, rfl, h⟩
  | some x =>
    obtain ⟨fd, f⟩ := x
    have hfd := argfd_some harg
    obtain ⟨t, hclose, ht, -⟩ :=
      fileclose_spec (h.drop hfd) (h.slot p fd f hfd).2.2 (h.one_le_ref hfd)
    rw [add_single_cancel] at ht
    refine ⟨some 0, t, ?_, ht⟩
    simp only [hclose]
    rfl

/-- `open` returns and keeps the invariant, also where it gives up. -/
theorem sysOpen_spec (h : Inv s 0) (hp : p < NPROC) (hlive : s.life p = .live) (ip : Option ℕ)
    (omode : BitVec 32) : ∃ r t, sysOpen s p ip omode = .ok (r, t) ∧ Inv t 0 := by
  cases ip with
  | none => exact ⟨none, s, rfl, h⟩
  | some ip =>
    rw [sysOpen]
    rcases filealloc_cases h with halloc | ⟨f, u, halloc, hf, hu, rfl, -, htype⟩
    · simp only [halloc]
      exact ⟨none, s, rfl, h⟩
    simp only [halloc]
    rcases fdalloc_cases hu hp hlive hf with hfd | ⟨fd, v, hfd, hv, rfl, -⟩
    · -- no descriptor: the entry is given back
      obtain ⟨t, hclose, ht, -⟩ := fileclose_spec hu hf (by rw [setFile_self])
      rw [add_single_cancel] at ht
      refine ⟨none, t, ?_, ht⟩
      simp only [hfd, hclose]
      rfl
    · simp only [hfd]
      refine ⟨some fd, _, rfl, ?_⟩
      rw [add_single_cancel] at hv
      refine hv.assign ?_ (by simp) rfl ?_
      · change ((s.setFile f { s.file f with ref := 1 }).file f).type ≠ .pipe
        rw [setFile_self]
        simp [htype]
      · change ((s.setFile f { s.file f with ref := 1 }).file f).ref ≠ 0
        rw [setFile_self]
        exact one_ne_zero

/-- `pipe` returns and keeps the invariant, also where it gives up half way. -/
theorem sysPipe_spec (h : Inv s 0) (hp : p < NPROC) (hlive : s.life p = .live) (arg : Bool)
    {page : Option ℕ} (hpage : ∀ q, page = some q → s.pipe q = none) :
    ∃ r t, sysPipe s p arg page = .ok (r, t) ∧ Inv t 0 := by
  rw [sysPipe]
  cases arg with
  | false => exact ⟨none, s, rfl, h⟩
  | true =>
    obtain ⟨r, u, halloc, ⟨rfl, hu, -⟩ | ⟨rf, wf, rfl, hu⟩⟩ := pipealloc_spec h hpage
    · exact ⟨none, u, by rw [if_pos rfl, halloc]; rfl, hu⟩
    have hlive' : u.life p = .live := by rw [hu.life, hlive]
    rw [if_pos rfl, halloc]
    rcases fdalloc_cases hu.inv hp hlive' hu.lt0 with hfd | ⟨fd0, v, hfd, hv, rfl, hfree⟩
    · -- no descriptor for the read end
      obtain ⟨v, t, hclose, hclose', ht, -⟩ := fileclose_both hu
      refine ⟨none, t, ?_, ht⟩
      simp only [hfd, hclose, hclose', bind, Except.bind]
      rfl
    · rcases fdalloc_cases hv hp hlive' hu.lt1 with hfd' | ⟨fd1, w, hfd', hw, rfl, -⟩
      · -- no descriptor for the write end: the first one is cleared again
        have hslot : (u.setOfile p fd0 (some rf)).ofile (p, fd0) = some rf :=
          update_self ..
        have hdrop := hv.drop hslot
        have hends : PipeEnds s ((u.setOfile p fd0 (some rf)).setOfile p fd0 none) 0 rf wf := by
          refine ⟨?_, ?_, hu.life, hu.lt0, hu.lt1, hu.ne, hu.ref0, hu.ref1⟩
          · rwa [add_neg_single_cancel] at hdrop
          · change update (update u.ofile (p, fd0) (some rf)) (p, fd0) none =
              s.ofile
            rw [update_idem, ← hfree, update_eq_self, hu.ofile]
        obtain ⟨v, t, hclose, hclose', ht, -⟩ := fileclose_both hends
        refine ⟨none, t, ?_, ht⟩
        simp only [hfd, hfd', hclose, hclose', bind, Except.bind]
        rfl
      · rw [add_single_cancel₂] at hw
        refine ⟨some 0, (u.setOfile p fd0 (some rf)).setOfile p fd1 (some wf), ?_, hw⟩
        simp only [hfd, hfd', bind, Except.bind]
        rfl

/-! ### Processes -/

/-- The loop that copies the descriptors. -/
theorem copyFiles_spec (hnp : np < NPROC) (is : List ℕ) (hnodup : is.Nodup) (h : Inv s 0)
    (hlive : s.life np = .live) (his : ∀ i ∈ is, i < NOFILE ∧ s.ofile (np, i) = none) :
    ∃ t, is.foldlM (copyFile p np) s = .ok t ∧ Inv t 0 := by
  induction is generalizing s with
  | nil => exact ⟨s, rfl, h⟩
  | cons i is ih =>
    obtain ⟨hi, hfree⟩ := his i (List.mem_cons_self ..)
    obtain ⟨hni, hnodup⟩ := List.nodup_cons.mp hnodup
    have his' := fun j hj => his j (List.mem_cons_of_mem i hj)
    cases hp : s.ofile (p, i) with
    | none =>
      obtain ⟨t, hrun, ht⟩ := ih hnodup h hlive his'
      refine ⟨t, ?_, ht⟩
      rw [List.foldlM_cons, copyFile, hp]
      exact hrun
    | some f =>
      obtain ⟨u, hdup, hu, hofile, hlife⟩ := filedup_spec h (h.one_le_ref hp)
      have hold := hu.hold hnp hi (h.slot p i f hp).2.2 (hlife ▸ hlive) (hofile ▸ hfree)
      rw [add_single_cancel] at hold
      have hrest : ∀ j ∈ is, j < NOFILE ∧ (u.setOfile np i (some f)).ofile (np, j) = none := by
        intro j hj
        have hne : (np, j) ≠ (np, i) := by
          intro he
          obtain rfl : j = i := (Prod.mk.inj he).2
          exact hni hj
        refine ⟨(his' j hj).1, ?_⟩
        change update u.ofile (np, i) (some f) (np, j) = none
        rw [update_of_ne hne, hofile]
        exact (his' j hj).2
      obtain ⟨t, hrun, ht⟩ := ih hnodup hold (hlife ▸ hlive) hrest
      refine ⟨t, ?_, ht⟩
      rw [List.foldlM_cons, copyFile, hp]
      simp only [hdup, bind, Except.bind]
      exact hrun

/-- `allocproc` fails, or returns a slot without open files. -/
theorem allocproc_cases (h : Inv s 0) (kstack : Bool) :
    allocproc s kstack = (none, s) ∨ ∃ np t, allocproc s kstack = (some np, t) ∧ np < NPROC ∧
      Inv t 0 ∧ t = s.setLife np .live ∧ ∀ fd, s.ofile (np, fd) = none := by
  rw [allocproc]
  cases hfind : s.findProc with
  | none => exact Or.inl rfl
  | some np =>
    cases kstack with
    | false => exact Or.inl rfl
    | true =>
      have hunused : s.life np = .unused := by simpa using List.find?_some hfind
      have hlt : np < NPROC := List.mem_range.mp (List.mem_of_find?_eq_some hfind)
      exact Or.inr ⟨np, _, rfl, hlt, h.setLife (by simp), rfl,
        h.unused np (by rw [hunused]; decide)⟩

/-- The descriptors are copied to a new process. -/
theorem copyFiles_new (h : Inv s 0) (hnp : np < NPROC) (hnone : ∀ fd, s.ofile (np, fd) = none) :
    ∃ t, (List.range NOFILE).foldlM (copyFile p np) (s.setLife np .live) = .ok t ∧ Inv t 0 :=
  copyFiles_spec hnp _ List.nodup_range (h.setLife (by simp)) (update_self ..)
    fun i hi => ⟨List.mem_range.mp hi, hnone i⟩

/-- `fork` returns and keeps the invariant: the child's references are counted. -/
theorem fork_spec (h : Inv s 0) (kstack copied : Bool) :
    ∃ r t, fork s p kstack copied = .ok (r, t) ∧ Inv t 0 := by
  rw [fork]
  rcases allocproc_cases h kstack with halloc | ⟨np, u, halloc, hnp, hu, rfl, hnone⟩
  · rw [halloc]
    exact ⟨none, s, rfl, h⟩
  rw [halloc]
  cases copied with
  | false => exact ⟨none, _, rfl, hu.setLife fun _ => hnone⟩
  | true =>
    obtain ⟨t, hrun, ht⟩ := copyFiles_new (p := p) h hnp hnone
    refine ⟨some np, t, ?_, ht⟩
    simp only [if_true, hrun, bind, Except.bind]
    rfl

/-- `thread_create` returns and keeps the invariant, as `fork` does. -/
theorem threadCreate_spec (h : Inv s 0) (kstack : Bool) :
    ∃ r t, threadCreate s p kstack = .ok (r, t) ∧ Inv t 0 := by
  rw [threadCreate]
  rcases allocproc_cases h kstack with halloc | ⟨np, u, halloc, hnp, hu, rfl, hnone⟩
  · rw [halloc]
    exact ⟨none, s, rfl, h⟩
  obtain ⟨t, hrun, ht⟩ := copyFiles_new (p := p) h hnp hnone
  rw [halloc]
  refine ⟨some np, t, ?_, ht⟩
  simp only [hrun, bind, Except.bind]
  rfl

/-- The loop of `exit`. -/
theorem closeFiles_spec (is : List ℕ) (h : Inv s 0) :
    ∃ t, is.foldlM (closeFile p) s = .ok t ∧ Inv t 0 ∧
      ∀ i, i ∈ is ∨ s.ofile (p, i) = none → t.ofile (p, i) = none := by
  induction is generalizing s with
  | nil => exact ⟨s, rfl, h, fun i hi => hi.resolve_left (by simp)⟩
  | cons i is ih =>
    cases hfd : s.ofile (p, i) with
    | none =>
      obtain ⟨t, hrun, ht, hnone⟩ := ih h
      refine ⟨t, ?_, ht, fun j hj => hnone j ?_⟩
      · rw [List.foldlM_cons, closeFile, hfd]
        exact hrun
      · rcases hj with hj | hj
        · rcases List.mem_cons.mp hj with rfl | hj
          · exact Or.inr hfd
          · exact Or.inl hj
        · exact Or.inr hj
    | some f =>
      obtain ⟨u, hclose, hu, hofile, -⟩ :=
        fileclose_spec h (h.slot p i f hfd).2.2 (h.one_le_ref hfd)
      have hdrop : Inv (u.setOfile p i Option.none) _ := hu.drop (f := f) (by rw [hofile, hfd])
      rw [add_neg_single_cancel] at hdrop
      obtain ⟨t, hrun, ht, hnone⟩ := ih hdrop
      refine ⟨t, ?_, ht, fun j hj => hnone j ?_⟩
      · rw [List.foldlM_cons, closeFile, hfd]
        simp only [hclose, bind, Except.bind]
        exact hrun
      · by_cases hji : j = i
        · subst hji
          exact Or.inr (update_self ..)
        · rcases hj with hj | hj
          · exact Or.inl ((List.mem_cons.mp hj).resolve_left hji)
          · refine Or.inr ?_
            have hne : (p, j) ≠ (p, i) := fun he => hji (Prod.mk.inj he).2
            change update u.ofile (p, i) none (p, j) = none
            rw [update_of_ne hne, hofile, hj]

/-- `exit` closes all files of the process and keeps the invariant. -/
theorem exit_spec (h : Inv s 0) (hp : p ≠ s.initproc) :
    ∃ r t, exit s p = .ok (r, t) ∧ Inv t 0 := by
  obtain ⟨t, hrun, ht, hnone⟩ := closeFiles_spec (p := p) (List.range NOFILE) h
  refine ⟨none, t.setLife p .zombie, ?_, ht.setLife fun _ fd => ?_⟩
  · rw [exit, if_neg hp]
    simp only [hrun, bind, Except.bind]
    rfl
  · -- there are no descriptors past `NOFILE`
    cases hfd : t.ofile (p, fd) with
    | none => rfl
    | some f =>
      have hlt := (ht.slot p fd f hfd).2.1
      rw [hnone fd (Or.inl (List.mem_range.mpr hlt))] at hfd
      cases hfd

/-- **Every call returns and keeps the invariant**, except that `init` does not exit. -/
theorem inv_call {c : Call} (h : Inv s 0) (hpre : c.Pre s p) :
    (c = .exit ∧ p = s.initproc ∧ c.run s p = .error .initExiting) ∨
      ∃ r t, c.run s p = .ok (r, t) ∧ Inv t 0 := by
  obtain ⟨hp, hlive, hpage⟩ := hpre
  cases c with
  | «open» ip omode => exact Or.inr (sysOpen_spec h hp hlive ip omode)
  | pipe arg page =>
    exact Or.inr (sysPipe_spec h hp hlive arg fun q hq => hpage arg q (by rw [hq]))
  | dup fd => exact Or.inr (sysDup_spec h hp hlive fd)
  | close fd => exact Or.inr (sysClose_spec h fd)
  | fork kstack copied => exact Or.inr (fork_spec h kstack copied)
  | threadCreate kstack => exact Or.inr (threadCreate_spec h kstack)
  | exit =>
    by_cases hinit : p = s.initproc
    · exact Or.inl ⟨rfl, hinit, if_pos hinit⟩
    · exact Or.inr (exit_spec h hinit)
  | reap child =>
    refine Or.inr ?_
    rw [Call.run]
    split_ifs with hz
    · exact ⟨some child, _, rfl, h.setLife fun _ => h.unused child (by rw [hz]; decide)⟩
    · exact ⟨none, s, rfl, h⟩

end Calls

/-! ### Runs -/

/-- After boot there are no open files. -/
theorem inv_boot (initproc : ℕ) : Inv (boot initproc) 0 where
  ref f _ := by
    have : (boot initproc).count f = 0 := RefCount.count_eq_zero.mpr fun _ _ h => by cases h
    rw [this]
    rfl
  none _ _ _ := rfl
  slot _ _ _ h := by cases h
  unused _ _ _ := rfl
  pipes := by
    refine ⟨fun q w => ?_, fun f _ _ _ h _ => ?_, fun q => rfl⟩
    · refine ⟨fun h => ?_, ?_⟩
      · cases h
      · rintro ⟨f, hf⟩
        exact absurd hf (not_isEnd rfl)
    · exact absurd h (not_isEnd rfl)

/-- The counts fit the descriptors in every reachable state. -/
theorem inv_reachable {s : State} (h : system.Reachable s) : Inv s 0 := by
  refine h.invariant (I := fun s => Inv s 0) ?_ fun s l t hs hstep => ?_
  · rintro _ ⟨i, -, rfl⟩
    exact inv_boot i
  · obtain ⟨hpre, r, hrun⟩ := hstep
    rcases inv_call hs hpre with ⟨-, -, herr⟩ | ⟨r', t', hrun', ht'⟩
    · rw [herr] at hrun
      cases hrun
    · rw [hrun'] at hrun
      cases hrun
      exact ht'

/-- **The reference counts are right.** In every state of every run, the count of every entry of
the file table is the number of descriptors that hold it; an entry without references has no type
and no descriptor; the flags of a pipe tell which of its ends have an entry, and its page is in
use exactly while one of them is set; and no call panics in `filedup` or `fileclose` or works on a
page that is no pipe. -/
theorem files_counted {s : State} (h : system.Reachable s) :
    (∀ f < NFILE, (s.file f).ref = s.count f) ∧
    (∀ f < NFILE, (s.file f).ref = 0 →
      (s.file f).type = .none ∧ ∀ p fd, s.ofile (p, fd) ≠ some f) ∧
    (∀ q w, s.isOpen q w = true ↔ ∃ f, s.IsEnd f q w) ∧
    (∀ q, (s.pipe q).isSome = (s.isOpen q false || s.isOpen q true)) ∧
    ∀ p (c : Call), c.Pre s p → ∀ e, c.run s p = .error e → e = .initExiting := by
  have hinv := inv_reachable h
  have href (f : ℕ) (hf : f < NFILE) : (s.file f).ref = s.count f := by
    simpa using hinv.ref f hf
  refine ⟨href, fun f hf h0 => ⟨hinv.none f hf h0, fun p fd hfd => ?_⟩, hinv.pipes.flag,
    hinv.pipes.page, fun p c hpre e he => ?_⟩
  · have := hinv.one_le_ref hfd
    omega
  · rcases inv_call hinv hpre with ⟨-, -, herr⟩ | ⟨r, t, hrun, -⟩
    · rw [herr] at he
      cases he
      rfl
    · rw [hrun] at he
      cases he

/-- A process makes a pipe and forks: both have a descriptor for the read end. -/
theorem files_counted_fork : ∃ s, system.Reachable s ∧ s.ofile (0, 0) = some 0 ∧
    s.ofile (1, 0) = some 0 ∧ (s.file 0).ref = 2 ∧ (s.file 0).ref = s.count 0 := by
  obtain ⟨s, t, r, r', hpipe, hlive, hfork, h0, h1, href⟩ : ∃ s t r r',
      Call.run (boot 0) 0 (.pipe true (some 5)) = .ok (r, s) ∧ s.life 0 = .live ∧
      Call.run s 0 (.fork true true) = .ok (r', t) ∧ t.ofile (0, 0) = some 0 ∧
      t.ofile (1, 0) = some 0 ∧ (t.file 0).ref = 2 :=
    ⟨_, _, _, _, rfl, rfl, rfl, rfl, rfl, rfl⟩
  have hboot : system.Reachable (boot 0) := .init ⟨0, by decide, rfl⟩
  have hs : system.Reachable s :=
    hboot.step (l := (0, .pipe true (some 5))) ⟨⟨by decide, rfl, fun _ _ _ => rfl⟩, r, hpipe⟩
  have ht : system.Reachable t :=
    hs.step (l := (0, .fork true true))
      ⟨⟨by decide, hlive, fun _ _ h => by cases h⟩, r', hfork⟩
  exact ⟨t, ht, h0, h1, href, (files_counted ht).1 0 (by decide)⟩

end Xv6.FileTable
