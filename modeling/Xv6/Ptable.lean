import Mathlib.Data.List.FinRange
import Xv6.Transition

/-!
# The Process Table

The life of a process in `proc.c` and `exec.c`: `fork`, `thread_create`, `exit`, `wait`,
`thread_join`, `kill` and `exec` over the process table, run by any number of processes in
any order. Each critical section of `ptable.lock` is one step, and so is each stretch of
code between two of them; a process that sleeps inside `wait` or `thread_join` scans the
table again in the critical section in which it is resumed, as `sleep(proc, &ptable.lock)`
makes it do.

A page directory is an identity: zero is the null pointer and `setupkvm` returns a number
never used before. What the code does not record is kept apart as ghost state: a unique
number for every process ever allocated (`Birth.uid`), how it was made, the list of page
directories passed to `freevm`, and the history of creations, exits and reapings.

## Main definitions

* `Step`: what a process, the scheduler or `kill` can do to the table.
* `system`: the runs of the table from the state `userinit` leaves.
* `adopt_apply`: the loop by which `exit` passes its children to `init`, slot by slot.
-/

open Transition

namespace Xv6.Ptable

/-- `enum procstate` (`proc.h`). -/
inductive ProcState
  | unused
  | embryo
  | sleeping
  | runnable
  | running
  | zombie
  deriving DecidableEq, Repr

/-- What a process sleeps on: nothing, a slot of the process table, or some other kernel
object. -/
inductive Chan (n : ℕ)
  | null
  | proc (p : Fin n)
  | other (k : ℕ)
  deriving DecidableEq, Repr

/-- A pointer to a slot, used as a channel. -/
def Chan.ofPtr {n : ℕ} : Option (Fin n) → Chan n
  | none => .null
  | some p => .proc p

/-- The system call that makes a process. -/
inductive Maker
  | fork
  /-- `thread_create` with this `stack` argument -/
  | thread (stack : BitVec 32)
  deriving DecidableEq, Repr

/-- Where a process stands between two critical sections. -/
inductive Pc (n : ℕ)
  /-- in user code or in a system call that is not one of those below -/
  | user
  /-- `allocproc` has given slot `np` to `fork` or `thread_create` -/
  | alloced (m : Maker) (np : Fin n)
  /-- asleep in `wait` -/
  | inWait
  /-- asleep in `thread_join` -/
  | inJoin
  deriving DecidableEq, Repr

/-- `struct proc`, less the fields that these system calls do not read, with the control
state of the process. -/
structure Slot (n : ℕ) (κ : Type) where
  state : ProcState
  pid : BitVec 32
  parent : Option (Fin n)
  pgdir : ℕ
  chan : Chan n
  killed : Bool
  threadStackTop : BitVec 32
  pc : κ

/-- A process between two critical sections. -/
abbrev Proc (n : ℕ) := Slot n (Pc n)

/-- Ghost record of the process in a slot: its unique number, and how it was made (`none` for
`init`, and until its slot is filled in). -/
structure Birth where
  uid : ℕ
  maker : Option Maker

/-- A child taken off the table by `wait` or `thread_join`. -/
structure Reap (n : ℕ) where
  uid : ℕ
  /-- the process that called `wait` or `thread_join` -/
  reaper : Fin n
  /-- `p->parent` at that time -/
  parent : Option (Fin n)
  /-- the number returned -/
  id : BitVec 32
  /-- what `thread_join` stored in `*stack` -/
  stack : Option (BitVec 32)

/-- Ghost history of the table. -/
inductive Event (n : ℕ)
  | created (uid : ℕ) (pid : BitVec 32) (m : Maker)
  | exited (uid : ℕ)
  | reaped (r : Reap n)

/-- The process table and `nextpid`, with the ghost state. -/
structure State (n : ℕ) where
  proc : Fin n → Proc n
  nextpid : BitVec 32
  birth : Fin n → Birth
  nextUid : ℕ
  nextPgdir : ℕ
  /-- the arguments of `freevm`, latest first -/
  freed : List ℕ
  /-- latest first -/
  hist : List (Event n)

section Model

variable {n : ℕ}

/-- Change the process in slot `p`. -/
def State.set (s : State n) (p : Fin n) (f : Proc n → Proc n) : State n :=
  { s with proc := Function.update s.proc p (f (s.proc p)) }

/-- Change the ghost record of slot `p`. -/
def State.setBirth (s : State n) (p : Fin n) (f : Birth → Birth) : State n :=
  { s with birth := Function.update s.birth p (f (s.birth p)) }

@[simp] theorem State.set_proc (s : State n) (p q : Fin n) (f : Proc n → Proc n) :
    (s.set p f).proc q = if q = p then f (s.proc q) else s.proc q := by
  rcases eq_or_ne q p with rfl | h <;> simp [State.set, *]

@[simp] theorem State.setBirth_birth (s : State n) (p q : Fin n) (f : Birth → Birth) :
    (s.setBirth p f).birth q = if q = p then f (s.birth q) else s.birth q := by
  rcases eq_or_ne q p with rfl | h <;> simp [State.setBirth, *]

@[simp] theorem State.setBirth_proc (s : State n) (p : Fin n) (f : Birth → Birth) :
    (s.setBirth p f).proc = s.proc := rfl

@[simp] theorem State.set_birth (s : State n) (p : Fin n) (f : Proc n → Proc n) :
    (s.set p f).birth = s.birth := rfl

/-- Process `p` runs and is free to make a system call. -/
def State.Ready (s : State n) (p : Fin n) : Prop :=
  (s.proc p).state = .running ∧ (s.proc p).pc = .user

/-! ### The loops over the table

They do not depend on what the control state is.
-/

variable {κ : Type}

/-- `wakeup1(chan)`. -/
def wakeup1 (chan : Chan n) (t : Fin n → Slot n κ) : Fin n → Slot n κ := fun i =>
  if (t i).state = .sleeping ∧ (t i).chan = chan then { t i with state := .runnable } else t i

/-- The loop of `allocproc`: the first `UNUSED` slot. -/
def findUnused (t : Fin n → Slot n κ) : Option (Fin n) :=
  (List.finRange n).find? fun i => (t i).state = .unused

/-- The loop of `kill`: the first slot with this `pid`. -/
def findPid (t : Fin n → Slot n κ) (pid : BitVec 32) : Option (Fin n) :=
  (List.finRange n).find? fun i => (t i).pid = pid

/-- The body of the loop of `exit` that passes the children of `p` to `initproc`. -/
def adoptSlot (initproc p : Fin n) (t : Fin n → Slot n κ) (i : Fin n) : Fin n → Slot n κ :=
  if (t i).parent = some p then
    let t := Function.update t i { t i with parent := some initproc }
    if (t i).state = .zombie then wakeup1 (.proc initproc) t else t
  else t

/-- The loop of `exit` that passes the children of `p` to `initproc`. -/
def adopt (initproc p : Fin n) (t : Fin n → Slot n κ) : Fin n → Slot n κ :=
  (List.finRange n).foldl (adoptSlot initproc p) t

/-- Which slots a scan looks at: `wait` all children of `p`, `thread_join` those that share
its page directory. -/
def isKid (join : Bool) (t : Fin n → Slot n κ) (p i : Fin n) : Bool :=
  (t i).parent = some p ∧ (join → (t i).pgdir = (t p).pgdir)

/-- The zombie that a scan of `wait` or `thread_join` by `p` finds. -/
def findZombie (join : Bool) (t : Fin n → Slot n κ) (p : Fin n) : Option (Fin n) :=
  (List.finRange n).find? fun i => isKid join t p i ∧ (t i).state = .zombie

/-- `havekids`, when the scan finds no zombie. -/
def haveKids (join : Bool) (t : Fin n → Slot n κ) (p : Fin n) : Bool :=
  (List.finRange n).any fun i => isKid join t p i

/-- `wakeup1`, slot by slot. -/
theorem wakeup1_apply (chan : Chan n) (t : Fin n → Slot n κ) (i : Fin n) :
    wakeup1 chan t i = { t i with
      state := if (t i).state = .sleeping ∧ (t i).chan = chan then .runnable
        else (t i).state } := by
  unfold wakeup1
  split <;> rfl

/-- One round of the loop of `exit`, slot by slot. -/
theorem adoptSlot_apply (initproc p : Fin n) (t : Fin n → Slot n κ) (x i : Fin n) :
    adoptSlot initproc p t x i =
      { t i with
        parent := if i = x ∧ (t i).parent = some p then some initproc else (t i).parent
        state :=
          if ((t i).state = .sleeping ∧ (t i).chan = .proc initproc) ∧
              (t x).parent = some p ∧ (t x).state = .zombie then .runnable
          else (t i).state } := by
  unfold adoptSlot
  by_cases hx : (t x).parent = some p
  · by_cases hz : (t x).state = .zombie <;> rcases eq_or_ne i x with rfl | hi <;>
      simp_all [wakeup1_apply]
  · rcases eq_or_ne i x with rfl | hi <;> simp_all

variable {initproc p i : Fin n} {t : Fin n → Slot n κ} {join : Bool}

/-- The loop of `exit` over the slots in `l`: children are passed on, and `initproc` is woken
if one of them is a zombie. -/
theorem foldl_adoptSlot (hp : p ≠ initproc) (l : List (Fin n)) (t : Fin n → Slot n κ) (i : Fin n) :
    l.foldl (adoptSlot initproc p) t i =
      { t i with
        parent := if i ∈ l ∧ (t i).parent = some p then some initproc else (t i).parent
        state :=
          if ((t i).state = .sleeping ∧ (t i).chan = .proc initproc) ∧
              ∃ j ∈ l, (t j).parent = some p ∧ (t j).state = .zombie then .runnable
          else (t i).state } := by
  induction l generalizing t with
  | nil => simp
  | cons x l ih =>
    have hne : some initproc ≠ some p := by simpa using hp.symm
    rw [List.foldl_cons, ih]
    simp only [adoptSlot_apply, Slot.mk.injEq, List.mem_cons, true_and, and_true]
    refine ⟨?_, by grind⟩
    by_cases hz : (t x).parent = some p ∧ (t x).state = .zombie
    · have hex : ∃ j, (j = x ∨ j ∈ l) ∧ (t j).parent = some p ∧ (t j).state = .zombie :=
        ⟨x, Or.inl rfl, hz⟩
      simp only [hz, hex, and_true]
      split <;> simp_all
    · have hex : (∃ j, (j = x ∨ j ∈ l) ∧ (t j).parent = some p ∧ (t j).state = .zombie) ↔
          ∃ j ∈ l, (if j = x ∧ (t j).parent = some p then some initproc else (t j).parent) =
            some p ∧ (t j).state = .zombie := by
        constructor
        · rintro ⟨j, rfl | hj, hjp, hjz⟩
          · exact absurd ⟨hjp, hjz⟩ hz
          · exact ⟨j, hj, by rw [if_neg (by rintro ⟨rfl, -⟩; exact hz ⟨hjp, hjz⟩)]; exact hjp, hjz⟩
        · rintro ⟨j, hj, hjp, hjz⟩
          split at hjp
          · exact absurd hjp hne
          · exact ⟨j, Or.inr hj, hjp, hjz⟩
      simp only [hz, hex, and_false, if_false]

/-- **The loop of `exit`**, slot by slot: the children of `p` become children of `initproc`,
which is woken from `wait` if one of them is a zombie. -/
theorem adopt_apply (hp : p ≠ initproc) (t : Fin n → Slot n κ) (i : Fin n) : adopt initproc p t i =
      { t i with
        parent := if (t i).parent = some p then some initproc else (t i).parent
        state :=
          if ((t i).state = .sleeping ∧ (t i).chan = .proc initproc) ∧
              ∃ j, (t j).parent = some p ∧ (t j).state = .zombie then .runnable
          else (t i).state } := by
  simp [adopt, foldl_adoptSlot hp]

/-- Whatever process exits, the loop of `exit` only wakes processes up. -/
theorem foldl_adoptSlot_woken (l : List (Fin n)) (t : Fin n → Slot n κ) :
    (l.foldl (adoptSlot initproc p) t i).pc = (t i).pc ∧
      ((l.foldl (adoptSlot initproc p) t i).state = (t i).state ∨
        (t i).state = .sleeping ∧ (l.foldl (adoptSlot initproc p) t i).state = .runnable) := by
  induction l generalizing t with
  | nil => exact ⟨rfl, Or.inl rfl⟩
  | cons x l ih =>
    rw [List.foldl_cons]
    obtain ⟨hpc, hstate⟩ := ih (adoptSlot initproc p t x)
    simp only [adoptSlot_apply initproc p t x i] at hpc hstate
    refine ⟨hpc, ?_⟩
    split_ifs at hstate with hwoken
    · exact Or.inr ⟨hwoken.1.1, hstate.resolve_right nofun⟩
    · exact hstate

theorem findUnused_spec (h : findUnused t = some i) : (t i).state = .unused := by
  simpa using List.find?_some h

theorem isKid_iff :
    isKid join t p i ↔ (t i).parent = some p ∧ (join → (t i).pgdir = (t p).pgdir) := by
  simp only [isKid, decide_eq_true_eq]

/-- What a scan finds. -/
theorem findZombie_spec {c : Fin n} (h : findZombie join t p = some c) :
    (t c).parent = some p ∧ (join → (t c).pgdir = (t p).pgdir) ∧ (t c).state = .zombie := by
  have hc := List.find?_some h
  simp only [decide_eq_true_eq, isKid_iff] at hc
  exact ⟨hc.1.1, hc.1.2, hc.2⟩

/-- What a scan that finds nothing has seen. -/
theorem findZombie_none (h : findZombie join t p = none) (c : Fin n) (hc : (t c).parent = some p)
    (hpg : join → (t c).pgdir = (t p).pgdir) : (t c).state ≠ .zombie := by
  have := List.find?_eq_none.mp h c (List.mem_finRange c)
  simp only [decide_eq_true_eq, isKid_iff] at this
  exact fun hz => this ⟨⟨hc, hpg⟩, hz⟩

/-! ### The critical sections -/

/-- `allocproc` called by `p` from `fork` or `thread_create`, up to `release`. -/
def State.allocproc (s : State n) (p np : Fin n) (m : Maker) : State n :=
  { ((s.set np fun q => { q with state := .embryo, pid := s.nextpid }).set p
      fun q => { q with pc := .alloced m np }).setBirth np fun _ => ⟨s.nextUid, none⟩ with
    nextpid := s.nextpid + 1
    nextUid := s.nextUid + 1 }

/-- The common end of `fork` and `thread_create` by `p`: fill in the slot `np` and make it
runnable. -/
def State.create (s : State n) (p np : Fin n) (m : Maker) (f : Proc n → Proc n) : State n :=
  { ((s.set np fun q => { f q with parent := some p, state := .runnable }).set p
      fun q => { q with pc := .user }).setBirth np fun b => { b with maker := some m } with
    hist := .created (s.birth np).uid (s.proc np).pid m :: s.hist }

/-- `fork` after `allocproc`: the child gets the page directory that `copyuvm` made. -/
def State.fork (s : State n) (p np : Fin n) : State n :=
  { s.create p np .fork fun q => { q with pgdir := s.nextPgdir } with
    nextPgdir := s.nextPgdir + 1 }

/-- `thread_create` after `allocproc`: the thread shares the page directory of its maker. -/
def State.threadCreate (s : State n) (p np : Fin n) (stack : BitVec 32) : State n :=
  s.create p np (.thread stack) fun q =>
    { q with pgdir := (s.proc p).pgdir, threadStackTop := stack }

/-- `fork` and `thread_create` give up: the slot is free again. -/
def State.giveUp (s : State n) (p np : Fin n) (f : Proc n → Proc n) : State n :=
  (s.set np fun q => { f q with state := .unused }).set p fun q => { q with pc := .user }

/-- The critical section of `exit`. -/
def State.exit (s : State n) (initproc p : Fin n) : State n :=
  { s with
    proc := Function.update (adopt initproc p (wakeup1 (.ofPtr (s.proc p).parent) s.proc)) p
      { adopt initproc p (wakeup1 (.ofPtr (s.proc p).parent) s.proc) p with state := .zombie }
    hist := .exited (s.birth p).uid :: s.hist }

/-- A scan of `wait` or `thread_join` by `p` takes the zombie `c` off the table; only `wait`
frees its page directory, and only `thread_join` stores to `*stack`. -/
def State.reap (s : State n) (join : Bool) (p c : Fin n) : State n :=
  { (s.set c fun q => { q with state := .unused, pid := 0, parent := none, killed := false }).set
      p fun q => { q with state := .running, chan := .null, pc := .user } with
    freed := if join then s.freed else (s.proc c).pgdir :: s.freed
    hist := .reaped
      { uid := (s.birth c).uid, reaper := p, parent := (s.proc c).parent, id := (s.proc c).pid,
        stack := if join then some (s.proc c).threadStackTop else none } :: s.hist }

/-- A scan that finds no zombie: `-1` without children or when killed, `sleep` otherwise. -/
def State.noZombie (s : State n) (join : Bool) (p : Fin n) : State n :=
  s.set p fun q =>
    if ¬ haveKids join s.proc p ∨ q.killed then
      { q with state := .running, chan := .null, pc := .user }
    else
      { q with state := .sleeping, chan := .proc p, pc := if join then .inJoin else .inWait }

/-- Process `p` is about to scan for zombies: at the call of `wait` or `thread_join`, or
resumed by the scheduler inside it. -/
def State.Scans (s : State n) (join : Bool) (p : Fin n) : Prop :=
  s.Ready p ∨
    ((s.proc p).state = .runnable ∧ (s.proc p).pc = if join then .inJoin else .inWait)

/-- `exec` by `p` commits to the new image and frees the old one. -/
def State.exec (s : State n) (p : Fin n) : State n :=
  { s.set p fun q => { q with pgdir := s.nextPgdir } with
    nextPgdir := s.nextPgdir + 1
    freed := (s.proc p).pgdir :: s.freed }

/-- A page directory is made and given up again, without ever being in the table. -/
def State.discard (s : State n) : State n :=
  { s with nextPgdir := s.nextPgdir + 1, freed := s.nextPgdir :: s.freed }

/-- Labels of the steps that later results speak about. -/
inductive Act (n : ℕ)
  | exit (p : Fin n)
  /-- a scan of `wait` by `p` that reaps `c` -/
  | wait (p c : Fin n)
  | exec (p : Fin n)
  | other

/-- The slot that `freevm` is called for: the one being reaped in `wait`, or replaced in
`exec`. -/
def Act.freesOf : Act n → Option (Fin n)
  | .wait _ c => some c
  | .exec p => some p
  | _ => none

/-- The label of a scan that reaps `c`. -/
def Act.reap (join : Bool) (p c : Fin n) : Act n :=
  if join then .other else .wait p c

/-- The steps of the process table. -/
inductive Step (initproc : Fin n) : State n → Act n → State n → Prop
  | allocproc {s p np m} : s.Ready p → findUnused s.proc = some np →
      Step initproc s .other (s.allocproc p np m)
  /-- `kalloc` fails in `allocproc` -/
  | noStack {s p np m} : (s.proc p).state = .running → (s.proc p).pc = .alloced m np →
      Step initproc s .other (s.giveUp p np id)
  /-- `copyuvm` fails in `setupkvm` and returns null -/
  | noPgdir {s p np} : (s.proc p).state = .running → (s.proc p).pc = .alloced .fork np →
      Step initproc s .other (s.giveUp p np fun q => { q with pgdir := 0 })
  /-- `copyuvm` fails half way, frees what it made and returns null -/
  | noMemory {s p np} : (s.proc p).state = .running → (s.proc p).pc = .alloced .fork np →
      Step initproc s .other (s.giveUp p np fun q => { q with pgdir := 0 }).discard
  | fork {s p np} : (s.proc p).state = .running → (s.proc p).pc = .alloced .fork np →
      Step initproc s .other (s.fork p np)
  | threadCreate {s p np stack} : (s.proc p).state = .running →
      (s.proc p).pc = .alloced (.thread stack) np →
      Step initproc s .other (s.threadCreate p np stack)
  | exit {s p} : s.Ready p → p ≠ initproc →
      Step initproc s (.exit p) (s.exit initproc p)
  | reap {s join p c} : s.Scans join p → findZombie join s.proc p = some c →
      Step initproc s (.reap join p c) (s.reap join p c)
  | noZombie {s join p} : s.Scans join p → findZombie join s.proc p = none →
      Step initproc s .other (s.noZombie join p)
  | exec {s p} : s.Ready p → Step initproc s (.exec p) (s.exec p)
  /-- `exec` fails after `setupkvm` -/
  | execFail {s p} : s.Ready p → Step initproc s .other s.discard
  | kill {s pid p} : findPid s.proc pid = some p →
      Step initproc s .other
        (s.set p fun q =>
          { q with killed := true
                   state := if q.state = .sleeping then .runnable else q.state })
  /-- the scheduler switches to a process outside `wait` and `thread_join` -/
  | schedule {s p} : (s.proc p).state = .runnable → (s.proc p).pc ≠ .inWait →
      (s.proc p).pc ≠ .inJoin →
      Step initproc s .other (s.set p fun q => { q with state := .running, chan := .null })
  | yield {s p} : (s.proc p).state = .running →
      Step initproc s .other (s.set p fun q => { q with state := .runnable })
  /-- `sleep` outside `wait` and `thread_join` -/
  | sleep {s p k} : (s.proc p).state = .running →
      Step initproc s .other
        (s.set p fun q => { q with state := .sleeping, chan := .other k })
  | wakeup {s k} : Step initproc s .other { s with proc := wakeup1 (.other k) s.proc }

/-- The state that `userinit` leaves: `init` is runnable and every other slot is free. -/
def initState (initproc : Fin n) : State n where
  proc p :=
    if p = initproc then ⟨.runnable, 1, none, 1, .null, false, 0, .user⟩
    else ⟨.unused, 0, none, 0, .null, false, 0, .user⟩
  nextpid := 2
  birth _ := ⟨0, none⟩
  nextUid := 1
  nextPgdir := 2
  freed := []
  hist := []

/-- The transition system of the process table. -/
def system (initproc : Fin n) : System (State n) (Act n) where
  init s := s = initState initproc
  step := Step initproc

end Model

end Xv6.Ptable
