import Mathlib
import Xv6.Ptable

/-!
# The Scheduler

Any number of CPUs run `scheduler` over the process table, and the processes they switch to call
`yield`, `sleep`, `exit`, `wait`, `thread_join`, `kill`, `fork` and `thread_create` or take
interrupts whose handlers call `wakeup`. Every operation on `ptable.lock`, every assignment to the
current process of a CPU, every assignment to the state of a process by `scheduler` and every
`swtch` is a step of its own; the body of a critical section of a system call is one step.

`ptable.lock` is held by a CPU, as the code records it. A critical section that begins in a process
ends in the scheduler of the CPU after `sched`, and one that begins in the scheduler ends in the
process it has switched to. A process that has been switched out is at a point `Pc.off`, where its
saved context is; it can be switched to only there. The slots of the table and the loops over them
are those of `Xv6.Ptable`.

## Main definitions

* `Pc`, `Sched`: where a process and the scheduler of a CPU stand.
* `State.next`: what a CPU does next.

## Main results

* `inv_next`: the invariant is preserved by every step.
* `single_execution`: **a process is executed by at most one CPU**, which is the one that has it as
  its current process.
-/

open Transition Transition.System
open Function (update update_apply update_of_ne update_self)

namespace Xv6.Scheduler

open Ptable (ProcState Chan Maker Slot)

/-- The body of a critical section of `ptable.lock` in a process. -/
inductive Crit (n : ℕ)
  | yield
  | sleep (chan : Chan n)
  | exit
  | wakeup (chan : Chan n)
  | kill (pid : BitVec 32)
  /-- `wait`, or `thread_join` -/
  | wait (join : Bool)
  /-- the first part of `allocproc`, for `fork` or `thread_create` -/
  | alloc (m : Maker)
  deriving DecidableEq, Repr

/-- The critical sections that interrupt handlers enter: `yield` on a timer interrupt, and
`wakeup`. -/
def Crit.isInterrupt {n : ℕ} : Crit n → Bool
  | .yield | .wakeup _ => true
  | _ => false

/-- Where a process goes on when it is switched to. -/
inductive Resume
  /-- `yield`, after `sched()` -/
  | yield
  /-- `sleep`, after `sched()` -/
  | sleep
  /-- `sleep` called by `wait` or `thread_join`, after `sched()` -/
  | waitSleep (join : Bool)
  /-- `exit`, after `sched()` -/
  | exit
  /-- `forkret`: a process that has never run -/
  | forkret
  deriving DecidableEq, Repr

/-- The next action of a process. -/
inductive Pc (n : ℕ)
  /-- in user code, or in kernel code without `ptable.lock` -/
  | user
  /-- `acquire(&ptable.lock)` -/
  | acquire (k : Crit n)
  /-- the body of a critical section -/
  | crit (k : Crit n)
  /-- `sched()`: `swtch(&proc->context, cpu->scheduler)` -/
  | sched (r : Resume)
  /-- switched out -/
  | off (r : Resume)
  /-- switched to -/
  | resumed (r : Resume)
  /-- `release(&ptable.lock)` -/
  | release
  deriving DecidableEq, Repr

/-- A slot that `allocproc` has given to `fork` or `thread_create`, with or without a stack. -/
structure Job (n : ℕ) where
  np : Fin n
  maker : Maker
  stacked : Bool
  deriving DecidableEq, Repr

/-- A slot of the process table, with the next action of the process. -/
structure Proc (n : ℕ) extends Slot n (Pc n) where
  /-- the kernel stack has been allocated -/
  kstack : Bool
  /-- the process is in `fork` or `thread_create` -/
  job : Option (Job n)

/-- Where the scheduler of a CPU stands. -/
inductive Sched (n : ℕ)
  /-- `acquire(&ptable.lock)` is next -/
  | idle
  /-- the loop has reached slot `i` -/
  | scan (i : ℕ)
  /-- `p->state = RUNNING` is next -/
  | chosen (p : Fin n)
  /-- `swtch(&cpu->scheduler, proc->context)` is next -/
  | switch (p : Fin n)
  /-- the CPU executes process `p` -/
  | running (p : Fin n)
  /-- process `p` has switched back: `proc = 0` is next -/
  | back (p : Fin n)
  /-- an interrupt handler calls `wakeup`: `acquire(&ptable.lock)` -/
  | intrAcquire (chan : Chan n)
  /-- `wakeup1(chan)` -/
  | intrWakeup (chan : Chan n)
  /-- `release(&ptable.lock)` -/
  | intrRelease
  deriving DecidableEq, Repr

/-- A state of `n` slots of the process table and `m` CPUs. -/
structure State (n m : ℕ) where
  proc : Fin n → Proc n
  /-- `proc` of each CPU -/
  cur : Fin m → Option (Fin n)
  sched : Fin m → Sched n
  /-- the CPU that holds `ptable.lock` -/
  lock : Option (Fin m)
  nextpid : BitVec 32
  initproc : Fin n

section Model

variable {n m : ℕ}

namespace State

/-- Change a slot. -/
def setProc (s : State n m) (p : Fin n) (v : Proc n) : State n m :=
  { s with proc := update s.proc p v }

/-- Process `p` goes on at `k`. -/
def setPc (s : State n m) (p : Fin n) (k : Pc n) : State n m :=
  s.setProc p { s.proc p with pc := k }

/-- The scheduler of CPU `c` goes on at `k`. -/
def setSched (s : State n m) (c : Fin m) (k : Sched n) : State n m :=
  { s with sched := update s.sched c k }

/-- `proc = v` on CPU `c`. -/
def setCur (s : State n m) (c : Fin m) (v : Option (Fin n)) : State n m :=
  { s with cur := update s.cur c v }

/-- The process table, as its loops see it. -/
def slots (s : State n m) (q : Fin n) : Slot n (Pc n) := (s.proc q).toSlot

/-- A loop over the process table has been executed. -/
def setSlots (s : State n m) (t : Fin n → Slot n (Pc n)) : State n m :=
  { s with proc := fun q => { s.proc q with toSlot := t q } }

/-- `wakeup1(chan)`. -/
def wakeup1 (s : State n m) (chan : Chan n) : State n m :=
  s.setSlots (Ptable.wakeup1 chan s.slots)

/-- The loop of `exit` that passes the children of `p` to `init`. -/
def adopt (s : State n m) (p : Fin n) : State n m :=
  s.setSlots (Ptable.adopt s.initproc p s.slots)

/-- `wait` and `thread_join` free the slot of a child. -/
def reap (s : State n m) (q : Fin n) : State n m :=
  s.setProc q { s.proc q with
    kstack := false, state := .unused, pid := 0, parent := none, killed := false }

/-- The body of `kill` for slot `q`. -/
def killSlot (s : State n m) (q : Fin n) : State n m :=
  s.setProc q { s.proc q with
    killed := true
    state := if (s.proc q).state = .sleeping then .runnable else (s.proc q).state }

/-- The body of a critical section of process `p`. -/
def critStep (s : State n m) (p : Fin n) : Crit n → State n m
  | .yield => s.setProc p { s.proc p with state := .runnable, pc := .sched .yield }
  | .sleep chan =>
    s.setProc p { s.proc p with chan := chan, state := .sleeping, pc := .sched .sleep }
  | .exit =>
    let s := (s.wakeup1 (Chan.ofPtr (s.proc p).parent)).adopt p
    s.setProc p { s.proc p with state := .zombie, pc := .sched .exit }
  | .wakeup chan => (s.wakeup1 chan).setPc p .release
  | .kill pid =>
    match Ptable.findPid s.slots pid with
    | some q => (s.killSlot q).setPc p .release
    | none => s.setPc p .release
  | .wait join =>
    match Ptable.findZombie join s.slots p with
    | some q => (s.reap q).setPc p .release
    | none =>
      if ¬ Ptable.haveKids join s.slots p ∨ (s.proc p).killed then s.setPc p .release
      else
        s.setProc p { s.proc p with
          chan := .proc p, state := .sleeping, pc := .sched (.waitSleep join) }
  | .alloc m =>
    match Ptable.findUnused s.slots with
    | some np =>
      let s := s.setProc np { s.proc np with state := .embryo, pid := s.nextpid }
      { s with nextpid := s.nextpid + 1 }.setProc p
        { s.proc p with pc := .release, job := some ⟨np, m, false⟩ }
    | none => s.setPc p .release

/-- What process `p` on CPU `c` does next. It is `none` when the code panics, when the lock is
not free, and where the choice is not the process's. -/
def procStep (s : State n m) (c : Fin m) (p : Fin n) : Option (State n m) :=
  match (s.proc p).pc with
  | .user | .off _ => none
  | .acquire k =>
    if s.lock = none then some ({ s with lock := some c }.setPc p (.crit k)) else none
  | .crit k => some (s.critStep p k)
  | .sched r =>
    -- `sched` panics unless the CPU holds the lock and the state has been changed
    if s.lock = some c ∧ (s.proc p).state ≠ .running then
      some ((s.setPc p (.off r)).setSched c (.back p))
    else none
  | .resumed r =>
    match r with
    | .yield | .forkret => some (s.setPc p .release)
    | .sleep => some (s.setProc p { s.proc p with chan := .null, pc := .release })
    | .waitSleep join =>
      some (s.setProc p { s.proc p with chan := .null, pc := .crit (.wait join) })
    | .exit => none
  | .release =>
    if s.lock = some c then some ({ s with lock := none }.setPc p .user) else none

/-- What CPU `c` does next. -/
def go (s : State n m) (c : Fin m) : Option (State n m) :=
  match s.sched c with
  | .idle => if s.lock = none then some ({ s with lock := some c }.setSched c (.scan 0)) else none
  | .scan i =>
    if h : i < n then
      if (s.proc ⟨i, h⟩).state = .runnable then
        some ((s.setCur c (some ⟨i, h⟩)).setSched c (.chosen ⟨i, h⟩))
      else some (s.setSched c (.scan (i + 1)))
    else if s.lock = some c then some ({ s with lock := none }.setSched c .idle)
    else none
  | .chosen p =>
    some ((s.setProc p { s.proc p with state := .running }).setSched c (.switch p))
  | .switch p =>
    match (s.proc p).pc with
    | .off r => some ((s.setPc p (.resumed r)).setSched c (.running p))
    | _ => none
  | .running p => s.procStep c p
  | .back p => some ((s.setCur c none).setSched c (.scan (p + 1)))
  | .intrAcquire chan =>
    if s.lock = none then some ({ s with lock := some c }.setSched c (.intrWakeup chan))
    else none
  | .intrWakeup chan => some ((s.wakeup1 chan).setSched c .intrRelease)
  | .intrRelease =>
    if s.lock = some c then some ({ s with lock := none }.setSched c .idle) else none

/-- The process on CPU `c` starts a system call or takes an interrupt. In `fork` and
`thread_create` it can only be interrupted; `init` does not exit. -/
def start (s : State n m) (c : Fin m) (k : Crit n) : Option (State n m) :=
  match s.sched c with
  | .running p =>
    if (s.proc p).pc = .user ∧ (k.isInterrupt ∨ (s.proc p).job = none) ∧
        ¬ (k = .exit ∧ p = s.initproc) then
      some (s.setPc p (.acquire k))
    else none
  | _ => none

/-- `allocproc` after its critical section, when `kalloc` returns a page or not. -/
def stack (s : State n m) (c : Fin m) (ok : Bool) : Option (State n m) :=
  match s.sched c with
  | .running p =>
    match (s.proc p).pc, (s.proc p).job with
    | .user, some ⟨np, m, false⟩ =>
      if ok then
        let s := s.setProc np
          { s.proc np with kstack := true, pc := .off .forkret, job := none }
        some (s.setProc p { s.proc p with job := some ⟨np, m, true⟩ })
      else
        let s := s.setProc p { s.proc p with job := none }
        some (s.setProc np { s.proc np with state := .unused })
    | _, _ => none
  | _ => none

/-- The rest of `fork`, with the new page directory that `copyuvm` returns if it succeeds, or of
`thread_create`. -/
def finish (s : State n m) (c : Fin m) (pgdir : Option ℕ) : Option (State n m) :=
  match s.sched c with
  | .running p =>
    match (s.proc p).pc, (s.proc p).job with
    | .user, some ⟨np, m, true⟩ =>
      let s := s.setProc p { s.proc p with job := none }
      match m, pgdir with
      | .thread stack, _ =>
        some (s.setProc np { s.proc np with
          pgdir := (s.proc p).pgdir, threadStackTop := stack, parent := some p,
          state := .runnable })
      | .fork, some d =>
        some (s.setProc np { s.proc np with pgdir := d, parent := some p, state := .runnable })
      | .fork, none =>
        some (s.setProc np { s.proc np with pgdir := 0, kstack := false, state := .unused })
    | _, _ => none
  | _ => none

/-- An interrupt on a CPU that runs no process. -/
def interrupt (s : State n m) (c : Fin m) (chan : Chan n) : Option (State n m) :=
  match s.sched c with
  | .idle => some (s.setSched c (.intrAcquire chan))
  | _ => none

end State

/-- The steps. -/
inductive Act (n m : ℕ)
  | go (c : Fin m)
  | start (c : Fin m) (k : Crit n)
  | stack (c : Fin m) (ok : Bool)
  | finish (c : Fin m) (pgdir : Option ℕ)
  | interrupt (c : Fin m) (chan : Chan n)

/-- The state after a step. -/
def State.next (s : State n m) : Act n m → Option (State n m)
  | .go c => s.go c
  | .start c k => s.start c k
  | .stack c ok => s.stack c ok
  | .finish c pgdir => s.finish c pgdir
  | .interrupt c chan => s.interrupt c chan

/-- The state after `userinit`: `init` is runnable, the other slots are free, and every CPU is about
to enter `scheduler`. -/
def boot (initproc : Fin n) (pgdir : ℕ) : State n m where
  proc p :=
    if p = initproc then ⟨⟨.runnable, 1, none, pgdir, .null, false, 0, .off .forkret⟩, true, none⟩
    else ⟨⟨.unused, 0, none, 0, .null, false, 0, .off .forkret⟩, false, none⟩
  cur _ := none
  sched _ := .idle
  lock := none
  nextpid := 2
  initproc := initproc

/-- The runs of `n` slots and `m` CPUs. -/
def system (n m : ℕ) : System (State n m) (Act n m) where
  init s := ∃ initproc pgdir, s = boot initproc pgdir
  step s a t := s.next a = some t

/-! ### The invariant -/

/-- The process has been switched out. -/
def Pc.isOff : Pc n → Bool
  | .off _ => true
  | _ => false

/-- The points at which the CPU of the process holds `ptable.lock`. -/
def Pc.Locked : Pc n → Prop
  | .crit _ | .sched _ | .resumed _ | .release => True
  | _ => False

/-- The process executes and has not given up the CPU. -/
def Pc.Busy : Pc n → Prop
  | .sched _ | .off _ => False
  | _ => True

/-- What `proc` of the CPU is. -/
def Sched.cur : Sched n → Option (Fin n)
  | .chosen p | .switch p | .running p | .back p => some p
  | _ => none

/-- The CPU executes the process or is about to. -/
def Sched.Has : Sched n → Fin n → Prop
  | .chosen q, p | .switch q, p | .running q, p => q = p
  | _, _ => False

/-- The CPU is in a critical section of `ptable.lock`: its scheduler is, or the process that it
executes. -/
def Sched.InCrit (locked : Fin n → Prop) : Sched n → Prop
  | .idle | .intrAcquire _ => False
  | .running p => locked p
  | _ => True

/-- CPU `c` is in a critical section of `ptable.lock`. -/
def State.InCrit (s : State n m) (c : Fin m) : Prop :=
  (s.sched c).InCrit fun p => (s.proc p).pc.Locked

/-- What the state of a process tells; `sw` says that a CPU is about to switch to it. -/
structure ProcOk (v : Proc n) (sw : Prop) : Prop where
  busy : v.pc.Busy → v.state = .running
  running : v.state = .running → v.pc.Busy ∨ sw
  leaving : ∀ r, v.pc = .sched r →
    (v.state = .runnable ∨ v.state = .sleeping ∨ v.state = .zombie) ∧
      (v.state = .zombie ↔ r = .exit)
  exited : v.pc = .off .exit → v.state = .zombie ∨ v.state = .unused ∨ v.state = .embryo
  stack : v.state ≠ .unused → v.state ≠ .embryo → v.kstack = true

/-- What is known of the slot of a process that is being made. -/
structure JobOk (v : Proc n) (stacked : Bool) : Prop where
  embryo : v.state = .embryo
  off : v.pc.isOff = true
  stack : stacked = true → v.kstack = true ∧ v.pc = .off .forkret

/-- **The invariant.** -/
structure Inv (s : State n m) : Prop where
  crit : ∀ c, s.InCrit c → s.lock = some c
  cur : ∀ c, s.cur c = (s.sched c).cur
  on : ∀ c p, s.sched c = .running p → (s.proc p).pc.isOff = false
  home : ∀ p, (s.proc p).pc.isOff = false → ∃ c, s.sched c = .running p
  uniq : ∀ c c' p, (s.sched c).Has p → (s.sched c').Has p → c = c'
  proc : ∀ p, ProcOk (s.proc p) (∃ c, s.sched c = .switch p)
  chosen : ∀ c p, s.sched c = .chosen p →
    (s.proc p).state = .runnable ∧ (s.proc p).pc.isOff = true
  switch : ∀ c p, s.sched c = .switch p →
    (s.proc p).state = .running ∧ (s.proc p).pc.isOff = true
  back : ∀ c p, s.sched c = .back p → (s.proc p).pc.isOff = true
  job : ∀ q j, (s.proc q).job = some j → JobOk (s.proc j.np) j.stacked
  jobs : ∀ q q' j j', (s.proc q).job = some j → (s.proc q').job = some j' → j.np = j'.np → q = q'

theorem Sched.InCrit.imp {L L' : Fin n → Prop} {k : Sched n} (h : k.InCrit L)
    (himp : ∀ p, k = .running p → L p → L' p) : k.InCrit L' := by
  cases k <;> first | exact h | exact himp _ rfl h

section Lemmas

variable {s t : State n m} {c : Fin m} {p q : Fin n} {v w : Proc n}

@[simp] theorem setProc_proc_self : (s.setProc p v).proc p = v := update_self ..

theorem setProc_proc_of_ne (h : q ≠ p) : (s.setProc p v).proc q = s.proc q :=
  update_of_ne h _ _

/-- A process that executes is on a CPU, has a state of its own, and is not being made. -/
theorem Inv.state_of_on (h : Inv s) (hon : (s.proc p).pc.isOff = false) :
    (s.proc p).state ≠ .unused ∧ (s.proc p).state ≠ .embryo := by
  cases hpc : (s.proc p).pc with
  | off r => simp [hpc, Pc.isOff] at hon
  | sched r =>
    obtain ⟨h1 | h1 | h1, -⟩ := (h.proc p).leaving r hpc <;> simp [h1]
  | _ =>
    have hrun := (h.proc p).busy (by rw [hpc]; trivial)
    simp [hrun]

/-- The slot of a process that is being made is not that of a process on a CPU. -/
theorem Inv.np_ne (h : Inv s) {j : Job n} (hjob : (s.proc q).job = some j)
    (hp : (s.proc p).state ≠ .embryo) : j.np ≠ p := by
  rintro rfl
  exact hp (h.job q j hjob).embryo

/-- A process that executes is not one that has been switched out. -/
theorem ne_of_isOff (hp : (s.proc p).pc.isOff = false) (hq : (s.proc q).pc.isOff = true) :
    q ≠ p := by
  rintro rfl
  rw [hp] at hq
  cases hq

variable {sw : Prop}

theorem ProcOk.mono {sw' : Prop} (h : ProcOk v sw) (himp : sw → sw') : ProcOk v sw' :=
  ⟨h.busy, fun hr => (h.running hr).imp_right himp, h.leaving, h.exited, h.stack⟩

/-- A process that executes with the lock is on the CPU that holds it. -/
theorem Inv.lock_of_running (h : Inv s) (hc : s.sched c = .running p)
    (hlocked : (s.proc p).pc.Locked) : s.lock = some c :=
  h.crit c (by rw [State.InCrit, hc]; exact hlocked)

/-! ### Waking up -/

/-- The process stays as it is, or is woken up. -/
structure Woken (v w : Proc n) : Prop where
  pc : w.pc = v.pc
  kstack : w.kstack = v.kstack
  job : w.job = v.job
  state : w.state = v.state ∨ (v.state = .sleeping ∧ w.state = .runnable)

theorem Woken.refl (v : Proc n) : Woken v v := ⟨rfl, rfl, rfl, Or.inl rfl⟩

theorem Woken.state_eq (h : Woken v w) (hv : v.state ≠ .sleeping) : w.state = v.state :=
  h.state.resolve_right fun hs => hv hs.1

/-- A process that has been woken up is not asleep any more. -/
theorem Woken.trans {u : Proc n} (h : Woken u v) (h' : Woken v w) : Woken u w := by
  refine ⟨h'.pc.trans h.pc, h'.kstack.trans h.kstack, h'.job.trans h.job, ?_⟩
  rcases h'.state with h1 | ⟨h1, h2⟩
  · rw [h1]
    exact h.state
  · rcases h.state with h3 | ⟨h3, h4⟩
    · exact Or.inr ⟨h3 ▸ h1, h2⟩
    · rw [h4] at h1
      cases h1

/-- A process that is woken up is still where it was. -/
theorem ProcOk.woken (h : ProcOk v sw) (hw : Woken v w) : ProcOk w sw := by
  obtain ⟨hpc, hk, -, hst | ⟨hst, hst'⟩⟩ := hw
  · refine ⟨?_, ?_, ?_, ?_, ?_⟩ <;> rw [hst]
    · rw [hpc]; exact h.busy
    · rw [hpc]; exact h.running
    · rw [hpc]; exact h.leaving
    · rw [hpc]; exact h.exited
    · rw [hk]; exact h.stack
  · refine ⟨?_, ?_, ?_, ?_, ?_⟩ <;> rw [hst']
    · intro hb
      have := h.busy (hpc ▸ hb)
      rw [hst] at this
      cases this
    · intro hr
      cases hr
    · intro r hr
      have := (h.leaving r (hpc ▸ hr)).2
      rw [hst] at this
      simpa using this
    · intro hr
      have := h.exited (hpc ▸ hr)
      rw [hst] at this
      simp at this
    · intro _ _
      rw [hk]
      exact h.stack (by rw [hst]; decide) (by rw [hst]; decide)

/-- **Waking up processes keeps the invariant.** -/
theorem Inv.wake (h : Inv s) (hproc : ∀ q, Woken (s.proc q) (t.proc q)) (hsched : t.sched = s.sched)
    (hcur : t.cur = s.cur) (hlock : t.lock = s.lock) : Inv t where
  crit c hc := by
    rw [State.InCrit, hsched] at hc
    rw [hlock]
    exact h.crit c (hc.imp fun q _ hq => (hproc q).pc ▸ hq)
  cur c := by rw [hcur, hsched, h.cur]
  on c p hc := by
    rw [hsched] at hc
    rw [(hproc p).pc]
    exact h.on c p hc
  home p hp := by
    rw [(hproc p).pc] at hp
    rw [hsched]
    exact h.home p hp
  uniq := by
    rw [hsched]
    exact h.uniq
  proc p := by
    rw [hsched]
    exact (h.proc p).woken (hproc p)
  chosen c p hc := by
    rw [hsched] at hc
    obtain ⟨h1, h2⟩ := h.chosen c p hc
    rw [(hproc p).pc, (hproc p).state_eq (by simp [h1])]
    exact ⟨h1, h2⟩
  switch c p hc := by
    rw [hsched] at hc
    obtain ⟨h1, h2⟩ := h.switch c p hc
    rw [(hproc p).pc, (hproc p).state_eq (by simp [h1])]
    exact ⟨h1, h2⟩
  back c p hc := by
    rw [hsched] at hc
    rw [(hproc p).pc]
    exact h.back c p hc
  job q j hj := by
    rw [(hproc q).job] at hj
    obtain ⟨h1, h2, h3⟩ := h.job q j hj
    refine ⟨?_, ?_, ?_⟩
    · rw [(hproc j.np).state_eq (by simp [h1]), h1]
    · rw [(hproc j.np).pc, h2]
    · rw [(hproc j.np).pc, (hproc j.np).kstack]
      exact h3
  jobs q q' j j' hj hj' := by
    rw [(hproc q).job] at hj
    rw [(hproc q').job] at hj'
    exact h.jobs q q' j j' hj hj'

/-- `wakeup1` wakes processes up. -/
theorem woken_wakeup1 (s : State n m) (chan : Chan n) (q : Fin n) :
    Woken (s.proc q) ((s.wakeup1 chan).proc q) := by
  simp only [State.wakeup1, State.setSlots, Ptable.wakeup1]
  split_ifs with h
  · exact ⟨rfl, rfl, rfl, Or.inr ⟨h.1, rfl⟩⟩
  · exact .refl _

theorem Inv.wakeup1 (h : Inv s) (chan : Chan n) : Inv (s.wakeup1 chan) :=
  h.wake (woken_wakeup1 s chan) rfl rfl rfl

/-! ### A step of a process -/

/-- **A slot changes** that no CPU is about to switch to; the process stays on its CPU, or off. -/
theorem Inv.slot (h : Inv s) (hproc : t.proc = update s.proc p v) (hsched : t.sched = s.sched)
    (hcur : t.cur = s.cur) (hcrit : ∀ c, t.InCrit c → t.lock = some c)
    (hoff : v.pc.isOff = (s.proc p).pc.isOff) (hok : ProcOk v False)
    (hfree : ∀ c, s.sched c ≠ .chosen p ∧ s.sched c ≠ .switch p)
    (hjob : ∀ q j, (t.proc q).job = some j → JobOk (t.proc j.np) j.stacked)
    (hjobs : ∀ q q' j j', (t.proc q).job = some j → (t.proc q').job = some j' → j.np = j'.np →
      q = q') : Inv t := by
  have hupd (q : Fin n) : t.proc q = if q = p then v else s.proc q := by rw [hproc, update_apply]
  have hother (q : Fin n) (hq : q ≠ p) : t.proc q = s.proc q := (hupd q).trans (if_neg hq)
  have hsame (q : Fin n) : (t.proc q).pc.isOff = (s.proc q).pc.isOff := by
    rw [hupd]
    split_ifs with hq
    · rw [hq, hoff]
    · rfl
  refine ⟨hcrit, fun c => ?_, fun c q hc => ?_, fun q hq => ?_, hsched ▸ h.uniq, fun q => ?_,
    fun c q hc => ?_, fun c q hc => ?_, fun c q hc => ?_, hjob, hjobs⟩
  · rw [hcur, hsched, h.cur]
  · rw [hsame]
    exact h.on c q (hsched ▸ hc)
  · rw [hsame] at hq
    rw [hsched]
    exact h.home q hq
  · rw [hsched, hupd]
    split_ifs
    · exact hok.mono False.elim
    · exact h.proc q
  · rw [hsched] at hc
    rw [hother q fun hq => (hfree c).1 (hq ▸ hc)]
    exact h.chosen c q hc
  · rw [hsched] at hc
    rw [hother q fun hq => (hfree c).2 (hq ▸ hc)]
    exact h.switch c q hc
  · rw [hsame]
    exact h.back c q (hsched ▸ hc)

/-- **A step of process `p` on CPU `c`** that changes its own slot and perhaps the lock. -/
theorem Inv.own (h : Inv s) (hc : s.sched c = .running p)
    (hproc : t.proc = update s.proc p v) (hsched : t.sched = s.sched)
    (hcur : t.cur = s.cur) (hlock : t.lock = s.lock ∨ s.lock = none ∨ s.lock = some c)
    (hmine : v.pc.Locked → t.lock = some c) (hon : v.pc.isOff = false) (hok : ProcOk v False)
    (hjob : ∀ j, v.job = some j → j.np ≠ p ∧ JobOk (s.proc j.np) j.stacked ∧
      ∀ q j', q ≠ p → (s.proc q).job = some j' → j'.np ≠ j.np) : Inv t := by
  have hupd (q : Fin n) : t.proc q = if q = p then v else s.proc q := by rw [hproc, update_apply]
  have hother (q : Fin n) (hq : q ≠ p) : t.proc q = s.proc q := (hupd q).trans (if_neg hq)
  have hpon := h.on c p hc
  refine h.slot hproc hsched hcur (fun c' hc' => ?_) (hon.trans hpon.symm) hok
    (fun c' => ⟨fun hs => ?_, fun hs => ?_⟩) (fun q j hj => ?_) fun q q' j j' hj hj' hnp => ?_
  · rw [State.InCrit, hsched] at hc'
    by_cases hcc : c' = c
    · subst hcc
      rw [hc] at hc'
      exact hmine ((hupd p).trans (if_pos rfl) ▸ hc')
    · -- another CPU executes another process, if any
      refine held_of_ne hlock (h.crit c' (hc'.imp fun q hq hlocked => ?_)) hcc
      have hqp : q ≠ p := by
        rintro rfl
        exact hcc (h.uniq c' c q (by rw [hq]; rfl) (by rw [hc]; rfl))
      rwa [hother q hqp] at hlocked
  · exact ne_of_isOff hpon (h.chosen c' p hs).2 rfl
  · exact ne_of_isOff hpon (h.switch c' p hs).2 rfl
  · rw [hupd q] at hj
    split_ifs at hj
    · obtain ⟨hne, hok, -⟩ := hjob j hj
      rwa [hother j.np hne]
    · rw [hother j.np (h.np_ne hj (h.state_of_on hpon).2)]
      exact h.job q j hj
  · rw [hupd] at hj hj'
    split_ifs at hj hj' with hqp hqp' hqp'
    · rw [hqp, hqp']
    · exact absurd hnp.symm ((hjob j hj).2.2 q' j' hqp' hj')
    · exact absurd hnp ((hjob j' hj').2.2 q j hqp hj)
    · exact h.jobs q q' j j' hj hj' hnp

/-- The jobs of a process whose step leaves them alone. -/
theorem Inv.same_job (h : Inv s) (hc : s.sched c = .running p) (hv : v.job = (s.proc p).job) :
    ∀ j, v.job = some j → j.np ≠ p ∧ JobOk (s.proc j.np) j.stacked ∧
      ∀ q j', q ≠ p → (s.proc q).job = some j' → j'.np ≠ j.np := by
  intro j hj
  rw [hv] at hj
  refine ⟨h.np_ne hj (h.state_of_on (h.on c p hc)).2, h.job p j hj, fun q j' hq hj' he => hq ?_⟩
  exact h.jobs q p j' j hj' hj he

/-! ### A change to another slot -/

/-- **A change to a slot that no CPU is concerned with.** -/
theorem Inv.other (h : Inv s) (hproc : t.proc = update s.proc q v)
    (hsched : t.sched = s.sched) (hcur : t.cur = s.cur) (hlock : t.lock = s.lock)
    (hoff : (s.proc q).pc.isOff = true) (hst : (s.proc q).state ≠ .runnable)
    (hst' : (s.proc q).state ≠ .running) (hvoff : v.pc.isOff = true) (hok : ProcOk v False)
    (hvjob : v.job = (s.proc q).job ∨ v.job = none)
    (hjob : (∀ q' j, (s.proc q').job = some j → j.np ≠ q) ∨
      ∀ b, JobOk (s.proc q) b → JobOk v b) : Inv t := by
  have hupd (a : Fin n) : t.proc a = if a = q then v else s.proc a := by rw [hproc, update_apply]
  have hjobs (a : Fin n) (j : Job n) (hj : (t.proc a).job = some j) : (s.proc a).job = some j := by
    rw [hupd] at hj
    split_ifs at hj with haq
    · rcases hvjob with he | he
      · rw [haq, ← he, hj]
      · rw [he] at hj
        cases hj
    · exact hj
  refine h.slot hproc hsched hcur (fun c hc => ?_) (hvoff.trans hoff.symm) hok
    (fun c => ⟨fun hs => hst (h.chosen c q hs).1, fun hs => hst' (h.switch c q hs).1⟩)
    (fun a j hj => ?_) fun a a' j j' hj hj' => h.jobs a a' j j' (hjobs a j hj) (hjobs a' j' hj')
  · rw [State.InCrit, hsched] at hc
    rw [hlock]
    refine h.crit c (hc.imp fun a ha hlocked => ?_)
    rwa [hupd, if_neg (ne_of_isOff (h.on c a ha) hoff).symm] at hlocked
  · have hold := h.job a j (hjobs a j hj)
    rw [hupd]
    split_ifs with hnp
    · rcases hjob with hno | hkeep
      · exact absurd hnp (hno a j (hjobs a j hj))
      · exact hkeep _ (hnp ▸ hold)
    · exact hold

/-! ### A step of the scheduler -/

/-- **A step of the scheduler of CPU `c`** that changes no slot: it moves on, or chooses a
process. -/
theorem Inv.cpu {k : Sched n} (h : Inv s) (hproc : t.proc = s.proc)
    (hsched : t.sched = update s.sched c k) (hcur : ∀ c', c' ≠ c → t.cur c' = s.cur c')
    (hcur' : t.cur c = k.cur) (hlock : t.lock = s.lock ∨ s.lock = none ∨ s.lock = some c)
    (hmine : (∀ p, k ≠ .running p ∧ k ≠ .back p) ∧
      (k.InCrit (fun _ => False) → t.lock = some c))
    (hold : ∀ p, ¬ (s.sched c).Has p)
    (hnew : ∀ p, k.Has p → k = .chosen p ∧ (s.proc p).state = .runnable ∧
      (s.proc p).pc.isOff = true ∧ ∀ c', ¬ (s.sched c').Has p) : Inv t := by
  have hupd (c' : Fin m) : t.sched c' = if c' = c then k else s.sched c' := by
    rw [hsched, update_apply]
  -- a CPU other than `c` is where it was, and `c` had no process
  have hsame (c' : Fin m) (l : Sched n) (hlk : l ≠ k) (hc' : t.sched c' = l) :
      s.sched c' = l := by
    rw [hupd] at hc'
    split_ifs at hc'
    · exact absurd hc'.symm hlk
    · exact hc'
  have hno : ∀ p, k ≠ .chosen p → k.Has p → False := fun p h1 h2 => h1 (hnew p h2).1
  have hback (p : Fin n) (l : Sched n) (hl : l.Has p) (c' : Fin m) (hc' : s.sched c' = l) :
      t.sched c' = l := by
    have hcc : c' ≠ c := by
      rintro rfl
      exact hold p (hc' ▸ hl)
    rw [hupd, if_neg hcc, hc']
  have hswitch (p : Fin n) : (∃ c', t.sched c' = .switch p) ↔ ∃ c', s.sched c' = .switch p := by
    constructor
    · rintro ⟨c', hc'⟩
      refine ⟨c', hsame c' _ ?_ hc'⟩
      rintro rfl
      exact hno p (by simp) rfl
    · rintro ⟨c', hc'⟩
      exact ⟨c', hback p (.switch p) rfl c' hc'⟩
  constructor
  case crit =>
    intro c' hc'
    rw [State.InCrit, hupd, hproc] at hc'
    split_ifs at hc' with hcc
    · rw [hcc]
      exact hmine.2 (hc'.imp fun p hp _ => (hmine.1 p).1 hp)
    · exact held_of_ne hlock (h.crit c' hc') hcc
  case cur =>
    intro c'
    rw [hupd]
    split_ifs with hcc
    · rw [hcc, hcur']
    · rw [hcur c' hcc, h.cur]
  case on =>
    intro c' p hc'
    rw [hproc]
    exact h.on c' p (hsame c' _ (hmine.1 p).1.symm hc')
  case home =>
    intro p hp
    rw [hproc] at hp
    obtain ⟨c', hc'⟩ := h.home p hp
    exact ⟨c', hback p (.running p) rfl c' hc'⟩
  case uniq =>
    intro c1 c2 p h1 h2
    rw [hupd] at h1 h2
    split_ifs at h1 h2 with hc1 hc2 hc2
    · rw [hc1, hc2]
    · exact absurd h2 ((hnew p h1).2.2.2 c2)
    · exact absurd h1 ((hnew p h2).2.2.2 c1)
    · exact h.uniq c1 c2 p h1 h2
  case proc =>
    intro p
    rw [hproc, propext (hswitch p)]
    exact h.proc p
  case chosen =>
    intro c' p hc'
    rw [hproc]
    rw [hupd] at hc'
    split_ifs at hc'
    · obtain ⟨-, h1, h2, -⟩ := hnew p (by rw [hc']; rfl)
      exact ⟨h1, h2⟩
    · exact h.chosen c' p hc'
  case switch =>
    intro c' p hc'
    rw [hproc]
    obtain ⟨c'', hc''⟩ := (hswitch p).mp ⟨c', hc'⟩
    exact h.switch c'' p hc''
  case back =>
    intro c' p hc'
    rw [hproc]
    exact h.back c' p (hsame c' _ (hmine.1 p).2.symm hc')
  case job =>
    rw [hproc]
    exact h.job
  case jobs =>
    rw [hproc]
    exact h.jobs

/-- **A step around `swtch`**: CPU `c`, with the lock, has the process and changes its slot. -/
theorem Inv.swtch {k : Sched n} (h : Inv s) (hlock : s.lock = some c) (hhas : (s.sched c).Has p)
    (hk : k = .switch p ∨ k = .running p ∨ k = .back p)
    (hproc : t.proc = update s.proc p v)
    (hsched : t.sched = update s.sched c k) (hcur : t.cur = s.cur)
    (hlock' : t.lock = s.lock) (hst : (s.proc p).state ≠ .embryo)
    (hjob : v.job = (s.proc p).job) (hok : ProcOk v (k = .switch p))
    (hrun : k = .running p ↔ v.pc.isOff = false)
    (hsw : k = .switch p → v.state = .running) : Inv t := by
  have hupd (c' : Fin m) : t.sched c' = if c' = c then k else s.sched c' := by
    rw [hsched, update_apply]
  have hself : t.sched c = k := (hupd c).trans (if_pos rfl)
  have hother (c' : Fin m) (hc' : c' ≠ c) : t.sched c' = s.sched c' := (hupd c').trans (if_neg hc')
  have hv : t.proc p = v := by rw [hproc, update_self]
  have hq (q : Fin n) (hqp : q ≠ p) : t.proc q = s.proc q := by
    rw [hproc, update_of_ne hqp]
  have hkhas (q : Fin n) (hkq : k.Has q) : q = p := by
    rcases hk with rfl | rfl | rfl
    · exact hkq.symm
    · exact hkq.symm
    · exact hkq.elim
  have hjobs (q : Fin n) : (t.proc q).job = (s.proc q).job := by
    by_cases hqp : q = p
    · rw [hqp, hv, hjob]
    · rw [hq q hqp]
  -- no other CPU has the process
  have honly (c' : Fin m) (hcc : c' ≠ c) : ¬ (s.sched c').Has p := fun hc' =>
    hcc (h.uniq c' c p hc' hhas)
  have hne (c' : Fin m) (q : Fin n) (hcc : c' ≠ c) (hc' : (s.sched c').Has q) : q ≠ p := by
    rintro rfl
    exact honly c' hcc hc'
  have hne' (q : Fin n) (hqp : q ≠ p) (c' : Fin m) (hc' : (s.sched c').Has q) : c' ≠ c := by
    rintro rfl
    cases hs : s.sched c' <;> rw [hs] at hhas hc' <;>
      first | exact hhas.elim | exact hqp (hc'.symm.trans hhas)
  constructor
  case crit =>
    intro c' hc'
    rw [hlock']
    by_cases hcc : c' = c
    · rw [hcc, hlock]
    · rw [State.InCrit, hother c' hcc] at hc'
      refine h.crit c' (hc'.imp fun q hs hlocked => ?_)
      rwa [hq q (hne c' q hcc (by rw [hs]; rfl))] at hlocked
  case cur =>
    intro c'
    rw [hcur, h.cur]
    by_cases hcc : c' = c
    · have hold : (s.sched c).cur = some p := by
        cases hs : s.sched c <;> rw [hs] at hhas <;>
          first | exact hhas.elim | exact congrArg some hhas
      rw [hcc, hself, hold]
      rcases hk with rfl | rfl | rfl <;> rfl
    · rw [hother c' hcc]
  case on =>
    intro c' q hc'
    rw [hupd] at hc'
    split_ifs at hc' with hcc
    · obtain rfl := hkhas q (by rw [hc']; rfl)
      rw [hv]
      exact hrun.mp hc'
    · rw [hq q (hne c' q hcc (by rw [hc']; rfl))]
      exact h.on c' q hc'
  case home =>
    intro q hoff
    by_cases hqp : q = p
    · rw [hqp, hv] at hoff
      exact ⟨c, by rw [hself, hqp]; exact hrun.mpr hoff⟩
    · rw [hq q hqp] at hoff
      obtain ⟨c', hc'⟩ := h.home q hoff
      refine ⟨c', ?_⟩
      rw [hother c' (hne' q hqp c' (by rw [hc']; rfl)), hc']
  case uniq =>
    intro c1 c2 q h1 h2
    rw [hupd] at h1 h2
    split_ifs at h1 h2 with hc1 hc2 hc2
    · rw [hc1, hc2]
    · exact absurd (hkhas q h1 ▸ h2) (honly c2 hc2)
    · exact absurd (hkhas q h2 ▸ h1) (honly c1 hc1)
    · exact h.uniq c1 c2 q h1 h2
  case proc =>
    intro q
    by_cases hqp : q = p
    · subst hqp
      rw [hv]
      exact hok.mono fun he => ⟨c, by rw [hself, he]⟩
    · rw [hq q hqp]
      have hiff : (∃ c', t.sched c' = .switch q) ↔ ∃ c', s.sched c' = .switch q := by
        constructor
        · rintro ⟨c', hc'⟩
          have hcc : c' ≠ c := by
            rintro rfl
            rw [hself] at hc'
            exact hqp (hkhas q (by rw [hc']; rfl))
          exact ⟨c', by rwa [hother c' hcc] at hc'⟩
        · rintro ⟨c', hc'⟩
          exact ⟨c', by rw [hother c' (hne' q hqp c' (by rw [hc']; rfl)), hc']⟩
      rw [propext hiff]
      exact h.proc q
  case chosen =>
    intro c' q hc'
    rw [hupd] at hc'
    split_ifs at hc' with hcc
    · rcases hk with rfl | rfl | rfl <;> cases hc'
    · rw [hq q (hne c' q hcc (by rw [hc']; rfl))]
      exact h.chosen c' q hc'
  case switch =>
    intro c' q hc'
    rw [hupd] at hc'
    split_ifs at hc' with hcc
    · obtain rfl := hkhas q (by rw [hc']; rfl)
      rw [hv]
      refine ⟨hsw hc', ?_⟩
      by_contra hoff
      have hk' := hrun.mpr (by simpa using hoff)
      rw [hk'] at hc'
      cases hc'
    · rw [hq q (hne c' q hcc (by rw [hc']; rfl))]
      exact h.switch c' q hc'
  case back =>
    intro c' q hc'
    rw [hupd] at hc'
    split_ifs at hc' with hcc
    · subst hc'
      obtain rfl : q = p := by
        rcases hk with hk | hk | hk <;> cases hk
        rfl
      rw [hv]
      simpa using hrun
    · -- two CPUs would hold the lock
      have hheld := h.crit c' (by rw [State.InCrit, hc']; trivial)
      rw [hlock] at hheld
      exact absurd (Option.some.inj hheld).symm hcc
  case job =>
    intro q j hj
    rw [hjobs] at hj
    rw [hq j.np (h.np_ne hj hst)]
    exact h.job q j hj
  case jobs =>
    intro q q' j j' hj hj'
    rw [hjobs] at hj hj'
    exact h.jobs q q' j j' hj hj'

/-! ### The steps -/

/-- A process that executes. -/
theorem procOk_busy (hpc : v.pc.Busy) (hst : v.state = .running) (hk : v.kstack = true) :
    ProcOk v sw where
  busy _ := hst
  running _ := Or.inl hpc
  leaving r hr := by
    rw [hr] at hpc
    exact hpc.elim
  exited hr := by
    rw [hr] at hpc
    exact hpc.elim
  stack _ _ := hk

/-- A process about to call `sched` has given up the state `RUNNING`. -/
theorem procOk_sched {r : Resume} (hpc : v.pc = .sched r)
    (hst : v.state = .runnable ∨ v.state = .sleeping ∨ v.state = .zombie)
    (hexit : v.state = .zombie ↔ r = .exit) (hk : v.kstack = true) : ProcOk v sw where
  busy hb := by
    rw [hpc] at hb
    exact hb.elim
  running hr := by
    rw [hr] at hst
    simp at hst
  leaving r' hr := by
    rw [hpc] at hr
    obtain rfl := Pc.sched.inj hr
    exact ⟨hst, hexit⟩
  exited hr := by
    rw [hpc] at hr
    cases hr
  stack _ _ := hk

/-- A slot that is free or has no process yet. -/
theorem procOk_off (hpc : v.pc.isOff = true) (hst : v.state = .unused ∨ v.state = .embryo) :
    ProcOk v sw := by
  obtain ⟨r, hr⟩ : ∃ r, v.pc = .off r := by
    cases hv : v.pc <;> rw [hv] at hpc <;> first | exact ⟨_, rfl⟩ | cases hpc
  refine ⟨fun hb => ?_, fun hrun => ?_, fun r' hr' => ?_, fun _ => Or.inr hst, fun h1 h2 => ?_⟩
  · rw [hr] at hb
    exact hb.elim
  · rw [hrun] at hst
    simp at hst
  · rw [hr] at hr'
    cases hr'
  · exact absurd hst (by simp [h1, h2])

/-- A slot that has been made ready for `forkret`. -/
theorem procOk_forkret (hpc : v.pc = .off .forkret) (hst : v.state ≠ .running)
    (hk : v.state ≠ .unused → v.kstack = true) : ProcOk v sw := by
  refine ⟨fun hb => ?_, fun hr => absurd hr hst, fun r hr => ?_, fun hr => ?_, fun h _ => hk h⟩
  · rw [hpc] at hb
    exact hb.elim
  all_goals
    rw [hpc] at hr
    cases hr

/-- A process that has not given up its CPU is `RUNNING` and has a stack. -/
theorem Inv.of_busy (h : Inv s) (hb : (s.proc p).pc.Busy) :
    (s.proc p).state = .running ∧ (s.proc p).kstack = true := by
  have hrun := (h.proc p).busy hb
  exact ⟨hrun, (h.proc p).stack (by rw [hrun]; decide) (by rw [hrun]; decide)⟩

/-- A process goes on to another point, on its CPU. -/
theorem Inv.goOn (h : Inv s) (hc : s.sched c = .running p) (hb : (s.proc p).pc.Busy)
    (hproc : t.proc = update s.proc p v) (hsched : t.sched = s.sched)
    (hcur : t.cur = s.cur) (hlock : t.lock = s.lock ∨ s.lock = none ∨ s.lock = some c)
    (hmine : v.pc.Locked → t.lock = some c) (hvb : v.pc.Busy)
    (hst : v.state = (s.proc p).state) (hk : v.kstack = (s.proc p).kstack)
    (hjob : ∀ j, v.job = some j → j.np ≠ p ∧ JobOk (s.proc j.np) j.stacked ∧
      ∀ q j', q ≠ p → (s.proc q).job = some j' → j'.np ≠ j.np) : Inv t := by
  obtain ⟨hrun, hstack⟩ := h.of_busy hb
  have hon : v.pc.isOff = false := by
    cases hv : v.pc <;> rw [hv] at hvb <;> first | rfl | exact hvb.elim
  exact h.own hc hproc hsched hcur hlock hmine hon
    (procOk_busy hvb (hst.trans hrun) (hk.trans hstack)) hjob

/-- A process on a CPU that is not `RUNNING` is inside `sched`, with the lock. -/
theorem Inv.locked_of_on (h : Inv s) (hon : (s.proc p).pc.isOff = false)
    (hst : (s.proc p).state ≠ .running) : (s.proc p).pc.Locked := by
  have hnb : ¬ (s.proc p).pc.Busy := fun hb => hst (h.of_busy hb).1
  cases hpc : (s.proc p).pc <;> rw [hpc] at hnb hon <;>
    first | trivial | exact absurd trivial hnb

/-- A process that has exited is not on a CPU when another one holds the lock. -/
theorem Inv.zombie_off (h : Inv s) (hc : s.sched c = .running p) (hb : (s.proc p).pc.Busy)
    (hlock : s.lock = some c) (hz : (s.proc q).state = .zombie) :
    (s.proc q).pc.isOff = true := by
  by_contra hoff
  have hon : (s.proc q).pc.isOff = false := by simpa using hoff
  obtain ⟨c', hc'⟩ := h.home q hon
  have hheld := h.lock_of_running hc' (h.locked_of_on hon (by simp [hz]))
  rw [hlock] at hheld
  cases hheld
  rw [hc] at hc'
  obtain rfl := Sched.running.inj hc'
  rw [(h.of_busy hb).1] at hz
  cases hz

theorem woken_adopt (s : State n m) (p q : Fin n) : Woken (s.proc q) ((s.adopt p).proc q) :=
  have ⟨hpc, hstate⟩ := Ptable.foldl_adoptSlot_woken (List.finRange n) s.slots
  ⟨hpc, rfl, rfl, hstate⟩

theorem Inv.adopt (h : Inv s) (p : Fin n) : Inv (s.adopt p) :=
  h.wake (woken_adopt s p) rfl rfl rfl

/-- `kill` wakes its process up. -/
theorem woken_killSlot (s : State n m) (q a : Fin n) :
    Woken (s.proc a) ((s.killSlot q).proc a) := by
  simp only [State.killSlot, State.setProc, update_apply]
  split_ifs with ha hs
  · rw [ha]
    exact ⟨rfl, rfl, rfl, Or.inr ⟨hs, rfl⟩⟩
  · rw [ha]
    exact ⟨rfl, rfl, rfl, Or.inl rfl⟩
  · exact .refl _

theorem Inv.killSlot (h : Inv s) (q : Fin n) : Inv (s.killSlot q) :=
  h.wake (woken_killSlot s q) rfl rfl rfl

/-- `wait` and `thread_join` free the slot of a process that has exited. -/
theorem Inv.reap (h : Inv s) (hoff : (s.proc q).pc.isOff = true)
    (hz : (s.proc q).state = .zombie) : Inv (s.reap q) := by
  refine h.other rfl rfl rfl rfl hoff (by simp [hz]) (by simp [hz]) hoff
    (procOk_off hoff (Or.inl rfl)) (Or.inl rfl) (Or.inl fun q' j hj => ?_)
  exact h.np_ne hj (by simp [hz])

/-- **The body of a critical section keeps the invariant.** -/
theorem inv_critStep (h : Inv s) (hc : s.sched c = .running p) {k : Crit n}
    (hpc : (s.proc p).pc = .crit k) : Inv (s.critStep p k) := by
  have hb : (s.proc p).pc.Busy := by rw [hpc]; trivial
  have hlock : s.lock = some c := h.lock_of_running hc (by rw [hpc]; trivial)
  have hstack := (h.of_busy hb).2
  -- to the end of the critical section, in a state in which other slots have changed
  have hrelease {u : State n m} (hu : Inv u) (hus : u.sched = s.sched) (hul : u.lock = s.lock)
      (hup : (u.proc p).pc = (s.proc p).pc) : Inv (u.setPc p .release) :=
    hu.goOn (hus ▸ hc) (by rw [hup]; exact hb) rfl rfl rfl (Or.inl rfl)
      (fun _ => hul.trans hlock) trivial rfl rfl (hu.same_job (hus ▸ hc) rfl)
  cases k with
  | yield =>
    exact h.own hc rfl rfl rfl (Or.inl rfl) (fun _ => hlock) rfl
      (procOk_sched rfl (Or.inl rfl) (by simp) hstack) (h.same_job hc rfl)
  | sleep chan =>
    exact h.own hc rfl rfl rfl (Or.inl rfl) (fun _ => hlock) rfl
      (procOk_sched rfl (Or.inr (Or.inl rfl)) (by simp) hstack) (h.same_job hc rfl)
  | exit =>
    let w : State n m := s.wakeup1 (Chan.ofPtr (s.proc p).parent)
    have hu : Inv (w.adopt p) := (h.wakeup1 _).adopt p
    have hw : Woken (s.proc p) ((w.adopt p).proc p) :=
      (woken_wakeup1 s _ p).trans (woken_adopt w p p)
    have hcu : (w.adopt p).sched c = .running p := hc
    exact hu.own hcu rfl rfl rfl (Or.inl rfl) (fun _ => hlock) rfl
      (procOk_sched rfl (Or.inr (Or.inr rfl)) (by simp) (hw.kstack.trans hstack))
      (hu.same_job hcu rfl)
  | wakeup chan =>
    exact hrelease (h.wakeup1 chan) rfl rfl (woken_wakeup1 s chan p).pc
  | kill pid =>
    rw [State.critStep]
    split
    · rename_i q _
      exact hrelease (h.killSlot q) rfl rfl (woken_killSlot s q p).pc
    · exact hrelease h rfl rfl rfl
  | wait join =>
    rw [State.critStep]
    split
    · rename_i q hq
      have hz : (s.proc q).state = .zombie := (Ptable.findZombie_spec hq).2.2
      have hne : p ≠ q := by
        rintro rfl
        rw [(h.of_busy hb).1] at hz
        cases hz
      refine hrelease (h.reap (h.zombie_off hc hb hlock hz) hz) rfl rfl ?_
      rw [State.reap, setProc_proc_of_ne hne]
    · split_ifs
      · exact hrelease h rfl rfl rfl
      · exact h.own hc rfl rfl rfl (Or.inl rfl) (fun _ => hlock) rfl
          (procOk_sched rfl (Or.inr (Or.inl rfl)) (by simp) hstack) (h.same_job hc rfl)
  | alloc mk =>
    rw [State.critStep]
    split
    · rename_i np hnp
      have hun : (s.proc np).state = .unused := Ptable.findUnused_spec hnp
      have hoff : (s.proc np).pc.isOff = true := by
        by_contra hon
        exact (h.state_of_on (by simpa using hon)).1 hun
      have hne : p ≠ np := by
        rintro rfl
        rw [(h.of_busy hb).1] at hun
        cases hun
      have hfree (q : Fin n) (j : Job n) (hj : (s.proc q).job = some j) : j.np ≠ np :=
        h.np_ne hj (by simp [hun])
      let u : State n m := s.setProc np { s.proc np with state := .embryo, pid := s.nextpid }
      have hu : Inv u := h.other rfl rfl rfl rfl hoff (by simp [hun]) (by simp [hun]) hoff
        (procOk_off hoff (Or.inr rfl)) (Or.inl rfl) (Or.inl hfree)
      have hup : u.proc p = s.proc p := setProc_proc_of_ne hne
      have hujob (q : Fin n) : (u.proc q).job = (s.proc q).job := by
        rw [show u.proc q = _ from update_apply ..]
        split_ifs with hq
        · rw [hq]
        · rfl
      refine hu.goOn (c := c) hc (by rw [hup]; exact hb) rfl rfl rfl (Or.inl rfl)
        (fun _ => hlock) trivial rfl rfl fun j hj => ?_
      cases hj
      refine ⟨hne.symm, ⟨?_, ?_, by simp⟩, fun q j' _ hj' => ?_⟩
      · rw [show u.proc np = _ from setProc_proc_self]
      · rw [show u.proc np = _ from setProc_proc_self]
        exact hoff
      · rw [hujob] at hj'
        exact hfree q j' hj'
    · exact hrelease h rfl rfl rfl

/-- **A step of a process keeps the invariant.** -/
theorem inv_procStep (h : Inv s) (hc : s.sched c = .running p)
    (hstep : s.procStep c p = some t) : Inv t := by
  cases hpc : (s.proc p).pc with
  | user | off r => simp [State.procStep, hpc] at hstep
  | acquire k =>
    simp only [State.procStep, hpc] at hstep
    split_ifs at hstep with hfree
    cases hstep
    exact h.goOn hc (by rw [hpc]; trivial) rfl rfl rfl (Or.inr (Or.inl hfree)) (fun _ => rfl)
      trivial rfl rfl (h.same_job hc rfl)
  | crit k =>
    simp only [State.procStep, hpc] at hstep
    cases hstep
    exact inv_critStep h hc hpc
  | sched r =>
    simp only [State.procStep, hpc] at hstep
    split_ifs at hstep with hcond
    cases hstep
    have hlast := h.state_of_on (h.on c p hc)
    refine h.swtch (k := .back p) hcond.1 (by rw [hc]; rfl) (Or.inr (Or.inr rfl)) rfl rfl rfl rfl
      hlast.2 rfl ⟨fun hb => hb.elim, fun hr => absurd hr hcond.2, fun r' hr' => ?_, fun hr => ?_,
        (h.proc p).stack⟩ ?_ fun he => ?_
    · cases hr'
    · obtain rfl := Pc.off.inj hr
      exact Or.inl (((h.proc p).leaving _ hpc).2.mpr rfl)
    · simp [Pc.isOff]
    · cases he
  | resumed r =>
    have hlock := h.lock_of_running hc (by rw [hpc]; trivial)
    have hb : (s.proc p).pc.Busy := by rw [hpc]; trivial
    simp only [State.procStep, hpc] at hstep
    cases r with
    | exit => cases hstep
    | _ =>
      cases hstep
      exact h.goOn hc hb rfl rfl rfl (Or.inl rfl) (fun _ => hlock) trivial rfl rfl
        (h.same_job hc rfl)
  | release =>
    simp only [State.procStep, hpc] at hstep
    split_ifs at hstep with hheld
    cases hstep
    exact h.goOn hc (by rw [hpc]; trivial) rfl rfl rfl (Or.inr (Or.inr hheld))
      (fun hf => hf.elim) trivial rfl rfl (h.same_job hc rfl)

/-- A process that is `RUNNABLE` is nowhere while the scheduler of a CPU holds the lock. -/
theorem Inv.runnable_free (h : Inv s) (hlock : s.lock = some c) (hc : ∀ q, ¬ (s.sched c).Has q)
    (hst : (s.proc p).state = .runnable) :
    (s.proc p).pc.isOff = true ∧ ∀ c', ¬ (s.sched c').Has p := by
  have hother (c' : Fin m) (hc' : s.InCrit c') : c' = c := by
    have hheld := h.crit c' hc'
    rw [hlock] at hheld
    exact (Option.some.inj hheld).symm
  have hoff : (s.proc p).pc.isOff = true := by
    by_contra hoff
    have hon : (s.proc p).pc.isOff = false := by simpa using hoff
    obtain ⟨c', hc'⟩ := h.home p hon
    have hlocked := h.locked_of_on hon (by simp [hst])
    obtain rfl := hother c' (by rw [State.InCrit, hc']; exact hlocked)
    exact hc p (by rw [hc']; rfl)
  refine ⟨hoff, fun c' hc' => ?_⟩
  cases hs : s.sched c' with
  | running q =>
    rw [hs] at hc'
    obtain rfl : q = p := hc'
    rw [h.on c' q hs] at hoff
    cases hoff
  | chosen q | switch q =>
    obtain rfl := hother c' (by rw [State.InCrit, hs]; trivial)
    exact hc p hc'
  | _ =>
    rw [hs] at hc'
    exact hc'

/-- **A step of a CPU keeps the invariant.** -/
theorem inv_go (h : Inv s) (hstep : s.go c = some t) : Inv t := by
  -- a step of the scheduler to a point at which it has no process
  have hmove {u : State n m} (hu : Inv u) {k : Sched n} (hproc : t.proc = u.proc)
      (hsched : t.sched = update u.sched c k) (hcur : t.cur = u.cur)
      (hlock : t.lock = u.lock ∨ u.lock = none ∨ u.lock = some c)
      (hcrit : k.InCrit (fun _ => False) → t.lock = some c) (hold : (u.sched c).cur = none)
      (hk : k.cur = none) : Inv t := by
    have hno {l : Sched n} (hl : l.cur = none) (p : Fin n) : ¬ l.Has p := fun hp => by
      cases l <;> first | exact hp | cases hl
    refine hu.cpu hproc hsched (fun c' _ => by rw [hcur]) (by rw [hcur, hu.cur, hold, hk]) hlock
      ⟨fun p => ⟨fun hp => ?_, fun hp => ?_⟩, hcrit⟩ (hno hold) fun p hp => absurd hp (hno hk p)
    · rw [hp] at hk
      cases hk
    · rw [hp] at hk
      cases hk
  cases hs : s.sched c with
  | idle | intrAcquire chan =>
    simp only [State.go, hs] at hstep
    split_ifs at hstep with hfree
    cases hstep
    exact hmove h rfl rfl rfl (Or.inr (Or.inl hfree)) (fun _ => rfl) (by rw [hs]; rfl) rfl
  | scan i =>
    have hlock : s.lock = some c := h.crit c (by rw [State.InCrit, hs]; trivial)
    have hnone (q : Fin n) : ¬ (s.sched c).Has q := by
      rw [hs]
      exact id
    simp only [State.go, hs] at hstep
    split_ifs at hstep with hi hst
    · cases hstep
      obtain ⟨hoff, hfree⟩ := h.runnable_free hlock hnone hst
      refine h.cpu (k := .chosen ⟨i, hi⟩) rfl rfl (fun c' hc' => update_of_ne hc' _ _)
        (update_self ..) (Or.inl rfl) ⟨fun p => ⟨by simp, by simp⟩, fun _ => hlock⟩ hnone
        fun p hp => ?_
      obtain rfl : ⟨i, hi⟩ = p := hp
      exact ⟨rfl, hst, hoff, hfree⟩
    · cases hstep
      exact hmove h rfl rfl rfl (Or.inl rfl) (fun _ => hlock) (by rw [hs]; rfl) rfl
    · cases hstep
      exact hmove h rfl rfl rfl (Or.inr (Or.inr hlock)) (fun hf => hf.elim) (by rw [hs]; rfl) rfl
  | chosen p =>
    have hlock : s.lock = some c := h.crit c (by rw [State.InCrit, hs]; trivial)
    obtain ⟨hst, hoff⟩ := h.chosen c p hs
    simp only [State.go, hs] at hstep
    cases hstep
    have hnb : ¬ (s.proc p).pc.Busy := fun hb => by
      rw [(h.of_busy hb).1] at hst
      cases hst
    refine h.swtch (k := .switch p) hlock (by rw [hs]; rfl) (Or.inl rfl) rfl rfl rfl rfl
      (by simp [hst]) rfl ⟨fun hb => absurd hb hnb, fun _ => Or.inr rfl, fun r hr => ?_,
        fun hr => ?_, fun _ _ => (h.proc p).stack (by simp [hst]) (by simp [hst])⟩ ?_ fun _ => rfl
    · rw [show (s.proc p).pc = .sched r from hr] at hoff
      cases hoff
    · exact absurd ((h.proc p).exited hr) (by simp [hst])
    · simp [hoff]
  | switch p =>
    have hlock : s.lock = some c := h.crit c (by rw [State.InCrit, hs]; trivial)
    obtain ⟨hst, hoff⟩ := h.switch c p hs
    simp only [State.go, hs] at hstep
    split at hstep
    · cases hstep
      refine h.swtch (k := .running p) hlock (by rw [hs]; rfl) (Or.inr (Or.inl rfl)) rfl rfl rfl
        rfl (by simp [hst]) rfl
        (procOk_busy trivial hst ((h.proc p).stack (by simp [hst]) (by simp [hst])))
        (by simp [Pc.isOff]) fun he => ?_
      cases he
    · cases hstep
  | running p =>
    simp only [State.go, hs] at hstep
    exact inv_procStep h hs hstep
  | back p =>
    have hlock : s.lock = some c := h.crit c (by rw [State.InCrit, hs]; trivial)
    simp only [State.go, hs] at hstep
    cases hstep
    refine h.cpu (k := .scan (p + 1)) rfl rfl (fun c' hc' => update_of_ne hc' _ _)
      (update_self ..) (Or.inl rfl) ⟨fun q => ⟨by simp, by simp⟩, fun _ => hlock⟩
      (fun q hq => ?_) fun q hq => hq.elim
    rw [hs] at hq
    exact hq
  | intrWakeup chan =>
    have hlock : s.lock = some c := h.crit c (by rw [State.InCrit, hs]; trivial)
    simp only [State.go, hs] at hstep
    cases hstep
    exact hmove (h.wakeup1 chan) rfl rfl rfl (Or.inl rfl) (fun _ => hlock)
      (by rw [show (s.wakeup1 chan).sched c = _ from hs]; rfl) rfl
  | intrRelease =>
    simp only [State.go, hs] at hstep
    split_ifs at hstep with hheld
    cases hstep
    exact hmove h rfl rfl rfl (Or.inr (Or.inr hheld)) (fun hf => hf.elim) (by rw [hs]; rfl) rfl

/-- The start of a system call or interrupt keeps the invariant. -/
theorem inv_start {k : Crit n} (h : Inv s) (hstep : s.start c k = some t) : Inv t := by
  rw [State.start] at hstep
  split at hstep
  · rename_i p hc
    split_ifs at hstep with hcond
    cases hstep
    exact h.goOn hc (by rw [hcond.1]; trivial) rfl rfl rfl (Or.inl rfl) (fun hf => hf.elim) trivial
      rfl rfl (h.same_job hc rfl)
  · cases hstep

/-- A process ends its `fork` or `thread_create`; the slot it was making is nobody's. -/
theorem Inv.endJob {j : Job n} (h : Inv s) (hc : s.sched c = .running p)
    (hpc : (s.proc p).pc = .user) (hj : (s.proc p).job = some j) :
    Inv (s.setProc p { s.proc p with job := none }) ∧
      (s.setProc p { s.proc p with job := none }).proc j.np = s.proc j.np ∧
      ∀ q j', ((s.setProc p { s.proc p with job := none }).proc q).job = some j' →
        j'.np ≠ j.np := by
  have hb : (s.proc p).pc.Busy := by rw [hpc]; trivial
  have hnl : ¬ (s.proc p).pc.Locked := by rw [hpc]; exact id
  have hne := h.np_ne hj (h.state_of_on (h.on c p hc)).2
  refine ⟨?_, setProc_proc_of_ne hne, fun q j' hj' => ?_⟩
  · refine h.goOn hc hb rfl rfl rfl (Or.inl rfl) (fun hf => absurd hf hnl) hb rfl rfl
      fun j' hj' => ?_
    cases hj'
  · have hq : q ≠ p := by
      rintro rfl
      rw [setProc_proc_self] at hj'
      cases hj'
    rw [setProc_proc_of_ne hq] at hj'
    exact fun he => hq (h.jobs q p j' j hj' hj he)

/-- `allocproc` sets up the stack of a slot that no CPU executes. -/
theorem inv_stack {ok : Bool} (h : Inv s) (hstep : s.stack c ok = some t) : Inv t := by
  rw [State.stack] at hstep
  split at hstep
  · rename_i p hc
    split at hstep
    · rename_i np mk hpc hj
      have hold := h.job p _ hj
      have hne : np ≠ p := h.np_ne hj (h.state_of_on (h.on c p hc)).2
      cases ok with
      | true =>
        simp only [if_true] at hstep
        cases hstep
        have hu : Inv (s.setProc np
            { s.proc np with kstack := true, pc := .off .forkret, job := none }) :=
          h.other rfl rfl rfl rfl hold.off (by simp [hold.embryo]) (by simp [hold.embryo]) rfl
            (procOk_off rfl (Or.inr hold.embryo)) (Or.inr rfl)
            (Or.inr fun b hb => ⟨hb.embryo, rfl, fun _ => ⟨rfl, rfl⟩⟩)
        have hp := setProc_proc_of_ne (s := s)
          (v := { s.proc np with kstack := true, pc := .off .forkret, job := none }) hne.symm
        have hb : ((s.setProc np { s.proc np with
            kstack := true, pc := .off .forkret, job := none }).proc p).pc = .user := by
          rw [hp, hpc]
        refine hu.goOn hc (by rw [hb]; trivial) rfl rfl rfl (Or.inl rfl) (fun hf => ?_)
          (by simp only; rw [hb]; trivial) rfl rfl fun j hj' => ?_
        · simp only [hb] at hf
          exact hf.elim
        · cases hj'
          rw [setProc_proc_self]
          refine ⟨hne, ⟨hold.embryo, rfl, fun _ => ⟨rfl, rfl⟩⟩, fun q j' hq hjq he => hq ?_⟩
          have hqn : q ≠ np := by
            rintro rfl
            rw [setProc_proc_self] at hjq
            cases hjq
          rw [setProc_proc_of_ne hqn] at hjq
          exact h.jobs q p j' _ hjq hj he
      | false =>
        simp only [Bool.false_eq_true, if_false] at hstep
        cases hstep
        obtain ⟨hu, hnp, hfree⟩ := h.endJob hc hpc hj
        simp only at hnp hfree
        refine hu.other rfl rfl rfl rfl ?_ ?_ ?_ ?_ (procOk_off ?_ (Or.inl rfl)) (Or.inl rfl)
          (Or.inl hfree) <;> simp [hnp, hold.embryo, hold.off]
    · cases hstep
  · cases hstep

/-- The end of `fork` or `thread_create` makes a slot runnable that has its stack and context. -/
theorem inv_finish {pgdir : Option ℕ} (h : Inv s) (hstep : s.finish c pgdir = some t) : Inv t := by
  rw [State.finish] at hstep
  split at hstep
  · rename_i p hc
    split at hstep
    · rename_i np mk hpc hj
      have hold := h.job p _ hj
      obtain ⟨hkstack, hforkret⟩ := hold.stack rfl
      obtain ⟨hu, hnp, hfree⟩ := h.endJob hc hpc hj
      simp only at hstep hnp hfree
      split at hstep <;> cases hstep
      case h_1 | h_2 =>
        refine hu.other rfl rfl rfl rfl ?_ ?_ ?_ ?_ (procOk_forkret ?_ ?_ ?_) (Or.inl rfl)
          (Or.inl hfree) <;> simp [hnp, hold.embryo, hforkret, hkstack, Pc.isOff]
      case h_3 =>
        refine hu.other rfl rfl rfl rfl ?_ ?_ ?_ ?_ (procOk_off ?_ (Or.inl rfl)) (Or.inl rfl)
          (Or.inl hfree) <;> simp [hnp, hold.embryo, hold.off]
    · cases hstep
  · cases hstep

/-- An interrupt on an idle CPU keeps the invariant. -/
theorem inv_interrupt {chan : Chan n} (h : Inv s) (hstep : s.interrupt c chan = some t) :
    Inv t := by
  rw [State.interrupt] at hstep
  split at hstep
  · rename_i hs
    cases hstep
    refine h.cpu (k := .intrAcquire chan) rfl rfl (fun _ _ => rfl) ?_ (Or.inl rfl)
      ⟨fun p => ⟨by simp, by simp⟩, fun hf => hf.elim⟩ (fun p hp => ?_) fun p hp => hp.elim
    · have := h.cur c
      rw [hs] at this
      exact this
    · rw [hs] at hp
      exact hp
  · cases hstep

/-- **Every step keeps the invariant.** -/
theorem inv_next {a : Act n m} (h : Inv s) (hstep : s.next a = some t) : Inv t := by
  cases a with
  | go c => exact inv_go h hstep
  | start c k => exact inv_start h hstep
  | stack c ok => exact inv_stack h hstep
  | finish c pgdir => exact inv_finish h hstep
  | interrupt c chan => exact inv_interrupt h hstep

/-- The invariant after `userinit`. -/
theorem inv_boot (initproc : Fin n) (pgdir : ℕ) : Inv (boot initproc pgdir : State n m) := by
  have hpc (p : Fin n) : ((boot initproc pgdir : State n m).proc p).pc = .off .forkret := by
    rw [boot]
    simp only
    split_ifs <;> rfl
  have hjob (p : Fin n) : ((boot initproc pgdir : State n m).proc p).job = none := by
    rw [boot]
    simp only
    split_ifs <;> rfl
  refine ⟨fun c hc => hc.elim, fun _ => rfl, fun c p hc => ?_, fun p hp => ?_,
    fun c _ p hc => hc.elim, fun p => procOk_forkret (hpc p) (fun hr => ?_) fun h1 => ?_,
    fun c p hc => ?_, fun c p hc => ?_, fun c p hc => ?_, fun q j hj => ?_, fun q _ j _ hj => ?_⟩
  · cases hc
  · rw [hpc] at hp
    cases hp
  · rw [boot] at hr
    simp only at hr
    split_ifs at hr
  · rw [boot] at h1 ⊢
    simp only at h1 ⊢
    split_ifs at h1 ⊢
    · rfl
    · exact absurd rfl h1
  · cases hc
  · cases hc
  · cases hc
  · rw [hjob] at hj
    cases hj
  · rw [hjob] at hj
    cases hj

/-- The invariant in every reachable state. -/
theorem inv_reachable (h : (system n m).Reachable s) : Inv s := by
  refine h.invariant ?_ ?_
  · rintro _ ⟨initproc, pgdir, rfl⟩
    exact inv_boot initproc pgdir
  · intro _ a _ hs hstep
    exact inv_next hs hstep

/-! ### Single execution -/

/-- A process that some CPU has as its current process is executed by that CPU when no CPU holds
the lock. -/
theorem Inv.running_of_cur (h : Inv s) (hfree : s.lock = none) (hcur : s.cur c = some p) :
    s.sched c = .running p := by
  rw [h.cur] at hcur
  have hcrit : ¬ s.InCrit c := fun hc => by
    have := h.crit c hc
    rw [hfree] at this
    cases this
  cases hs : s.sched c with
  | running q =>
    rw [hs] at hcur
    rw [Option.some.inj hcur]
  | idle | intrAcquire chan => rw [hs] at hcur; cases hcur
  | _ => exact absurd (by rw [State.InCrit, hs]; trivial) hcrit

/-- A process that a CPU has as its current process and does not have any more is switched out, and
the CPU holds the lock. -/
theorem Inv.has_or_back (h : Inv s) (hcur : s.cur c = some p) :
    (s.sched c).Has p ∨ (s.sched c = .back p ∧ s.lock = some c ∧ (s.proc p).pc.isOff = true) := by
  rw [h.cur] at hcur
  cases hs : s.sched c with
  | chosen q | switch q | running q =>
    rw [hs] at hcur
    exact Or.inl (Option.some.inj hcur)
  | back q =>
    rw [hs] at hcur
    obtain rfl := Option.some.inj hcur
    exact Or.inr ⟨rfl, h.crit c (by rw [State.InCrit, hs]; trivial), h.back c q hs⟩
  | _ => rw [hs] at hcur; cases hcur

/-- A CPU that has the process without the lock executes it. -/
theorem Inv.on_of_has (h : Inv s) (hhas : (s.sched c).Has p) (hlock : s.lock ≠ some c) :
    (s.proc p).pc.isOff = false := by
  have hcrit : ¬ s.InCrit c := fun hc => hlock (h.crit c hc)
  cases hs : s.sched c with
  | running q =>
    rw [hs] at hhas
    obtain rfl : q = p := hhas
    exact h.on c q hs
  | chosen q | switch q => exact absurd (by rw [State.InCrit, hs]; trivial) hcrit
  | _ => rw [hs] at hhas; exact hhas.elim

/-- No process is the current one of two CPUs. -/
theorem Inv.cur_uniq {c' : Fin m} (h : Inv s) (hc : s.cur c = some p) (hc' : s.cur c' = some p) :
    c = c' := by
  by_contra hne
  have hmix {a b : Fin m} (hab : a ≠ b) (ha : (s.sched a).Has p) (hl : s.lock = some b)
      (hoff : (s.proc p).pc.isOff = true) : False := by
    have hlock : s.lock ≠ some a := fun he => hab (Option.some.inj (he.symm.trans hl))
    rw [h.on_of_has ha hlock] at hoff
    cases hoff
  rcases h.has_or_back hc with h1 | ⟨-, h1, h1'⟩ <;>
    rcases h.has_or_back hc' with h2 | ⟨-, h2, h2'⟩
  · exact hne (h.uniq c c' p h1 h2)
  · exact hmix hne h1 h2 h2'
  · exact hmix (Ne.symm hne) h2 h1 h1'
  · exact hne (Option.some.inj (h1.symm.trans h2))

/-- **A process is executed by at most one CPU.** When `ptable.lock` is free, the processes that are
`RUNNING` are those that some CPU has as its current process; no process is ever the current one of
two CPUs; a process that executes has its kernel stack; and a child whose stack `wait` or
`thread_join` is about to free is not executed by any CPU, nor is it the current process of one. -/
theorem single_execution (h : (system n m).Reachable s) :
    (s.lock = none → ∀ p, (s.proc p).state = .running ↔ ∃! c, s.cur c = some p) ∧
      (∀ c c' p, s.cur c = some p → s.cur c' = some p → c = c') ∧
      (∀ c p, s.sched c = .running p → (s.proc p).kstack = true) ∧
      ∀ c q p join, s.sched c = .running q → (s.proc q).pc = .crit (.wait join) →
        Ptable.findZombie join s.slots q = some p →
          ∀ c', s.sched c' ≠ .running p ∧ s.cur c' ≠ some p := by
  have hinv := inv_reachable h
  refine ⟨fun hfree p => ⟨fun hrun => ?_, fun ⟨c, hc, _⟩ => ?_⟩, fun c c' p => hinv.cur_uniq,
    fun c p hc => ?_, fun c q p join hc hpc hz => ?_⟩
  · -- no CPU is about to switch to it, so that it is on a CPU
    have hon : (s.proc p).pc.isOff = false := by
      rcases (hinv.proc p).running hrun with hb | ⟨c, hc⟩
      · cases hpc : (s.proc p).pc <;> rw [hpc] at hb <;> first | rfl | exact hb.elim
      · have := hinv.crit c (by rw [State.InCrit, hc]; trivial)
        rw [hfree] at this
        cases this
    obtain ⟨c, hc⟩ := hinv.home p hon
    have hcur : s.cur c = some p := by rw [hinv.cur, hc]; rfl
    exact ⟨c, hcur, fun c' hc' => hinv.cur_uniq hc' hcur⟩
  · have hs := hinv.running_of_cur hfree hc
    by_contra hst
    have hheld := hinv.lock_of_running hs (hinv.locked_of_on (hinv.on c p hs) hst)
    rw [hfree] at hheld
    cases hheld
  · obtain ⟨h1, h2⟩ := hinv.state_of_on (hinv.on c p hc)
    exact (hinv.proc p).stack h1 h2
  · have hlock := hinv.lock_of_running hc (by rw [hpc]; trivial)
    have hzombie : (s.proc p).state = .zombie := (Ptable.findZombie_spec hz).2.2
    have hoff := hinv.zombie_off hc (by rw [hpc]; trivial) hlock hzombie
    have hrunning (c' : Fin m) : s.sched c' ≠ .running p := fun hc' => by
      rw [hinv.on c' p hc'] at hoff
      cases hoff
    refine fun c' => ⟨hrunning c', fun hcur => ?_⟩
    rcases hinv.has_or_back hcur with hhas | ⟨hback, hheld, -⟩
    · cases hs : s.sched c' with
      | running a =>
        rw [hs] at hhas
        obtain rfl : a = p := hhas
        exact hrunning c' hs
      | chosen a =>
        rw [hs] at hhas
        obtain rfl : a = p := hhas
        rw [(hinv.chosen c' a hs).1] at hzombie
        cases hzombie
      | switch a =>
        rw [hs] at hhas
        obtain rfl : a = p := hhas
        rw [(hinv.switch c' a hs).1] at hzombie
        cases hzombie
      | _ => rw [hs] at hhas; exact hhas
    · obtain rfl := Option.some.inj (hheld.symm.trans hlock)
      rw [hc] at hback
      cases hback

end Lemmas

end Model

/-- `init` forks on the first CPU, the child exits on the second one, and `init` waits for it: first
with the lock free, then inside `wait`. -/
theorem single_execution_wait : ∃ s t : State 2 2, (system 2 2).Reachable s ∧
    (system 2 2).Reachable t ∧ s.lock = none ∧ (s.proc 0).state = .running ∧
    (∃! c, s.cur c = some 0) ∧ t.sched 0 = .running 0 ∧ (t.proc 0).pc = .crit (.wait false) ∧
    Ptable.findZombie false t.slots 0 = some 1 ∧
    ∀ c, t.sched c ≠ .running 1 ∧ t.cur c ≠ some 1 := by
  have hstep (s : State 2 2) (a : Act 2 2) (t : State 2 2) (h : s.next a = some t) :
      (system 2 2).step s a t := h
  obtain ⟨s, hs, hfree, hrun, t, ht, hc, hpc, hz⟩ : ∃ s : State 2 2,
      [Act.go 0, .go 0, .go 0, .go 0, .go 0, .go 0, .start 0 (.alloc .fork), .go 0, .go 0, .go 0,
        .stack 0 true, .finish 0 (some 1), .go 1, .go 1, .go 1, .go 1, .go 1, .go 1, .go 1,
        .start 1 .exit, .go 1, .go 1, .go 1, .go 1, .go 1].foldlM State.next (boot 0 0) = some s ∧
      s.lock = none ∧ (s.proc 0).state = .running ∧ ∃ t : State 2 2,
      [Act.start 0 (.wait false), .go 0].foldlM State.next s = some t ∧
      t.sched 0 = .running 0 ∧ (t.proc 0).pc = .crit (.wait false) ∧
      Ptable.findZombie false t.slots 0 = some 1 := ⟨_, rfl, rfl, rfl, _, rfl, rfl, rfl, rfl⟩
  have hreach : (system 2 2).Reachable s := .foldlM hstep (.init ⟨0, 0, rfl⟩) hs
  have hreach' : (system 2 2).Reachable t := .foldlM hstep hreach ht
  exact ⟨s, t, hreach, hreach', hfree, hrun, ((single_execution hreach).1 hfree 0).mp hrun, hc, hpc,
    hz, (single_execution hreach').2.2.2 0 0 1 false hc hpc hz⟩

end Xv6.Scheduler
