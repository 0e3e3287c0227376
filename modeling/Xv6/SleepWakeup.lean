import Xv6.Transition

/-!
# Sleep and Wakeup

The conditional wait of `proc.c`: any number of processes wait with
`acquire(lk); while(!cond) sleep(chan, lk)`, any number of wakers set `cond` while they
hold `lk` and call `wakeup(chan)` before or after they release it, and any number of CPUs
run `scheduler`. Every lock operation, every store to `chan`, `state` and `cond`, every
test and every context switch is one step, so that all interleavings are runs.

The lock `lk` is a parameter: when it is `ptable.lock` itself, `sleep` skips its own lock
operations, as the code does. A spinlock records who holds it; `sched` leaves
`ptable.lock` to the scheduler of the CPU and the scheduler passes it on to the process it
switches to.

## Main results

* `inv_step`: the invariant `Inv` is preserved by every step. Its core is that a process on
  its way to sleep has either found `cond` false under `lk`, or some waker that has set
  `cond` since still has its whole scan of the process table ahead.
* `no_lost_wakeup`: **a process that sleeps on `chan` while `cond` holds is owed a
  wakeup** by a waker that has set `cond` and has not finished `wakeup(chan)`.
-/

open Transition
open Function (update update_apply update_of_ne)

namespace Xv6.SleepWakeup

/-- The two locks of the discipline. -/
inductive LockId
  | ptable
  | other
  deriving DecidableEq, Repr

/-- `enum procstate` (`proc.h`), less the states no process of the discipline takes. -/
inductive ProcState
  | sleeping
  | runnable
  | running
  deriving DecidableEq, Repr

/-- Where a waker calls `wakeup(chan)`: before or after `release(lk)`. -/
inductive Order
  | before
  | after
  deriving DecidableEq, Repr

/-- The next action of a process. -/
inductive Pc
  /-- outside the discipline, free to start waiting or waking -/
  | user
  /-- `acquire(lk)` of a waiter -/
  | waitAcquire
  /-- `while(!cond)` -/
  | waitTest
  /-- past the loop, with `lk` held and `cond` true when it was tested -/
  | waitDone
  /-- `sleep`: `acquire(&ptable.lock)` -/
  | sleepAcquire
  /-- `sleep`: `release(lk)` -/
  | sleepRelease
  /-- `sleep`: `proc->chan = chan` -/
  | sleepChan
  /-- `sleep`: `proc->state = SLEEPING` -/
  | sleepState
  /-- `sleep`: `sched()` -/
  | sleepSched
  /-- `sleep`: switched out inside `sched` -/
  | asleep
  /-- `sleep`: `proc->chan = 0` -/
  | sleepTidy
  /-- `sleep`: `release(&ptable.lock)` -/
  | sleepUnlock
  /-- `sleep`: `acquire(lk)` again -/
  | sleepReacquire
  /-- `acquire(lk)` of a waker -/
  | wakeAcquire (o : Order)
  /-- the waker sets `cond` -/
  | wakeSet (o : Order)
  /-- `release(lk)` of a waker that calls `wakeup` after it -/
  | wakeReleaseFirst
  /-- `wakeup`: `acquire(&ptable.lock)` -/
  | wakeupAcquire (o : Order)
  /-- `wakeup1`: the scan has reached slot `i` -/
  | wakeupScan (o : Order) (i : ℕ)
  /-- `wakeup`: `release(&ptable.lock)` -/
  | wakeupRelease (o : Order)
  /-- `release(lk)` of a waker that called `wakeup` before it -/
  | wakeReleaseLast
  deriving DecidableEq, Repr

/-- A timer interrupt makes a process that holds no lock run `yield`. -/
inductive Yield
  /-- not in `yield` -/
  | none
  /-- `acquire(&ptable.lock)` -/
  | acquire
  /-- `proc->state = RUNNABLE` -/
  | state
  /-- `sched()` -/
  | sched
  /-- switched out inside `sched` -/
  | off
  /-- `release(&ptable.lock)`; `forkret` does the same on the first run of a process -/
  | release
  deriving DecidableEq, Repr

/-- A slot of the process table with the control state of its process. Channels are
addresses; `chan` is zero when the process sleeps on none. -/
structure Proc where
  state : ProcState
  chan : ℕ
  pc : Pc
  yield : Yield

/-- The scheduler of a CPU. -/
inductive Cpu (n : ℕ)
  /-- `acquire(&ptable.lock)` is next -/
  | idle
  /-- looping over the table with `ptable.lock` held -/
  | choosing
  /-- switched to process `p` -/
  | running (p : Fin n)
  deriving DecidableEq, Repr

/-- Who holds a spinlock. -/
inductive Holder (n m : ℕ)
  | proc (p : Fin n)
  | cpu (c : Fin m)
  deriving DecidableEq, Repr

/-- A state of `n` processes on `m` CPUs. -/
structure State (n m : ℕ) where
  proc : Fin n → Proc
  cpu : Fin m → Cpu n
  lock : LockId → Option (Holder n m)
  cond : Bool

/-- What the actor of a step is: a process, a CPU's scheduler, or `kill`. -/
inductive Actor (n m : ℕ)
  | proc (p : Fin n)
  | cpu (c : Fin m)
  | kill (p : Fin n)

section Model

variable {n m : ℕ}

/-- Change the process in slot `p`. -/
def State.setProc (s : State n m) (p : Fin n) (f : Proc → Proc) :
    State n m :=
  { s with proc := update s.proc p (f (s.proc p)) }

/-- Change who holds the lock `l`. -/
def State.setLock (s : State n m) (l : LockId) (h : Option (Holder n m)) :
    State n m :=
  { s with lock := update s.lock l h }

/-- Change the scheduler of CPU `c`. -/
def State.setCpu (s : State n m) (c : Fin m) (k : Cpu n) : State n m :=
  { s with cpu := update s.cpu c k }

/-- The lock that an `acquire` takes, and what follows. -/
def Pc.acquires (lk : LockId) : Pc → Option (LockId × Pc)
  | .waitAcquire => some (lk, .waitTest)
  | .sleepAcquire => some (.ptable, .sleepRelease)
  | .sleepReacquire => some (lk, .waitTest)
  | .wakeAcquire o => some (lk, .wakeSet o)
  | .wakeupAcquire o => some (.ptable, .wakeupScan o 0)
  | _ => none

/-- The lock that a `release` frees, and what follows. -/
def Pc.releases (lk : LockId) : Pc → Option (LockId × Pc)
  | .waitDone => some (lk, .user)
  | .sleepRelease => some (lk, .sleepChan)
  | .sleepUnlock => some (.ptable, .sleepReacquire)
  | .wakeReleaseFirst => some (lk, .wakeupAcquire .after)
  | .wakeupRelease .before => some (.ptable, .wakeReleaseLast)
  | .wakeupRelease .after => some (.ptable, .user)
  | .wakeReleaseLast => some (lk, .user)
  | _ => none

/-- Where `while(!cond)` goes when `cond` is false: into `sleep`, which takes
`ptable.lock` unless it is `lk`. -/
def Pc.enterSleep (lk : LockId) : Pc :=
  if lk = .ptable then .sleepChan else .sleepAcquire

/-- Where `sleep` goes after `proc->chan = 0`: it trades `ptable.lock` for `lk` unless they
are the same. -/
def Pc.leaveSleep (lk : LockId) : Pc :=
  if lk = .ptable then .waitTest else .sleepUnlock

/-- Where a waker goes once `cond` is set. -/
def Pc.afterSet : Order → Pc
  | .before => .wakeupAcquire .before
  | .after => .wakeReleaseFirst

/-- The points of the discipline at which a process holds no lock, so that a timer
interrupt can make it yield. -/
def Pc.interruptible : Pc → Bool
  | .user | .waitAcquire | .sleepReacquire | .wakeAcquire _ | .wakeupAcquire .after => true
  | _ => false

/-- Process `p` runs on some CPU and is not inside `yield`. -/
def State.Running (s : State n m) (p : Fin n) : Prop :=
  (∃ c, s.cpu c = .running p) ∧ (s.proc p).yield = .none

/-- The body of the loop of `wakeup1` at one slot. -/
def wakeSlot (chan : ℕ) (p : Proc) : Proc :=
  if p.state = .sleeping ∧ p.chan = chan then { p with state := .runnable } else p

/-- The steps of the discipline on the channel `chan` with the lock `lk`. -/
inductive Step (lk : LockId) (chan : ℕ) :
    State n m → Actor n m → State n m → Prop
  | start {s p} (pc : Pc) : s.Running p → (s.proc p).pc = .user →
      (pc = .waitAcquire ∨ ∃ o, pc = .wakeAcquire o) →
      Step lk chan s (.proc p) (s.setProc p fun q => { q with pc := pc })
  | acquire {s p l pc} : s.Running p → (s.proc p).pc.acquires lk = some (l, pc) →
      s.lock l = none →
      Step lk chan s (.proc p)
        ((s.setLock l (some (.proc p))).setProc p fun q => { q with pc := pc })
  | release {s p l pc} : s.Running p → (s.proc p).pc.releases lk = some (l, pc) →
      Step lk chan s (.proc p) ((s.setLock l none).setProc p fun q => { q with pc := pc })
  | testTrue {s p} : s.Running p → (s.proc p).pc = .waitTest → s.cond = true →
      Step lk chan s (.proc p) (s.setProc p fun q => { q with pc := .waitDone })
  | testFalse {s p} : s.Running p → (s.proc p).pc = .waitTest → s.cond = false →
      Step lk chan s (.proc p) (s.setProc p fun q => { q with pc := Pc.enterSleep lk })
  /-- a waiter past its loop may consume what it waited for -/
  | consume {s p} : s.Running p → (s.proc p).pc = .waitDone →
      Step lk chan s (.proc p) { s with cond := false }
  | setChan {s p} : s.Running p → (s.proc p).pc = .sleepChan →
      Step lk chan s (.proc p)
        (s.setProc p fun q => { q with chan := chan, pc := .sleepState })
  | setSleeping {s p} : s.Running p → (s.proc p).pc = .sleepState →
      Step lk chan s (.proc p)
        (s.setProc p fun q => { q with state := .sleeping, pc := .sleepSched })
  /-- `swtch` to the scheduler, which now holds `ptable.lock` -/
  | sched {s p c} : s.cpu c = .running p → (s.proc p).yield = .none →
      (s.proc p).pc = .sleepSched →
      Step lk chan s (.proc p)
        (((s.setCpu c .choosing).setLock .ptable (some (.cpu c))).setProc p
          fun q => { q with pc := .asleep })
  | tidy {s p} : s.Running p → (s.proc p).pc = .sleepTidy →
      Step lk chan s (.proc p)
        (s.setProc p fun q => { q with chan := 0, pc := Pc.leaveSleep lk })
  | setCond {s p o} : s.Running p → (s.proc p).pc = .wakeSet o →
      Step lk chan s (.proc p)
        { s.setProc p fun q => { q with pc := Pc.afterSet o } with cond := true }
  | scan {s p o} {i : Fin n} : s.Running p → (s.proc p).pc = .wakeupScan o i →
      Step lk chan s (.proc p)
        ((s.setProc i (wakeSlot chan)).setProc p
          fun q => { q with pc := .wakeupScan o (i + 1) })
  | scanEnd {s p o i} : s.Running p → (s.proc p).pc = .wakeupScan o i → n ≤ i →
      Step lk chan s (.proc p) (s.setProc p fun q => { q with pc := .wakeupRelease o })
  | interrupt {s p} : s.Running p → (s.proc p).pc.interruptible →
      Step lk chan s (.proc p) (s.setProc p fun q => { q with yield := .acquire })
  | yieldAcquire {s p} : (∃ c, s.cpu c = .running p) → (s.proc p).yield = .acquire →
      s.lock .ptable = none →
      Step lk chan s (.proc p)
        ((s.setLock .ptable (some (.proc p))).setProc p fun q => { q with yield := .state })
  | yieldState {s p} : (∃ c, s.cpu c = .running p) → (s.proc p).yield = .state →
      Step lk chan s (.proc p)
        (s.setProc p fun q => { q with state := .runnable, yield := .sched })
  | yieldSched {s p c} : s.cpu c = .running p → (s.proc p).yield = .sched →
      Step lk chan s (.proc p)
        (((s.setCpu c .choosing).setLock .ptable (some (.cpu c))).setProc p
          fun q => { q with yield := .off })
  | yieldRelease {s p} : (∃ c, s.cpu c = .running p) → (s.proc p).yield = .release →
      Step lk chan s (.proc p)
        ((s.setLock .ptable none).setProc p fun q => { q with yield := .none })
  | schedAcquire {s c} : s.cpu c = .idle → s.lock .ptable = none →
      Step lk chan s (.cpu c) ((s.setCpu c .choosing).setLock .ptable (some (.cpu c)))
  | schedRelease {s c} : s.cpu c = .choosing → s.lock .ptable = some (.cpu c) →
      Step lk chan s (.cpu c) ((s.setCpu c .idle).setLock .ptable none)
  /-- `swtch` to a process that went to sleep: it resumes after its `sched` -/
  | resume {s c p} : s.cpu c = .choosing → s.lock .ptable = some (.cpu c) →
      (s.proc p).state = .runnable → (s.proc p).pc = .asleep →
      Step lk chan s (.cpu c)
        (((s.setCpu c (.running p)).setLock .ptable (some (.proc p))).setProc p
          fun q => { q with state := .running, pc := .sleepTidy })
  /-- `swtch` to a process that yielded, or to a new one -/
  | resumeYield {s c p} : s.cpu c = .choosing → s.lock .ptable = some (.cpu c) →
      (s.proc p).state = .runnable → (s.proc p).yield = .off →
      Step lk chan s (.cpu c)
        (((s.setCpu c (.running p)).setLock .ptable (some (.proc p))).setProc p
          fun q => { q with state := .running, yield := .release })
  /-- `kill` makes a sleeping process runnable, inside its own critical section -/
  | kill {s p} : s.lock .ptable = none → (s.proc p).state = .sleeping →
      Step lk chan s (.kill p) (s.setProc p fun q => { q with state := .runnable })

/-- Initially no lock is held, every CPU is idle and every process is new: runnable, to be
switched to for the first time. -/
def Init (s : State n m) : Prop :=
  (∀ l, s.lock l = none) ∧ (∀ c, s.cpu c = .idle) ∧
    ∀ p, (s.proc p).state = .runnable ∧ (s.proc p).pc = .user ∧ (s.proc p).yield = .off

/-- The transition system of the discipline. -/
def system (lk : LockId) (chan : ℕ) (n m : ℕ) :
    System (State n m) (Actor n m) where
  init := Init
  step := Step lk chan

/-! ### The invariant -/

/-- The locks held at each point of the discipline. -/
def Pc.Holds (lk : LockId) : Pc → LockId → Prop
  | .user, _ | .waitAcquire, _ | .asleep, _ | .sleepReacquire, _ | .wakeAcquire _, _
  | .wakeupAcquire .after, _ => False
  | .waitTest, l | .waitDone, l | .sleepAcquire, l | .wakeSet _, l | .wakeReleaseFirst, l
  | .wakeupAcquire .before, l | .wakeReleaseLast, l => l = lk
  | .sleepRelease, l | .wakeupScan .before _, l | .wakeupRelease .before, l =>
    l = lk ∨ l = .ptable
  | .sleepChan, l | .sleepState, l | .sleepSched, l | .sleepTidy, l | .sleepUnlock, l
  | .wakeupScan .after _, l | .wakeupRelease .after, l => l = .ptable

/-- The locks held by a process, `yield` included. -/
def Proc.Holds (lk : LockId) (q : Proc) (l : LockId) : Prop :=
  q.pc.Holds lk l ∨
    (l = .ptable ∧ (q.yield = .state ∨ q.yield = .sched ∨ q.yield = .release))

/-- The points that are reached only when `lk` is not `ptable.lock`. -/
@[simp] def Pc.Distinct : Pc → Prop
  | .sleepAcquire | .sleepRelease | .sleepUnlock | .sleepReacquire | .wakeupScan .before _
  | .wakeupRelease .before => True
  | _ => False

/-- The window of `sleep` between giving up `lk` and being `SLEEPING`. -/
@[simp] def Pc.InWindow (pc : Pc) : Prop := pc = .sleepChan ∨ pc = .sleepState

/-- A waker that has set `cond` and has not begun to scan the process table. -/
@[simp] def Pc.Unstarted (pc : Pc) : Prop := pc = .wakeReleaseFirst ∨ ∃ o, pc = .wakeupAcquire o

/-- A waker that has set `cond` and whose scan has not passed slot `j`. -/
@[simp] def Pc.Owes (pc : Pc) (j : ℕ) : Prop :=
  pc.Unstarted ∨ ∃ o i, pc = .wakeupScan o i ∧ i ≤ j

/-- **The invariant** of the discipline. -/
structure Inv (lk : LockId) (chan : ℕ) (s : State n m) : Prop where
  /-- a lock is held by the processes at the points that hold it -/
  lock : ∀ l p, s.lock l = some (.proc p) ↔ (s.proc p).Holds lk l
  /-- `yield` runs only at points without a lock -/
  yield : ∀ p, (s.proc p).yield ≠ .none → (s.proc p).pc.interruptible
  distinct : ∀ p, (s.proc p).pc.Distinct → lk ≠ .ptable
  /-- sleeping processes are inside `sleep`, on `chan` -/
  inSleep : ∀ p, (s.proc p).state = .sleeping →
    (s.proc p).pc = .sleepSched ∨ (s.proc p).pc = .asleep
  chan : ∀ p, (s.proc p).pc = .sleepState ∨ (s.proc p).pc = .sleepSched ∨
    (s.proc p).pc = .asleep → (s.proc p).chan = chan
  /-- a process about to sleep that still holds `lk` has found `cond` false -/
  tested : ∀ p, (s.proc p).pc = .sleepAcquire ∨ (s.proc p).pc = .sleepRelease →
    s.cond = false
  /-- a `cond` set inside the window of `sleep` comes with a whole scan -/
  window : ∀ p, (s.proc p).pc.InWindow → s.cond = true → ∃ k, (s.proc k).pc.Unstarted
  /-- a sleeping process is owed a wakeup while `cond` holds -/
  owed : ∀ p, (s.proc p).state = .sleeping → s.cond = true →
    ∃ k, (s.proc k).pc.Owes p

/-! ### Locks -/

section Locks

variable {lk : LockId} {s t : State n m} {p : Fin n} {q : Proc}

/-- Locks are held exactly at the points that hold them. -/
def LockInv (lk : LockId) (s : State n m) : Prop :=
  ∀ l p, s.lock l = some (.proc p) ↔ (s.proc p).Holds lk l

/-- Process `p` changes, and with it who holds the locks that it has or had. -/
theorem LockInv.change (h : LockInv lk s) (hproc : t.proc = update s.proc p q)
    (hother : ∀ l r, r ≠ p → (t.lock l = some (.proc r) ↔ s.lock l = some (.proc r)))
    (hself : ∀ l, t.lock l = some (.proc p) ↔ q.Holds lk l) : LockInv lk t := by
  intro l r
  rw [hproc, update_apply]
  split_ifs with hr
  · rw [hr]
    exact hself l
  · rw [hother l r hr]
    exact h l r

/-- A step that touches no lock. -/
theorem LockInv.keep (h : LockInv lk s) (hproc : t.proc = update s.proc p q)
    (hlock : t.lock = s.lock) (hq : ∀ l, q.Holds lk l ↔ (s.proc p).Holds lk l) :
    LockInv lk t :=
  h.change hproc (fun l r _ => by rw [hlock]) fun l => by rw [hlock, hq, h l p]

variable {l : LockId} {x : Option (Holder n m)}

/-- A lock that no process holds passes to process `p`. -/
theorem LockInv.take (h : LockInv lk s) (hfree : ∀ r, s.lock l ≠ some (.proc r))
    (hproc : t.proc = update s.proc p q) (hlock : t.lock = update s.lock l (some (.proc p)))
    (hq : ∀ l', q.Holds lk l' ↔ (s.proc p).Holds lk l' ∨ l' = l) : LockInv lk t := by
  refine h.change hproc (fun l' r hr => ?_) fun l' => ?_
  · rw [hlock, update_apply]
    split_ifs with hl
    · simp [hl, hfree, Ne.symm hr]
    · rfl
  · rw [hq, hlock, update_apply]
    split_ifs with hl
    · simp [hl]
    · rw [or_iff_left hl, h l' p]

/-- A lock that process `p` holds becomes free, or passes to a scheduler. -/
theorem LockInv.give (h : LockInv lk s) (hx : ∀ r, x ≠ some (.proc r))
    (hheld : (s.proc p).Holds lk l) (hproc : t.proc = update s.proc p q)
    (hlock : t.lock = update s.lock l x)
    (hq : ∀ l', q.Holds lk l' ↔ (s.proc p).Holds lk l' ∧ l' ≠ l) : LockInv lk t := by
  refine h.change hproc (fun l' r hr => ?_) fun l' => ?_
  · rw [hlock, update_apply]
    split_ifs with hl
    · simp [hl, hx, (h l p).mpr hheld, Ne.symm hr]
    · rfl
  · rw [hq, hlock, update_apply]
    split_ifs with hl
    · simp [hl, hx]
    · rw [and_iff_left hl, h l' p]

/-- A lock moves between the schedulers and nobody. -/
theorem LockInv.sched (h : LockInv lk s) (hfree : ∀ r, s.lock l ≠ some (.proc r))
    (hx : ∀ r, x ≠ some (.proc r)) (hproc : t.proc = s.proc) (hlock : t.lock = update s.lock l x) :
    LockInv lk t := by
  intro l' r
  rw [hlock, hproc, update_apply]
  split_ifs with hl
  · rw [← h l' r, hl]
    exact iff_of_false (hx r) (hfree r)
  · exact h l' r

/-- Two processes do not hold one lock. -/
theorem LockInv.eq_of_holds (h : LockInv lk s) {r : Fin n} (hp : (s.proc p).Holds lk l)
    (hr : (s.proc r).Holds lk l) : p = r := by
  have h1 := (h l p).mpr hp
  rw [(h l r).mpr hr] at h1
  simpa using h1.symm

end Locks

/-! ### One step -/

section Step

variable {lk : LockId} {chan : ℕ} {s t : State n m} {p : Fin n} {q : Proc}

/-- A witness among the processes survives the update of one of them that keeps it. -/
theorem exists_update {P : Proc → Prop} (hproc : t.proc = update s.proc p q)
    (hkeep : P (s.proc p) → P q) (h : ∃ k, P (s.proc k)) : ∃ k, P (t.proc k) := by
  obtain ⟨k, hk⟩ := h
  refine ⟨k, ?_⟩
  rw [hproc, update_apply]
  split_ifs with hkp
  · exact hkeep (hkp ▸ hk)
  · exact hk

/-- **The update rule**: what one process has to establish when it moves from `s.proc p` to
`q` and `cond` stays as it is. -/
theorem Inv.change (h : Inv lk chan s) (hproc : t.proc = update s.proc p q)
    (hcond : t.cond = s.cond) (hlock : LockInv lk t)
    (hyield : q.yield ≠ .none → q.pc.interruptible)
    (hdistinct : q.pc.Distinct → lk ≠ .ptable)
    (hin : q.state = .sleeping → q.pc = .sleepSched ∨ q.pc = .asleep)
    (hchan : q.pc = .sleepState ∨ q.pc = .sleepSched ∨ q.pc = .asleep → q.chan = chan)
    (htested : q.pc = .sleepAcquire ∨ q.pc = .sleepRelease → s.cond = false)
    (hwindow : q.pc.InWindow → s.cond = true → ∃ k, (s.proc k).pc.Unstarted)
    (hun : (s.proc p).pc.Unstarted → q.pc.Unstarted ∨ ∀ r, ¬ (t.proc r).pc.InWindow)
    (howed : q.state = .sleeping → s.cond = true → ∃ k, (s.proc k).pc.Owes p)
    (hkeep : ∀ r, (t.proc r).state = .sleeping → (s.proc p).pc.Owes r → q.pc.Owes r) :
    Inv lk chan t := by
  have hupd (r : Fin n) : t.proc r = if r = p then q else s.proc r := by rw [hproc, update_apply]
  refine ⟨hlock, fun r => ?_, fun r => ?_, fun r => ?_, fun r => ?_, fun r => ?_,
    fun r hr hc => ?_, fun r hr hc => ?_⟩
  · rw [hupd]
    split_ifs
    · exact hyield
    · exact h.yield r
  · rw [hupd]
    split_ifs
    · exact hdistinct
    · exact h.distinct r
  · rw [hupd]
    split_ifs
    · exact hin
    · exact h.inSleep r
  · rw [hupd]
    split_ifs
    · exact hchan
    · exact h.chan r
  · rw [hcond, hupd]
    split_ifs
    · exact htested
    · exact h.tested r
  · rw [hcond] at hc
    have hs : ∃ k, (s.proc k).pc.Unstarted := by
      rw [hupd] at hr
      split_ifs at hr
      · exact hwindow hr hc
      · exact h.window r hr hc
    refine exists_update (P := fun q => q.pc.Unstarted) hproc (fun hp => ?_) hs
    exact (hun hp).resolve_right fun hall => hall r hr
  · rw [hcond] at hc
    have hs : ∃ k, (s.proc k).pc.Owes r := by
      rw [hupd] at hr
      split_ifs at hr with hrp
      · exact hrp ▸ howed hr hc
      · exact h.owed r hr hc
    exact exists_update (P := fun q => q.pc.Owes r) hproc (hkeep r hr) hs

/-- The update rule for a process that only moves to another point, awake before and
after. -/
theorem Inv.move (h : Inv lk chan s) {b : Pc}
    (hproc : t.proc = update s.proc p { s.proc p with pc := b })
    (hcond : t.cond = s.cond) (hlock : LockInv lk t) (hy : (s.proc p).yield = .none)
    (hs : (s.proc p).state ≠ .sleeping) (hdistinct : b.Distinct → lk ≠ .ptable)
    (hb : b ≠ .sleepState ∧ b ≠ .sleepSched ∧ b ≠ .asleep)
    (htested : b = .sleepAcquire ∨ b = .sleepRelease → s.cond = false)
    (hwindow : b.InWindow → s.cond = true → ∃ k, (s.proc k).pc.Unstarted)
    (hun : (s.proc p).pc.Unstarted → b.Unstarted ∨ ∀ r, ¬ (t.proc r).pc.InWindow)
    (hkeep : ∀ r : Fin n, (t.proc r).state = .sleeping → (s.proc p).pc.Owes r → b.Owes r) :
    Inv lk chan t := by
  refine h.change hproc hcond hlock (fun hne => absurd hy hne) hdistinct
    (fun hc => absurd hc hs) ?_ htested hwindow hun (fun hc => absurd hc hs) hkeep
  rintro (hc | hc | hc)
  · exact absurd hc hb.1
  · exact absurd hc hb.2.1
  · exact absurd hc hb.2.2

/-- A process outside `sleep` is awake. -/
theorem Inv.awake (h : Inv lk chan s) (h1 : (s.proc p).pc ≠ .sleepSched)
    (h2 : (s.proc p).pc ≠ .asleep) : (s.proc p).state ≠ .sleeping := by
  intro hs
  rcases h.inSleep p hs with hc | hc
  · exact h1 hc
  · exact h2 hc

/-- While `ptable.lock` is free no process is inside the window of `sleep`. -/
theorem Inv.no_window (h : Inv lk chan s) (hfree : ∀ r, s.lock .ptable ≠ some (.proc r))
    (r : Fin n) : ¬ (s.proc r).pc.InWindow := by
  intro hw
  refine hfree r ((h.lock .ptable r).mpr (Or.inl ?_))
  rcases hw with hw | hw <;> rw [hw] <;> rfl

/-- `acquire` preserves the invariant. -/
theorem Inv.acquire {l : LockId} {b : Pc} (h : Inv lk chan s) (hy : (s.proc p).yield = .none)
    (hpc : (s.proc p).pc.acquires lk = some (l, b)) (hl : s.lock l = none) :
    Inv lk chan ((s.setLock l (some (.proc p))).setProc p fun q => { q with pc := b }) := by
  have hfree : ∀ r, s.lock l ≠ some (.proc r) := fun r => by simp [hl]
  have htake : (∀ l', b.Holds lk l' ↔ (s.proc p).pc.Holds lk l' ∨ l' = l) →
      LockInv lk ((s.setLock l (some (.proc p))).setProc p fun q => { q with pc := b }) := by
    intro hq
    refine LockInv.take h.lock hfree rfl rfl fun l' => ?_
    simp [Proc.Holds, State.setLock, hy, hq l']
  cases hc : (s.proc p).pc with
  | waitAcquire | sleepReacquire | wakeAcquire _ =>
    rw [hc] at hpc
    cases hpc
    refine h.move (p := p) rfl rfl (htake ?_) hy (h.awake ?_ ?_) ?_ ?_ ?_ ?_ ?_ ?_ <;>
      simp [hc, Pc.Holds]
  | sleepAcquire =>
    rw [hc] at hpc
    cases hpc
    have hd := h.distinct p (by rw [hc]; trivial)
    have ht := h.tested p (Or.inl hc)
    refine h.move (p := p) rfl rfl (htake ?_) hy (h.awake ?_ ?_) ?_ ?_ ?_ ?_ ?_ ?_ <;>
      simp [hc, hd, ht, Pc.Holds]
  | wakeupAcquire o =>
    -- the scan starts: no process is in the window, and it has every slot ahead
    rw [hc] at hpc
    cases hpc
    have hlk : o = .before → lk ≠ .ptable := by
      rintro rfl rfl
      exact hfree p ((h.lock _ p).mpr (Or.inl (by rw [hc]; rfl)))
    refine h.move (p := p) rfl rfl (htake ?_) hy (h.awake ?_ ?_) ?_ ?_ ?_ ?_ (fun _ => Or.inr ?_) ?_
    · cases o <;> simp [hc, Pc.Holds]
    · simp [hc]
    · simp [hc]
    · cases o <;> simp [hlk]
    · simp
    · simp
    · simp
    · intro r
      by_cases hr : r = p
      · subst hr
        simp [State.setProc]
      · have := h.no_window hfree r
        simpa [State.setProc, State.setLock, update_of_ne hr] using this
    · intro r _ _
      exact Or.inr ⟨o, 0, rfl, Nat.zero_le _⟩
  | _ =>
    rw [hc] at hpc
    cases hpc

/-- `release` preserves the invariant. -/
theorem Inv.release {l : LockId} {b : Pc} (h : Inv lk chan s) (hy : (s.proc p).yield = .none)
    (hpc : (s.proc p).pc.releases lk = some (l, b)) :
    Inv lk chan ((s.setLock l none).setProc p fun q => { q with pc := b }) := by
  have hgive : (s.proc p).pc.Holds lk l →
      (∀ l', b.Holds lk l' ↔ (s.proc p).pc.Holds lk l' ∧ l' ≠ l) →
      LockInv lk ((s.setLock l none).setProc p fun q => { q with pc := b }) := by
    intro hheld hq
    refine LockInv.give (p := p) h.lock (by simp) (Or.inl hheld) rfl rfl fun l' => ?_
    simp [Proc.Holds, State.setLock, hy, hq l']
  have hd := h.distinct p
  cases hc : (s.proc p).pc with
  | waitDone | wakeReleaseFirst | wakeReleaseLast =>
    rw [hc] at hpc
    cases hpc
    refine h.move (p := p) rfl rfl (hgive ?_ ?_) hy (h.awake ?_ ?_) ?_ ?_ ?_ ?_ ?_ ?_ <;>
      simp [hc, Pc.Holds]
  | sleepRelease =>
    -- the window opens with `cond` false
    rw [hc] at hpc hd
    cases hpc
    have hd := hd trivial
    have ht := h.tested p (Or.inr hc)
    refine h.move (p := p) rfl rfl (hgive ?_ ?_) hy (h.awake ?_ ?_) ?_ ?_ ?_ ?_ ?_ ?_
    · simp [hc, Pc.Holds]
    · intro l'
      simp only [hc, Pc.Holds]
      grind
    all_goals simp [hc, ht]
  | sleepUnlock =>
    rw [hc] at hpc hd
    cases hpc
    have hd := hd trivial
    refine h.move (p := p) rfl rfl (hgive ?_ ?_) hy (h.awake ?_ ?_) ?_ ?_ ?_ ?_ ?_ ?_ <;>
      simp [hc, hd, Pc.Holds]
  | wakeupRelease o =>
    cases o with
    | before =>
      rw [hc] at hpc hd
      cases hpc
      have hd := hd trivial
      refine h.move (p := p) rfl rfl (hgive ?_ ?_) hy (h.awake ?_ ?_) ?_ ?_ ?_ ?_ ?_ ?_
      · simp [hc, Pc.Holds]
      · intro l'
        simp only [hc, Pc.Holds]
        grind
      all_goals simp [hc]
    | after =>
      rw [hc] at hpc
      cases hpc
      refine h.move (p := p) rfl rfl (hgive ?_ ?_) hy (h.awake ?_ ?_) ?_ ?_ ?_ ?_ ?_ ?_ <;>
        simp [hc, Pc.Holds]
  | _ =>
    rw [hc] at hpc
    cases hpc

/-- A process that moves between points that hold the same locks keeps the lock
invariant. -/
theorem Inv.lockInv_move (h : Inv lk chan s) (hproc : t.proc = update s.proc p q)
    (hlock : t.lock = s.lock) (hy : q.yield = (s.proc p).yield)
    (hq : ∀ l, q.pc.Holds lk l ↔ (s.proc p).pc.Holds lk l) : LockInv lk t :=
  LockInv.keep (p := p) h.lock hproc hlock fun l => by simp only [Proc.Holds, hy, hq l]

/-- The test of `while(!cond)` preserves the invariant. -/
theorem Inv.test (h : Inv lk chan s) (hy : (s.proc p).yield = .none)
    (hpc : (s.proc p).pc = .waitTest) {b : Pc}
    (hb : s.cond = true ∧ b = .waitDone ∨ s.cond = false ∧ b = Pc.enterSleep lk) :
    Inv lk chan (s.setProc p fun q => { q with pc := b }) := by
  rcases hb with ⟨-, rfl⟩ | ⟨hc, rfl⟩
  · refine h.move (p := p) rfl rfl (h.lockInv_move (p := p) rfl rfl rfl ?_) hy (h.awake ?_ ?_)
      ?_ ?_ ?_ ?_ ?_ ?_ <;>
      simp [hpc, Pc.Holds]
  · by_cases hlk : lk = .ptable
    all_goals
      refine h.move (p := p) rfl rfl (h.lockInv_move (p := p) rfl rfl rfl ?_) hy (h.awake ?_ ?_)
        ?_ ?_ ?_ ?_ ?_ ?_ <;>
        simp [hpc, hc, hlk, Pc.enterSleep, Pc.Holds]

/-- Consuming the condition preserves the invariant: it asks nothing while `cond` is
false. -/
theorem Inv.consume (h : Inv lk chan s) : Inv lk chan { s with cond := false } :=
  ⟨h.lock, h.yield, h.distinct, h.inSleep, h.chan, fun _ _ => rfl,
    fun _ _ hc => (Bool.false_ne_true hc).elim, fun _ _ hc => (Bool.false_ne_true hc).elim⟩

/-- `proc->chan = chan` preserves the invariant. -/
theorem Inv.setChan (h : Inv lk chan s) (hy : (s.proc p).yield = .none)
    (hpc : (s.proc p).pc = .sleepChan) :
    Inv lk chan (s.setProc p fun q => { q with chan := chan, pc := .sleepState }) := by
  have hs := h.awake (p := p) (by simp [hpc]) (by simp [hpc])
  refine h.change (p := p) rfl rfl (h.lockInv_move (p := p) rfl rfl rfl ?_) ?_ ?_ ?_ ?_ ?_ ?_ ?_
    ?_ ?_
  · simp [hpc, Pc.Holds]
  · simp [hy]
  · simp
  · exact fun hc => absurd hc hs
  · exact fun _ => rfl
  · simp
  · exact fun _ hc => h.window p (Or.inl hpc) hc
  · simp [hpc]
  · exact fun hc => absurd hc hs
  · simp [hpc]

/-- `proc->state = SLEEPING` preserves the invariant: if `cond` was set inside the window,
the scan that is owed has not begun. -/
theorem Inv.setSleeping (h : Inv lk chan s) (hy : (s.proc p).yield = .none)
    (hpc : (s.proc p).pc = .sleepState) :
    Inv lk chan (s.setProc p fun q => { q with state := .sleeping, pc := .sleepSched }) := by
  refine h.change (p := p) rfl rfl (h.lockInv_move (p := p) rfl rfl rfl ?_) ?_ ?_ ?_ ?_ ?_ ?_ ?_
    ?_ ?_
  · simp [hpc, Pc.Holds]
  · simp [hy]
  · simp
  · exact fun _ => Or.inl rfl
  · exact fun _ => h.chan p (Or.inl hpc)
  · simp
  · simp
  · simp [hpc]
  · intro _ hc
    obtain ⟨k, hk⟩ := h.window p (Or.inr hpc) hc
    exact ⟨k, Or.inl hk⟩
  · simp [hpc]

variable {c : Fin m}

/-- `sched` inside `sleep` preserves the invariant. -/
theorem Inv.sched (h : Inv lk chan s) (hy : (s.proc p).yield = .none)
    (hpc : (s.proc p).pc = .sleepSched) :
    Inv lk chan (((s.setCpu c .choosing).setLock .ptable (some (.cpu c))).setProc p
      fun q => { q with pc := .asleep }) := by
  refine h.change (p := p) rfl rfl ?_ ?_ ?_ ?_ ?_ ?_ ?_ ?_ ?_ ?_
  · refine LockInv.give (p := p) h.lock (by simp) (Or.inl (by simp [hpc, Pc.Holds])) rfl rfl
      fun l => ?_
    simp [Proc.Holds, State.setLock, State.setCpu, hy, hpc, Pc.Holds]
  · simp [State.setLock, State.setCpu, hy]
  · simp
  · exact fun _ => Or.inr rfl
  · exact fun _ => h.chan p (Or.inr (Or.inl hpc))
  · simp
  · simp
  · simp [hpc]
  · exact h.owed p
  · simp [hpc]

/-- `proc->chan = 0` preserves the invariant. -/
theorem Inv.tidy (h : Inv lk chan s) (hy : (s.proc p).yield = .none)
    (hpc : (s.proc p).pc = .sleepTidy) :
    Inv lk chan (s.setProc p fun q => { q with chan := 0, pc := Pc.leaveSleep lk }) := by
  have hs := h.awake (p := p) (by simp [hpc]) (by simp [hpc])
  by_cases hlk : lk = .ptable
  all_goals
    refine h.change (p := p) rfl rfl (h.lockInv_move (p := p) rfl rfl rfl ?_) ?_ ?_
      (fun hc => absurd hc hs) ?_ ?_ ?_ ?_ (fun hc => absurd hc hs) ?_ <;>
      simp [hpc, hy, hlk, Pc.leaveSleep, Pc.Holds]

/-- Setting `cond` preserves the invariant: it is set under `lk`, so no process is between
its test and the window, and the waker owes everyone a scan. -/
theorem Inv.setCond {o : Order} (h : Inv lk chan s) (hy : (s.proc p).yield = .none)
    (hpc : (s.proc p).pc = .wakeSet o) :
    Inv lk chan { s.setProc p fun q => { q with pc := Pc.afterSet o } with cond := true } := by
  have hheld : (s.proc p).Holds lk lk := Or.inl (by simp [hpc, Pc.Holds])
  have hun : (Pc.afterSet o).Unstarted := by cases o <;> simp [Pc.afterSet]
  have hcond := h.consume
  set u : State n m := { s with cond := false } with hu
  have hmove : Inv lk chan (u.setProc p fun q => { q with pc := Pc.afterSet o }) := by
    refine hcond.move (p := p) rfl rfl (hcond.lockInv_move (p := p) rfl rfl rfl ?_) hy
      (hcond.awake ?_ ?_) ?_ ?_ ?_ ?_ ?_ ?_ <;> cases o <;>
      simp [hu, hpc, Pc.afterSet, Pc.Holds]
  have hwaker : ((u.setProc p fun q => { q with pc := Pc.afterSet o }).proc p).pc.Unstarted := by
    simpa [State.setProc] using hun
  refine ⟨hmove.lock, hmove.yield, hmove.distinct, hmove.inSleep, hmove.chan, ?_,
    fun _ _ _ => ⟨p, hwaker⟩, fun r _ _ => ⟨p, Or.inl hwaker⟩⟩
  intro r hr
  exfalso
  by_cases hrp : r = p
  · subst hrp
    cases o <;> simp [State.setProc, Pc.afterSet] at hr
  · have hr' : (s.proc r).pc = .sleepAcquire ∨ (s.proc r).pc = .sleepRelease := by
      simpa [State.setProc, update_of_ne hrp] using hr
    have hrheld : (s.proc r).Holds lk lk := by
      rcases hr' with hr' | hr' <;> exact Or.inl (by simp [hr', Pc.Holds])
    exact hrp (LockInv.eq_of_holds h.lock hrheld hheld)

/-- One slot of the scan of `wakeup1` preserves the invariant: a process sleeping in it
becomes runnable, and the scan still has the later slots ahead. -/
theorem Inv.scan {o : Order} {i : Fin n} (h : Inv lk chan s) (hy : (s.proc p).yield = .none)
    (hpc : (s.proc p).pc = .wakeupScan o i) :
    Inv lk chan ((s.setProc i (wakeSlot chan)).setProc p
      fun q => { q with pc := .wakeupScan o (i + 1) }) := by
  have hslot : ∀ q : Proc, (wakeSlot chan q).pc = q.pc ∧ (wakeSlot chan q).yield = q.yield ∧
      (wakeSlot chan q).chan = q.chan ∧
      ((wakeSlot chan q).state = .sleeping → q.state = .sleeping) := by
    intro q
    unfold wakeSlot
    split <;> simp
  have hdone : (wakeSlot chan (s.proc i)).state ≠ .sleeping := by
    unfold wakeSlot
    split
    · simp
    · rename_i hn
      intro hs
      refine hn ⟨hs, h.chan i ?_⟩
      exact Or.inr (h.inSleep i hs)
  obtain ⟨h1, h2, h3, h4⟩ := hslot (s.proc i)
  have hw : Inv lk chan (s.setProc i (wakeSlot chan)) := by
    refine h.change (p := i) rfl rfl (h.lockInv_move (p := i) rfl rfl h2 (by simp [h1]))
      ?_ ?_ (fun hc => absurd hc hdone) ?_ ?_ ?_ ?_ (fun hc => absurd hc hdone) ?_
    · rw [h1, h2]
      exact h.yield i
    · rw [h1]
      exact h.distinct i
    · rw [h1, h3]
      exact h.chan i
    · rw [h1]
      exact h.tested i
    · rw [h1]
      exact h.window i
    · rw [h1]
      exact Or.inl
    · rw [h1]
      exact fun _ _ => id
  set u := s.setProc i (wakeSlot chan) with hu
  have hpcu : (u.proc p).pc = .wakeupScan o i ∧ (u.proc p).yield = .none := by
    by_cases hpi : p = i
    · subst hpi
      simp [hu, State.setProc, h1, h2, hpc, hy]
    · simp [hu, State.setProc, update_of_ne hpi, hpc, hy]
  have hd := hw.distinct p
  rw [hpcu.1] at hd
  refine hw.move (p := p) rfl rfl (hw.lockInv_move (p := p) rfl rfl rfl ?_) hpcu.2 (hw.awake ?_ ?_)
    ?_ ?_ ?_ ?_ ?_ ?_
  · cases o <;> simp [hpcu.1, Pc.Holds]
  · simp [hpcu.1]
  · simp [hpcu.1]
  · cases o with
    | before => exact hd
    | after => exact False.elim
  · simp
  · simp
  · simp
  · simp [hpcu.1]
  · -- the slot just scanned holds no sleeper
    intro r hr howes
    have hri : r ≠ i := by
      rintro rfl
      refine hdone ?_
      by_cases hpi : r = p
      · subst hpi
        simpa [hu, State.setProc] using hr
      · simpa [hu, State.setProc, update_of_ne hpi] using hr
    simp only [hpcu.1, Pc.Owes, Pc.Unstarted, Pc.wakeupScan.injEq, reduceCtorEq, exists_false,
      or_self, false_or] at howes ⊢
    obtain ⟨o', i', ⟨rfl, rfl⟩, hle⟩ := howes
    exact ⟨o, i.val + 1, ⟨rfl, rfl⟩, by omega⟩

/-- The end of the scan preserves the invariant: it has no slot ahead. -/
theorem Inv.scanEnd {o : Order} {i : ℕ} (h : Inv lk chan s) (hy : (s.proc p).yield = .none)
    (hpc : (s.proc p).pc = .wakeupScan o i) (hi : n ≤ i) :
    Inv lk chan (s.setProc p fun q => { q with pc := .wakeupRelease o }) := by
  have hd := h.distinct p
  rw [hpc] at hd
  refine h.move (p := p) rfl rfl (h.lockInv_move (p := p) rfl rfl rfl ?_) hy (h.awake ?_ ?_)
    ?_ ?_ ?_ ?_ ?_ ?_
  · cases o <;> simp [hpc, Pc.Holds]
  · simp [hpc]
  · simp [hpc]
  · cases o with
    | before => exact hd
    | after => exact False.elim
  · simp
  · simp
  · simp
  · simp [hpc]
  · intro r _ howes
    simp only [hpc, Pc.Owes, Pc.Unstarted, Pc.wakeupScan.injEq, reduceCtorEq, exists_false,
      or_self, false_or] at howes
    obtain ⟨o', i', ⟨rfl, rfl⟩, hle⟩ := howes
    have := r.isLt
    omega

/-- A step of `yield` that leaves the state and the point of the process. -/
theorem Inv.yieldMove {y : Yield} (h : Inv lk chan s)
    (hproc : t.proc = update s.proc p { s.proc p with yield := y })
    (hcond : t.cond = s.cond) (hlock : LockInv lk t)
    (hint : y ≠ .none → (s.proc p).pc.interruptible) : Inv lk chan t :=
  h.change hproc hcond hlock hint (h.distinct p) (h.inSleep p) (h.chan p) (h.tested p)
    (h.window p) Or.inl (h.owed p) (fun _ _ => id)

/-- A process inside `yield` is at a point without locks, outside `sleep`. -/
theorem Inv.yielding (h : Inv lk chan s) (hy : (s.proc p).yield ≠ .none) :
    (∀ l, ¬ (s.proc p).pc.Holds lk l) ∧ (s.proc p).pc ≠ .sleepSched ∧
      (s.proc p).pc ≠ .asleep := by
  have hi := h.yield p hy
  cases hc : (s.proc p).pc with
  | wakeupAcquire o => cases o <;> simp_all [Pc.interruptible, Pc.Holds]
  | _ => simp_all [Pc.interruptible, Pc.Holds]

/-- The scheduler's own lock operations preserve the invariant. -/
theorem Inv.schedLock {k : Cpu n} {x : Option (Holder n m)} (h : Inv lk chan s)
    (hfree : ∀ r, s.lock .ptable ≠ some (.proc r)) (hx : ∀ r, x ≠ some (.proc r)) :
    Inv lk chan ((s.setCpu c k).setLock .ptable x) :=
  ⟨LockInv.sched h.lock hfree hx rfl rfl, h.yield, h.distinct, h.inSleep, h.chan, h.tested,
    h.window, h.owed⟩

/-- Switching to a process that was in `sleep` preserves the invariant. -/
theorem Inv.resume (h : Inv lk chan s) (hl : s.lock .ptable = some (.cpu c))
    (hpc : (s.proc p).pc = .asleep) :
    Inv lk chan (((s.setCpu c (.running p)).setLock .ptable (some (.proc p))).setProc p
      fun q => { q with state := .running, pc := .sleepTidy }) := by
  have hy : (s.proc p).yield = .none := by
    by_contra hne
    exact (h.yielding hne).2.2 hpc
  refine h.change (p := p) rfl rfl (LockInv.take (p := p) h.lock (by simp [hl]) rfl rfl ?_)
    ?_ ?_ ?_ ?_ ?_ ?_ ?_ ?_ ?_ <;>
    simp [State.setLock, State.setCpu, Proc.Holds, hpc, hy, Pc.Holds]

/-- Switching to a process that yielded, or to a new one, preserves the invariant. -/
theorem Inv.resumeYield (h : Inv lk chan s) (hl : s.lock .ptable = some (.cpu c))
    (hy : (s.proc p).yield = .off) :
    Inv lk chan (((s.setCpu c (.running p)).setLock .ptable (some (.proc p))).setProc p
      fun q => { q with state := .running, yield := .release }) := by
  have hne : (s.proc p).yield ≠ .none := by simp [hy]
  refine h.change (p := p) rfl rfl (LockInv.take (p := p) h.lock (by simp [hl]) rfl rfl ?_)
    (fun _ => h.yield p hne) (h.distinct p) (by simp) (h.chan p) (h.tested p) (h.window p)
    Or.inl (by simp) (fun _ _ => id)
  simp [State.setLock, State.setCpu, Proc.Holds, hy]

/-- `kill` preserves the invariant. -/
theorem Inv.kill (h : Inv lk chan s) :
    Inv lk chan (s.setProc p fun q => { q with state := .runnable }) :=
  h.change (p := p) rfl rfl (LockInv.keep (p := p) h.lock rfl rfl fun _ => Iff.rfl)
    (h.yield p) (h.distinct p) (by simp) (h.chan p) (h.tested p) (h.window p) Or.inl (by simp)
    (fun _ _ => id)

/-- **Every step preserves the invariant.** -/
theorem inv_step {a : Actor n m} (h : Inv lk chan s) (hst : Step lk chan s a t) :
    Inv lk chan t := by
  cases hst with
  | @start p pc hr hpc hb =>
    have hs := h.awake (p := p) (by simp [hpc]) (by simp [hpc])
    rcases hb with rfl | ⟨o, rfl⟩ <;>
      refine h.move (p := p) rfl rfl (h.lockInv_move (p := p) rfl rfl rfl ?_) hr.2 hs
        ?_ ?_ ?_ ?_ ?_ ?_ <;>
      simp [hpc, Pc.Holds]
  | acquire hr hpc hl => exact h.acquire hr.2 hpc hl
  | release hr hpc => exact h.release hr.2 hpc
  | testTrue hr hpc hc => exact h.test hr.2 hpc (Or.inl ⟨hc, rfl⟩)
  | testFalse hr hpc hc => exact h.test hr.2 hpc (Or.inr ⟨hc, rfl⟩)
  | consume hr hpc => exact h.consume
  | setChan hr hpc => exact h.setChan hr.2 hpc
  | setSleeping hr hpc => exact h.setSleeping hr.2 hpc
  | sched hc hy hpc => exact h.sched hy hpc
  | tidy hr hpc => exact h.tidy hr.2 hpc
  | setCond hr hpc => exact h.setCond hr.2 hpc
  | scan hr hpc => exact h.scan hr.2 hpc
  | scanEnd hr hpc hi => exact h.scanEnd hr.2 hpc hi
  | @interrupt p hr hi =>
    refine h.yieldMove (p := p) rfl rfl (LockInv.keep (p := p) h.lock rfl rfl fun l => ?_)
      fun _ => hi
    simp [Proc.Holds, hr.2]
  | @yieldAcquire p _ hy hl =>
    refine h.yieldMove (p := p) rfl rfl (LockInv.take (p := p) h.lock (by simp [hl]) rfl rfl ?_)
      fun _ => h.yield p (by simp [hy])
    simp [Proc.Holds, State.setLock, hy]
  | @yieldState p _ hy =>
    refine h.change (p := p) rfl rfl (LockInv.keep (p := p) h.lock rfl rfl ?_)
      (fun _ => h.yield p (by simp [hy])) (h.distinct p) (by simp) (h.chan p) (h.tested p)
      (h.window p) Or.inl (by simp) (fun _ _ => id)
    simp [Proc.Holds, hy]
  | @yieldSched p _ _ hy =>
    have hne : (s.proc p).yield ≠ .none := by simp [hy]
    refine h.yieldMove (p := p) rfl rfl
      (LockInv.give (p := p) h.lock (by simp) (Or.inr (by simp [hy])) rfl rfl ?_)
      fun _ => h.yield p hne
    simp [Proc.Holds, State.setLock, State.setCpu, (h.yielding hne).1]
  | @yieldRelease p _ hy =>
    have hne : (s.proc p).yield ≠ .none := by simp [hy]
    refine h.yieldMove (p := p) rfl rfl
      (LockInv.give (p := p) h.lock (by simp) (Or.inr (by simp [hy])) rfl rfl ?_)
      (by simp)
    simp [Proc.Holds, State.setLock, (h.yielding hne).1]
  | schedAcquire hc hl | schedRelease hc hl => exact h.schedLock (by simp [hl]) (by simp)
  | resume hc hl hs hpc => exact h.resume hl hpc
  | resumeYield hc hl hs hy => exact h.resumeYield hl hy
  | kill hl hs => exact h.kill

/-- The invariant holds initially. -/
theorem inv_init (h : Init s) : Inv lk chan s := by
  obtain ⟨hl, -, hp⟩ := h
  have hpc : ∀ p, (s.proc p).pc = .user := fun p => (hp p).2.1
  have hst : ∀ p, (s.proc p).state ≠ .sleeping := fun p => by simp [(hp p).1]
  refine ⟨fun l p => ?_, fun p _ => ?_, fun p => ?_, fun p hs => absurd hs (hst p), fun p => ?_,
    fun p => ?_, fun p => ?_, fun p hs => absurd hs (hst p)⟩
  · simp [hl, Proc.Holds, hpc, (hp p).2.2, Pc.Holds]
  · simp [hpc, Pc.interruptible]
  all_goals simp [hpc]

end Step

/-- A waker that has set `cond` and has not yet completed its `wakeup(chan)`. -/
def Pc.WakeupPending : Pc → Prop
  | .wakeReleaseFirst | .wakeupAcquire _ | .wakeupScan _ _ | .wakeupRelease _ => True
  | _ => False

/-- **No lost wakeup.** In every reachable state of any number of waiters and wakers on any
number of CPUs, a process that is `SLEEPING` on `chan` while `cond` holds implies a waker
that has set `cond` and has not yet completed its `wakeup(chan)`. -/
theorem no_lost_wakeup (lk : LockId) (chan n m : ℕ) {s : State n m}
    (hs : (system lk chan n m).Reachable s) (p : Fin n)
    (hsleep : (s.proc p).state = .sleeping ∧ (s.proc p).chan = chan)
    (hcond : s.cond = true) : ∃ k, (s.proc k).pc.WakeupPending := by
  have hinv : Inv lk chan s :=
    hs.invariant (I := Inv lk chan) (fun _ => inv_init) fun _ _ _ h hst => inv_step h hst
  obtain ⟨k, hk⟩ := hinv.owed p hsleep.1 hcond
  refine ⟨k, ?_⟩
  rcases hk with (hk | ⟨o, hk⟩) | ⟨o, i, hk, -⟩ <;> rw [hk] <;> trivial

/-- The theorem is not vacuous: on one CPU, process 0 goes to sleep, process 1 is switched to
and sets `cond`, and it still owes the wakeup. -/
theorem no_lost_wakeup_sleeper : ∃ s : State 2 1, (system .other 7 2 1).Reachable s ∧
    ((s.proc 0).state = .sleeping ∧ (s.proc 0).chan = 7) ∧ s.cond = true ∧
      ∃ k, (s.proc k).pc.WakeupPending := by
  let s₀ : State 2 1 :=
    { proc := fun _ => ⟨.runnable, 0, .user, .off⟩, cpu := fun _ => .idle,
      lock := fun _ => none, cond := false }
  have h₀ : (system .other 7 2 1).Reachable s₀ :=
    .init ⟨fun _ => rfl, fun _ => rfl, fun _ => ⟨rfl, rfl, rfl⟩⟩
  have on : ∀ {s : State 2 1} {p : Fin 2}, s.cpu 0 = .running p → (s.proc p).yield = .none →
      s.Running p := fun hc hy => ⟨⟨0, hc⟩, hy⟩
  have h₁ := h₀.step (.schedAcquire (c := 0) rfl rfl)
  have h₂ := h₁.step (.resumeYield (c := 0) (p := 0) rfl rfl rfl rfl)
  have h₃ := h₂.step (.yieldRelease (p := 0) ⟨0, rfl⟩ rfl)
  have h₄ := h₃.step (.start (p := 0) .waitAcquire (on rfl rfl) rfl (.inl rfl))
  have h₅ := h₄.step (.acquire (p := 0) (on rfl rfl) rfl rfl)
  have h₆ := h₅.step (.testFalse (p := 0) (on rfl rfl) rfl rfl)
  have h₇ := h₆.step (.acquire (p := 0) (on rfl rfl) rfl rfl)
  have h₈ := h₇.step (.release (p := 0) (on rfl rfl) rfl)
  have h₉ := h₈.step (.setChan (p := 0) (on rfl rfl) rfl)
  have h₁₀ := h₉.step (.setSleeping (p := 0) (on rfl rfl) rfl)
  have h₁₁ := h₁₀.step (.sched (p := 0) (c := 0) rfl rfl rfl)
  have h₁₂ := h₁₁.step (.resumeYield (c := 0) (p := 1) rfl rfl rfl rfl)
  have h₁₃ := h₁₂.step (.yieldRelease (p := 1) ⟨0, rfl⟩ rfl)
  have h₁₄ := h₁₃.step (.start (p := 1) (.wakeAcquire .after) (on rfl rfl) rfl (.inr ⟨_, rfl⟩))
  have h₁₅ := h₁₄.step (.acquire (p := 1) (on rfl rfl) rfl rfl)
  have h₁₆ := h₁₅.step (.setCond (p := 1) (on rfl rfl) rfl)
  exact ⟨_, h₁₆, ⟨rfl, rfl⟩, rfl, no_lost_wakeup .other 7 2 1 h₁₆ 0 ⟨rfl, rfl⟩ rfl⟩

end Model

end Xv6.SleepWakeup
