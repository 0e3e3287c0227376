import Xv6.Threads

/-!
# Tanenbaum's Dining Philosophers, with a Barrier

The threads of `run_tanenbaum` in `mp3/3_philosophers.py`. A philosopher that is hungry eats if
neither neighbour does, and otherwise waits on a semaphore of its own, which a neighbour releases
when it has eaten. After `rendezvousPoint` meals a philosopher waits at a barrier for the others.

Python's `Lock` and `Semaphore` are a flag and a number. Its cyclic `Barrier` fills until all
threads have arrived and then drains; a thread that comes back early waits until it has drained.
A pass through the barrier is counted by ghost variables, as are the meals.

The two halves of the model have separate invariants: the barrier and the meals, where `mutex`
does not matter, in `Xv6.TanenbaumMeals`, and the table in `Xv6.TanenbaumTable`.
-/

open Transition Threads
open Function (update update_of_ne update_self)

namespace Xv6.Tanenbaum

/-! ### The ring -/

/-- `tleft(i)`. -/
def tleft (N i : ℕ) : ℕ := (i + N - 1) % N

/-- `tright(i)`. -/
def tright (N i : ℕ) : ℕ := (i + 1) % N

section Ring

variable {N i : ℕ}

/-- The neighbour on the right, by cases. -/
theorem tright_eq (hi : i < N) : tright N i = if i + 1 = N then 0 else i + 1 := by
  rw [tright]
  split_ifs with h
  · rw [h, Nat.mod_self]
  · exact Nat.mod_eq_of_lt (by omega)

/-- The neighbour on the left, by cases. -/
theorem tleft_eq (hi : i < N) : tleft N i = if i = 0 then N - 1 else i - 1 := by
  rw [tleft]
  split_ifs with h
  · rw [h, Nat.zero_add]
    exact Nat.mod_eq_of_lt (by omega)
  · have hsub : i + N - 1 = i - 1 + N := by omega
    rw [hsub, Nat.add_mod_right]
    exact Nat.mod_eq_of_lt (by omega)

theorem tright_lt (hi : i < N) : tright N i < N := Nat.mod_lt _ (by omega)

theorem tleft_lt (hi : i < N) : tleft N i < N := Nat.mod_lt _ (by omega)

/-- Left of the right neighbour. -/
theorem tleft_tright (hi : i < N) : tleft N (tright N i) = i := by
  rw [tleft_eq (tright_lt hi), tright_eq hi]
  by_cases h : i + 1 = N
  · rw [if_pos h, if_pos rfl]
    omega
  · rw [if_neg h, if_neg (Nat.succ_ne_zero i), Nat.add_sub_cancel]

/-- Right of the left neighbour. -/
theorem tright_tleft (hi : i < N) : tright N (tleft N i) = i := by
  have hlt := tleft_lt hi
  rw [tleft_eq hi] at hlt ⊢
  rw [tright_eq hlt]
  split_ifs <;> omega

theorem tright_ne (hN : 2 ≤ N) (hi : i < N) : tright N i ≠ i := by
  rw [tright_eq hi]
  split_ifs <;> omega

end Ring

/-! ### The model -/

/-- `rendezvousPoint`, as `run_tanenbaum` computes it. The quotient is exact, as that of the source
is for numbers below `2 ^ 53`; results are stated for every value from 1 on. -/
def rendezvousPoint (N M : ℕ) : ℕ := if N ≤ M then M / N else N / M

/-- The entries of `state`. -/
inductive Mood
  | thinking
  | hungry
  | eating
  deriving DecidableEq, Repr

/-- Whom a call of `test` is for. -/
inductive Who
  /-- the call in `tget_forks` -/
  | own
  /-- the first call in `tput_forks` -/
  | right
  /-- the second call in `tput_forks` -/
  | left
  deriving DecidableEq, Repr

/-- The argument of the call of `test` by philosopher `i`. -/
def Who.target (N i : ℕ) : Who → ℕ
  | .own => i
  | .right => tright N i
  | .left => tleft N i

/-- Where a philosopher stands. -/
inductive Pc
  /-- at the head of the loop over the meals -/
  | top
  /-- at the test of `mealsEaten` -/
  | check
  /-- at the `mutex.release()` before `eatenEnough.wait()` -/
  | leaveWait
  /-- at the `mutex.release()` of the other branch -/
  | leave
  /-- at `eatenEnough.wait()` -/
  | arrive
  /-- in `eatenEnough.wait()` -/
  | waiting
  /-- at the acquisition of `mutex` in `resetMeals` -/
  | resetAcquire
  /-- at `mealsEaten[thread_id] = 0` -/
  | reset
  /-- at the release of `mutex` in `resetMeals` -/
  | resetRelease
  /-- at the acquisition of `mutex` in `tget_forks` -/
  | getAcquire
  /-- at `state[i] = HUNGRY` -/
  | getHungry
  /-- at the condition of a call of `test` -/
  | test (w : Who)
  /-- at the `phil[j].release()` of a call of `test` -/
  | grant (w : Who) (j : ℕ)
  /-- at the release of `mutex` in `tget_forks` -/
  | getRelease
  /-- at `phil[i].acquire()` -/
  | getWait
  /-- in `slow_down()` -/
  | eating
  /-- at the acquisition of `mutex` in `tput_forks` -/
  | putAcquire
  /-- at `state[i] = THINKING` -/
  | putThink
  /-- at `mealsEaten[i] += 1` -/
  | putCount
  /-- at the release of `mutex` in `tput_forks` -/
  | putRelease
  deriving DecidableEq, Repr

/-- What follows a call of `test`. -/
def Who.next : Who → Pc
  | .own => .getRelease
  | .right => .test .left
  | .left => .putRelease

/-- A thread. -/
structure Local where
  pc : Pc
  /-- the index of the loop over the meals -/
  k : ℕ
  /-- ghost: the meals that the philosopher has completed -/
  eaten : ℕ
  /-- ghost: how often it has left the barrier -/
  rounds : ℕ
  deriving DecidableEq, Repr

/-- The variables that the threads share, and the threads. -/
structure State where
  mutex : Bool
  state : ℕ → Mood
  phil : ℕ → ℕ
  mealsEaten : ℕ → ℕ
  /-- the threads in the barrier -/
  count : ℕ
  /-- the barrier lets threads out, not in -/
  draining : Bool
  /-- ghost: how often the barrier has filled -/
  gen : ℕ
  thread : ℕ → Local

/-- Change where a philosopher stands. -/
def State.setPc (s : State) (i : ℕ) (c : Pc) : State :=
  { s with thread := update s.thread i { s.thread i with pc := c } }

@[simp] theorem State.setPc_mutex (s : State) (i : ℕ) (c : Pc) :
    (s.setPc i c).mutex = s.mutex := rfl

theorem State.setPc_self (s : State) (i : ℕ) (c : Pc) :
    (s.setPc i c).thread i = { s.thread i with pc := c } := update_self ..

theorem State.setPc_of_ne (s : State) {i j : ℕ} {c : Pc} (h : j ≠ i) :
    (s.setPc i c).thread j = s.thread j := update_of_ne h ..

/-- The condition of `test(j)`. -/
def State.MayEat (s : State) (N j : ℕ) : Prop :=
  s.state j = .hungry ∧ s.state (tleft N j) ≠ .eating ∧ s.state (tright N j) ≠ .eating

section Model

variable (N M R : ℕ)

/-- The steps of `tanenbaum_solution(i)`, with `NUM_PHILOSOPHERS = N`, `NUM_MEALS = M` and
`rendezvousPoint = R`. -/
inductive PhilStep (i : ℕ) : State → State → Prop
  | acquire {s} : (s.thread i).pc = .top → (s.thread i).k < M → s.mutex = false →
      PhilStep i s { s.setPc i .check with mutex := true }
  | checkWait {s} : (s.thread i).pc = .check → s.mealsEaten i = R →
      PhilStep i s (s.setPc i .leaveWait)
  | checkGo {s} : (s.thread i).pc = .check → s.mealsEaten i ≠ R → PhilStep i s (s.setPc i .leave)
  | leaveWait {s} : (s.thread i).pc = .leaveWait →
      PhilStep i s { s.setPc i .arrive with mutex := false }
  | leave {s} : (s.thread i).pc = .leave →
      PhilStep i s { s.setPc i .getAcquire with mutex := false }
  | arrive {s} : (s.thread i).pc = .arrive → s.draining = false → s.count + 1 ≠ N →
      PhilStep i s { s.setPc i .waiting with count := s.count + 1 }
  | arriveLast {s} : (s.thread i).pc = .arrive → s.draining = false → s.count + 1 = N →
      PhilStep i s { s.setPc i .waiting with
        count := s.count + 1, draining := true, gen := s.gen + 1 }
  | depart {s c} : (s.thread i).pc = .waiting → s.draining = true → s.count = c + 1 →
      PhilStep i s { s with
        count := c
        draining := decide (c ≠ 0)
        thread := update s.thread i
          { s.thread i with pc := .resetAcquire, rounds := (s.thread i).rounds + 1 } }
  | resetAcquire {s} : (s.thread i).pc = .resetAcquire → s.mutex = false →
      PhilStep i s { s.setPc i .reset with mutex := true }
  | reset {s} : (s.thread i).pc = .reset →
      PhilStep i s { s.setPc i .resetRelease with
        mealsEaten := update s.mealsEaten i 0 }
  | resetRelease {s} : (s.thread i).pc = .resetRelease →
      PhilStep i s { s.setPc i .getAcquire with mutex := false }
  | getAcquire {s} : (s.thread i).pc = .getAcquire → s.mutex = false →
      PhilStep i s { s.setPc i .getHungry with mutex := true }
  | getHungry {s} : (s.thread i).pc = .getHungry →
      PhilStep i s { s.setPc i (.test .own) with state := update s.state i .hungry }
  | testPass {s w} : (s.thread i).pc = .test w → s.MayEat N (w.target N i) →
      PhilStep i s { s.setPc i (.grant w (w.target N i)) with
        state := update s.state (w.target N i) .eating }
  | testFail {s w} : (s.thread i).pc = .test w → ¬ s.MayEat N (w.target N i) →
      PhilStep i s (s.setPc i w.next)
  | grant {s w j} : (s.thread i).pc = .grant w j →
      PhilStep i s { s.setPc i w.next with phil := update s.phil j (s.phil j + 1) }
  | getRelease {s} : (s.thread i).pc = .getRelease →
      PhilStep i s { s.setPc i .getWait with mutex := false }
  | getWait {s v} : (s.thread i).pc = .getWait → s.phil i = v + 1 →
      PhilStep i s { s.setPc i .eating with phil := update s.phil i v }
  | eaten {s} : (s.thread i).pc = .eating → PhilStep i s (s.setPc i .putAcquire)
  | putAcquire {s} : (s.thread i).pc = .putAcquire → s.mutex = false →
      PhilStep i s { s.setPc i .putThink with mutex := true }
  | putThink {s} : (s.thread i).pc = .putThink →
      PhilStep i s { s.setPc i .putCount with state := update s.state i .thinking }
  | putCount {s} : (s.thread i).pc = .putCount →
      PhilStep i s { s with
        mealsEaten := update s.mealsEaten i (s.mealsEaten i + 1)
        thread := update s.thread i
          { s.thread i with pc := .test .right, eaten := (s.thread i).eaten + 1 } }
  | putRelease {s} : (s.thread i).pc = .putRelease →
      PhilStep i s { s with
        mutex := false
        thread := update s.thread i
          { s.thread i with pc := .top, k := (s.thread i).k + 1 } }

/-- The state in which the threads are started. -/
def initState : State where
  mutex := false
  state _ := .thinking
  phil _ := 0
  mealsEaten _ := 0
  count := 0
  draining := false
  gen := 0
  thread _ := ⟨.top, 0, 0, 0⟩

/-- The runs of the solution. -/
def system : System State ℕ where
  init s := s = initState
  step s i t := i < N ∧ PhilStep N M R i s t

end Model

end Xv6.Tanenbaum
