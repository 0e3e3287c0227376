import Xv6.Tanenbaum

/-!
# Meals and the Barrier

How many meals the philosophers of the Tanenbaum solution have had. All threads are in the same
round of the barrier, up to those that are about to leave it, and a round has `rendezvousPoint`
meals.

## Main results

* `Rounds.step`: one step keeps the rounds and the meals together.
* `meals_bounded`: **the meals of two philosophers differ by at most `rendezvousPoint`.**
-/

open Transition Threads
open Function (update update_eq_self update_of_ne update_self)

namespace Xv6.Tanenbaum

/-- The thread is in the barrier. -/
def Local.waiting (l : Local) : ℕ := if l.pc = .waiting then 1 else 0

/-- How the counters of a thread go together, when its entry of `mealsEaten` is `m`. -/
def Local.MealsOk (M R : ℕ) (l : Local) (m : ℕ) : Prop :=
  match l.pc with
  | .top => l.eaten = l.k ∧ l.eaten = R * l.rounds + m ∧ m ≤ R ∧ l.k ≤ M
  | .check => l.eaten = l.k ∧ l.eaten = R * l.rounds + m ∧ m ≤ R ∧ l.k < M
  | .leaveWait | .arrive | .waiting =>
    l.eaten = l.k ∧ l.eaten = R * l.rounds + R ∧ m = R ∧ l.k < M
  | .resetAcquire | .reset => l.eaten = l.k ∧ l.eaten = R * l.rounds ∧ m = R ∧ l.k < M
  | .test .right | .test .left | .grant .right _ | .grant .left _ | .putRelease =>
    l.eaten = l.k + 1 ∧ l.eaten = R * l.rounds + m ∧ m ≤ R ∧ l.k < M
  | _ => l.eaten = l.k ∧ l.eaten = R * l.rounds + m ∧ m < R ∧ l.k < M

/-- **The invariant of the barrier and the meals.** -/
structure Rounds (N M R : ℕ) (s : State) : Prop where
  count : s.count = tally N Local.waiting s.thread
  draining : s.draining = true → 0 < s.count
  filling : s.draining = false → s.count < N
  rounds : ∀ i < N, (s.thread i).rounds + (if s.draining then (s.thread i).waiting else 0) = s.gen
  meals : ∀ i < N, (s.thread i).MealsOk M R (s.mealsEaten i)

section Barrier

variable {N M R i j : ℕ} {s t : State}

/-- **A thread moves:** its counters go together, the count of the barrier balances, and the rounds
are as given. -/
theorem Rounds.move {l : Local} {m : ℕ} (h : Rounds N M R s) (hi : i < N)
    (hthread : t.thread = update s.thread i l)
    (hmeals : t.mealsEaten = update s.mealsEaten i m) (hok : l.MealsOk M R m)
    (hcount : t.count + (s.thread i).waiting = s.count + l.waiting)
    (hdrain : t.draining = true → 0 < t.count) (hfill : t.draining = false → t.count < N)
    (hself : l.rounds + (if t.draining then l.waiting else 0) = t.gen)
    (hothers : ∀ j < N, j ≠ i →
      (s.thread j).rounds + (if t.draining then (s.thread j).waiting else 0) = t.gen) :
    Rounds N M R t := by
  have htally := tally_update Local.waiting s.thread l hi
  rw [← hthread] at htally
  obtain ⟨hc, -, -, -, hm⟩ := h
  refine ⟨by omega, hdrain, hfill, fun j hj => ?_, fun j hj => ?_⟩
  · rw [hthread]
    by_cases hji : j = i
    · rwa [hji, update_self]
    · rw [update_of_ne hji]
      exact hothers j hj hji
  · rw [hthread, hmeals]
    by_cases hji : j = i
    · rwa [hji, update_self, update_self]
    · rw [update_of_ne hji, update_of_ne hji]
      exact hm j hj

/-- A thread moves outside of the barrier. -/
theorem Rounds.outside {l : Local} {m : ℕ} (h : Rounds N M R s) (hi : i < N)
    (hthread : t.thread = update s.thread i l)
    (hmeals : t.mealsEaten = update s.mealsEaten i m) (hok : l.MealsOk M R m)
    (hcount : t.count = s.count) (hdrain : t.draining = s.draining) (hgen : t.gen = s.gen)
    (hpc : (s.thread i).pc ≠ .waiting) (hpc' : l.pc ≠ .waiting)
    (hrounds : l.rounds = (s.thread i).rounds) : Rounds N M R t := by
  have hw : (s.thread i).waiting = 0 := if_neg hpc
  have hw' : l.waiting = 0 := if_neg hpc'
  refine h.move hi hthread hmeals hok (by omega) ?_ ?_ ?_ fun j hj _ => ?_
  · rw [hdrain, hcount]
    exact h.draining
  · rw [hdrain, hcount]
    exact h.filling
  · have hround := h.rounds i hi
    rw [hw] at hround
    rwa [hdrain, hgen, hrounds, hw']
  · rw [hdrain, hgen]
    exact h.rounds j hj

/-- A thread moves outside of the barrier and leaves its counters alone. -/
theorem Rounds.setPc {c : Pc} (h : Rounds N M R s) (hi : i < N)
    (hthread : t.thread = (s.setPc i c).thread) (hmeals : t.mealsEaten = s.mealsEaten)
    (hcount : t.count = s.count) (hdrain : t.draining = s.draining) (hgen : t.gen = s.gen)
    (hpc : (s.thread i).pc ≠ .waiting) (hpc' : c ≠ .waiting)
    (hok : ({ s.thread i with pc := c } : Local).MealsOk M R (s.mealsEaten i)) :
    Rounds N M R t :=
  h.outside hi hthread (by rw [hmeals, update_eq_self]) hok hcount hdrain hgen hpc hpc' rfl

theorem Local.waiting_le (l : Local) : l.waiting ≤ 1 := by
  rw [Local.waiting]
  split_ifs <;> omega

/-- A thread arrives at the barrier, with others to come. -/
theorem Rounds.arrive (h : Rounds N M R s) (hi : i < N) (hpc : (s.thread i).pc = .arrive)
    (hfill : s.draining = false) (hne : s.count + 1 ≠ N) :
    Rounds N M R { s.setPc i .waiting with count := s.count + 1 } := by
  have hok := h.meals i hi
  have hlt := h.filling hfill
  have hround := h.rounds
  simp only [hfill] at hround
  refine h.move hi rfl (update_eq_self i s.mealsEaten).symm ?_ ?_ ?_ ?_ ?_ ?_
  · simpa only [Local.MealsOk, hpc] using hok
  · simp [Local.waiting, hpc]
  · simp [State.setPc, hfill]
  · intro
    simp only
    omega
  · simpa [State.setPc, hfill] using hround i hi
  · intro j hj _
    simpa [State.setPc, hfill] using hround j hj

/-- The last thread arrives: all are in the barrier, and it starts to drain. -/
theorem Rounds.arriveLast (h : Rounds N M R s) (hi : i < N) (hpc : (s.thread i).pc = .arrive)
    (hfill : s.draining = false) (hN : s.count + 1 = N) :
    Rounds N M R { s.setPc i .waiting with
      count := s.count + 1, draining := true, gen := s.gen + 1 } := by
  have hok := h.meals i hi
  have hround := h.rounds
  simp only [hfill] at hround
  -- the tally is as large as it can be
  have hall (j : ℕ) (hj : j < N) (hji : j ≠ i) : (s.thread j).waiting = 1 := by
    have htally : tally N Local.waiting (s.setPc i .waiting).thread + (s.thread i).waiting =
        tally N Local.waiting s.thread + 1 := tally_update Local.waiting s.thread _ hi
    have hi0 : (s.thread i).waiting = 0 := by simp [Local.waiting, hpc]
    have hcount := h.count
    have hfull : tally N Local.waiting (s.setPc i .waiting).thread = N := by omega
    have hj := eq_one_of_tally_eq Local.waiting_le hfull hj
    rwa [s.setPc_of_ne hji] at hj
  refine h.move hi rfl (update_eq_self i s.mealsEaten).symm ?_ ?_ ?_ ?_ ?_ ?_
  · simpa only [Local.MealsOk, hpc] using hok
  · simp [Local.waiting, hpc]
  · simp
  · simp
  · simpa [Local.waiting] using hround i hi
  · intro j hj hji
    simpa [hall j hj hji] using hround j hj

/-- A thread leaves the barrier; the last one lets it fill again. -/
theorem Rounds.depart {c : ℕ} (h : Rounds N M R s) (hi : i < N)
    (hpc : (s.thread i).pc = .waiting) (hdrain : s.draining = true) (hc : s.count = c + 1) :
    Rounds N M R { s with
      count := c
      draining := decide (c ≠ 0)
      thread := update s.thread i
        { s.thread i with pc := .resetAcquire, rounds := (s.thread i).rounds + 1 } } := by
  have hok := h.meals i hi
  have hround := h.rounds
  simp only [hdrain, if_true] at hround
  have hi1 : (s.thread i).waiting = 1 := by simp [Local.waiting, hpc]
  refine h.move hi rfl (update_eq_self i s.mealsEaten).symm ?_ ?_ ?_ ?_ ?_ ?_
  · simp only [Local.MealsOk, hpc] at hok ⊢
    rw [Nat.mul_succ]
    exact hok
  · simp [Local.waiting, hpc, hc]
  · simp only [decide_eq_true_eq]
    omega
  · simp only [decide_eq_false_iff_not, not_not]
    omega
  · have := hround i hi
    simp only [Local.waiting, reduceCtorEq, if_false, ite_self]
    omega
  · intro j hj hji
    have hj' := hround j hj
    by_cases h0 : c = 0
    · -- the thread was the last one
      have hjw : (s.thread j).waiting = 0 := by
        have hle := add_le_tally Local.waiting s.thread hi hj hji.symm
        have := h.count
        omega
      simpa [h0, hjw] using hj'
    · simpa [h0] using hj'

/-- **One step keeps the invariant of the barrier and the meals.** -/
theorem Rounds.step (hR : 0 < R) (h : Rounds N M R s) (hi : i < N)
    (hstep : PhilStep N M R i s t) : Rounds N M R t := by
  have hok := h.meals i hi
  cases hstep with
  | arrive hpc hfill hne => exact h.arrive hi hpc hfill hne
  | arriveLast hpc hfill hN => exact h.arriveLast hi hpc hfill hN
  | depart hpc hdrain hc => exact h.depart hi hpc hdrain hc
  | acquire hpc hk | checkWait hpc hk | checkGo hpc hk =>
    refine h.setPc hi rfl rfl rfl rfl rfl (by simp [hpc]) (by simp) ?_
    simp only [Local.MealsOk, hpc] at hok ⊢
    omega
  | leaveWait hpc | leave hpc | resetAcquire hpc | resetRelease hpc | getAcquire hpc
  | getHungry hpc | getRelease hpc | getWait hpc | eaten hpc | putAcquire hpc | putThink hpc =>
    refine h.setPc hi rfl rfl rfl rfl rfl (by simp [hpc]) (by simp) ?_
    simpa only [Local.MealsOk, hpc] using hok
  | @testPass w hpc hmay =>
    refine h.setPc hi rfl rfl rfl rfl rfl (by simp [hpc]) (by simp) ?_
    cases w <;> simpa only [Local.MealsOk, hpc] using hok
  | @testFail w hpc hmay | @grant w j hpc =>
    refine h.setPc hi rfl rfl rfl rfl rfl (by simp [hpc]) (by cases w <;> simp [Who.next]) ?_
    cases w <;> simpa only [Local.MealsOk, hpc, Who.next] using hok
  | reset hpc | putCount hpc =>
    refine h.outside hi rfl rfl ?_ rfl rfl rfl (by simp [hpc]) (by simp) rfl
    simp only [Local.MealsOk, hpc] at hok ⊢
    omega
  | putRelease hpc =>
    refine h.outside hi rfl (update_eq_self i s.mealsEaten).symm ?_ rfl rfl rfl
      (by simp [hpc]) (by simp) rfl
    simp only [Local.MealsOk, hpc] at hok ⊢
    omega

theorem rounds_init (hN : 0 < N) : Rounds N M R initState := by
  refine ⟨?_, by simp [initState], fun _ => hN, by simp [initState], ?_⟩
  · simp [initState, tally, Local.waiting]
  · simp [initState, Local.MealsOk]

/-- The rounds in every reachable state. -/
theorem rounds_reachable (hN : 0 < N) (hR : 0 < R) (hreach : (system N M R).Reachable s) :
    Rounds N M R s := by
  refine hreach.invariant (I := Rounds N M R) ?_ ?_
  · rintro _ rfl
    exact rounds_init hN
  · rintro s i t h ⟨hi, hstep⟩
    exact h.step hR hi hstep

/-- A philosopher has had all meals of the rounds that the barrier has completed, and at most those
of the next one. -/
theorem Rounds.eaten_bounds (h : Rounds N M R s) (hi : i < N) :
    R * s.gen ≤ (s.thread i).eaten ∧ (s.thread i).eaten ≤ R * s.gen + R := by
  have hround := h.rounds i hi
  have hok := h.meals i hi
  by_cases hw : s.draining = true ∧ (s.thread i).pc = .waiting
  · obtain ⟨hdrain, hpc⟩ := hw
    simp only [hdrain, if_true, Local.waiting, hpc] at hround
    simp only [Local.MealsOk, hpc] at hok
    rw [← hround, Nat.mul_succ]
    omega
  · have hgen : (s.thread i).rounds = s.gen := by
      rw [← hround]
      by_cases hdrain : s.draining = true
      · have hpc : (s.thread i).pc ≠ .waiting := fun hpc => hw ⟨hdrain, hpc⟩
        simp [Local.waiting, hpc]
      · simp [hdrain]
    rw [← hgen]
    cases hpc : (s.thread i).pc with
    | test w | grant w k =>
      cases w <;> simp only [Local.MealsOk, hpc] at hok <;> omega
    | _ =>
      simp only [Local.MealsOk, hpc] at hok
      omega

/-- A round has at least one meal. -/
theorem rendezvousPoint_pos (hN : 0 < N) (hM : 0 < M) : 0 < rendezvousPoint N M := by
  rw [rendezvousPoint]
  split_ifs with h
  · exact Nat.div_pos h hN
  · exact Nat.div_pos (by omega) hM

/-- **Bounded unfairness.** In every reachable state, the numbers of meals that two philosophers
have completed differ by at most `rendezvousPoint`, for every value of it from 1 on; the one that
`run_tanenbaum` computes is such a value. -/
theorem meals_bounded (hN : 1 ≤ N) (hM : 1 ≤ M) :
    1 ≤ rendezvousPoint N M ∧ ∀ R, 1 ≤ R → ∀ s, (system N M R).Reachable s →
      ∀ i < N, ∀ j < N, (s.thread i).eaten ≤ (s.thread j).eaten + R := by
  refine ⟨rendezvousPoint_pos hN hM, fun R hR s hreach i hi j hj => ?_⟩
  have h := rounds_reachable hN hR hreach
  have hi := h.eaten_bounds hi
  have hj := h.eaten_bounds hj
  omega

/-- A run of two philosophers with one meal each, in which philosopher 0 gets its forks. -/
theorem reachable_two : ∃ s, (system 2 1 (rendezvousPoint 2 1)).Reachable s ∧
    s.thread 0 = ⟨.eating, 0, 0, 0⟩ ∧ (s.thread 1).eaten = 0 ∧ s.mutex = false := by
  have h0 : (system 2 1 (rendezvousPoint 2 1)).Reachable initState := .init rfl
  have h1 := h0.step (l := 0) ⟨by decide, .acquire rfl (by decide) rfl⟩
  have h2 := h1.step (l := 0) ⟨by decide, .checkGo rfl (by decide)⟩
  have h3 := h2.step (l := 0) ⟨by decide, .leave rfl⟩
  have h4 := h3.step (l := 0) ⟨by decide, .getAcquire rfl rfl⟩
  have h5 := h4.step (l := 0) ⟨by decide, .getHungry rfl⟩
  have h6 := h5.step (l := 0) ⟨by decide, .testPass (w := .own) rfl ⟨rfl, by decide, by decide⟩⟩
  have h7 := h6.step (l := 0) ⟨by decide, .grant (w := .own) rfl⟩
  have h8 := h7.step (l := 0) ⟨by decide, .getRelease rfl⟩
  have h9 := h8.step (l := 0) ⟨by decide, .getWait rfl rfl⟩
  exact ⟨_, h9, rfl, rfl, rfl⟩

/-- The bound at work: of two philosophers, one has eaten. -/
theorem meals_bounded_two : ∃ s, (system 2 1 (rendezvousPoint 2 1)).Reachable s ∧
    (s.thread 0).eaten = 1 ∧ (s.thread 1).eaten = 0 ∧
    (s.thread 0).eaten ≤ (s.thread 1).eaten + rendezvousPoint 2 1 := by
  obtain ⟨s, h0, hfirst, hsecond, hfree⟩ := reachable_two
  have h1 := h0.step (l := 0) ⟨by decide, .eaten (by rw [hfirst])⟩
  have h2 := h1.step (l := 0) ⟨by decide, .putAcquire (by rw [s.setPc_self]) hfree⟩
  have h3 := h2.step (l := 0) ⟨by decide, .putThink rfl⟩
  have h4 := h3.step (l := 0) ⟨by decide, .putCount rfl⟩
  obtain ⟨hpos, hbound⟩ := meals_bounded (N := 2) (M := 1) (by decide) (by decide)
  refine ⟨_, h4, ?_, hsecond, hbound _ hpos _ h4 0 (by decide) 1 (by decide)⟩
  exact congrArg (fun l : Local => l.eaten + 1) hfirst

end Barrier

end Xv6.Tanenbaum
