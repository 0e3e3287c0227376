import Xv6.Threads

/-!
# Dining Philosophers with Locks

The threads of `run_footman` and `run_left` in `mp3/3_philosophers.py`: philosophers in a ring,
each of which takes the fork on either side of it, eats, and puts both down. In the footman
solution a semaphore lets all but one of them to the table; in the left-handed solution the last
philosopher takes its forks in the other order.

The two differ in the order of the forks and in the semaphore, so both are a `Solution`, and the
steps of the threads are defined for any of them.

## Main results

* `Inv.step`: a fork is locked exactly if one philosopher holds it, and the footman's permits
  count those that are away from the table.
* `progress_of_order`: a solution whose forks are taken in descending order does not deadlock.
* `progress_of_footman`: nor does one that keeps a philosopher away from the table.
* `forks_safe_and_live`: **both solutions are safe and never stuck.**
-/

open Transition Threads

namespace Xv6.Philosophers

/-! ### The ring -/

/-- `left(i)`: the fork on the left of philosopher `i`. -/
def left (i : ℕ) : ℕ := i

/-- `right(i)`: the fork on its right, of `N` forks. -/
def right (N i : ℕ) : ℕ := (i + 1) % N

/-- `get_forks(i)`: the forks in the order in which they are acquired. -/
def getForks (N i : ℕ) : ℕ × ℕ := (right N i, left i)

/-- `get_forks_left(i)`. -/
def getForksLeft (N i : ℕ) : ℕ × ℕ := (left i, right N i)

/-- The fork on the right, by cases. -/
theorem right_eq {N i : ℕ} (hi : i < N) : right N i = if i + 1 = N then 0 else i + 1 := by
  rw [right]
  split_ifs with h
  · rw [h, Nat.mod_self]
  · exact Nat.mod_eq_of_lt (by omega)

theorem right_lt {N i : ℕ} (hi : i < N) : right N i < N := Nat.mod_lt _ (by omega)

theorem left_ne_right {N i : ℕ} (hN : 2 ≤ N) (hi : i < N) : left i ≠ right N i := by
  rw [right_eq hi, left]
  split_ifs <;> omega

/-! ### The model -/

/-- What the solutions differ in: the order in which a philosopher takes its forks, and the
initial permits of the footman, if there is one. -/
structure Solution (N : ℕ) where
  order : ℕ → ℕ × ℕ
  order_eq : ∀ i, order i = getForks N i ∨ order i = getForksLeft N i
  footman : Option ℕ

/-- `footman_solution`. -/
def footmanSolution (N : ℕ) : Solution N where
  order := getForks N
  order_eq _ := .inl rfl
  footman := some (N - 1)

/-- `left_handed_solution`. -/
def leftHandedSolution (N : ℕ) : Solution N where
  order i := if i = N - 1 then getForksLeft N i else getForks N i
  order_eq i := by split_ifs <;> simp
  footman := none

/-- Where a philosopher stands. -/
inductive Pc
  /-- at the head of the loop over the meals -/
  | top
  /-- at the first `acquire()` of a fork -/
  | seated
  /-- at the second one -/
  | hasOne
  /-- in `slow_down()` -/
  | eating
  /-- at `forks[right(i)].release()` -/
  | putRight
  /-- at `forks[left(i)].release()` -/
  | putLeft
  /-- past `put_forks` -/
  | leaving
  deriving DecidableEq, Repr

/-- A philosopher, with the meals that are left. -/
structure Phil where
  pc : Pc
  meals : ℕ
  deriving DecidableEq, Repr

/-- The locks, the footman if there is one, and the threads. -/
structure State where
  forks : ℕ → Bool
  footman : Option ℕ
  phil : ℕ → Phil

namespace State

/-- Change where a philosopher stands. -/
def setPc (s : State) (i : ℕ) (c : Pc) : State :=
  { s with phil := Function.update s.phil i ⟨c, (s.phil i).meals⟩ }

/-- Change a fork. -/
def setFork (s : State) (k : ℕ) (b : Bool) : State :=
  { s with forks := Function.update s.forks k b }

end State

section Model

variable {N : ℕ} (C : Solution N)

/-- The steps of philosopher `i`. -/
inductive PhilStep (i : ℕ) : State → State → Prop
  | footmanAcquire {s m k} : (s.phil i).pc = .top → (s.phil i).meals = m + 1 →
      s.footman = some (k + 1) → PhilStep i s { s.setPc i .seated with footman := some k }
  | noFootman {s m} : (s.phil i).pc = .top → (s.phil i).meals = m + 1 → s.footman = none →
      PhilStep i s (s.setPc i .seated)
  | first {s} : (s.phil i).pc = .seated → s.forks (C.order i).1 = false →
      PhilStep i s ((s.setFork (C.order i).1 true).setPc i .hasOne)
  | second {s} : (s.phil i).pc = .hasOne → s.forks (C.order i).2 = false →
      PhilStep i s ((s.setFork (C.order i).2 true).setPc i .eating)
  | eaten {s} : (s.phil i).pc = .eating → PhilStep i s (s.setPc i .putRight)
  | putRight {s} : (s.phil i).pc = .putRight →
      PhilStep i s ((s.setFork (right N i) false).setPc i .putLeft)
  | putLeft {s} : (s.phil i).pc = .putLeft →
      PhilStep i s ((s.setFork (left i) false).setPc i .leaving)
  | footmanRelease {s k} : (s.phil i).pc = .leaving → s.footman = some k →
      PhilStep i s { s with
        footman := some (k + 1)
        phil := Function.update s.phil i ⟨.top, (s.phil i).meals - 1⟩ }
  | noRelease {s} : (s.phil i).pc = .leaving → s.footman = none →
      PhilStep i s { s with phil := Function.update s.phil i ⟨.top, (s.phil i).meals - 1⟩ }

/-- The state in which the threads are started, with `NUM_MEALS = M`. -/
def initState (M : ℕ) : State := ⟨fun _ => false, C.footman, fun _ => ⟨.top, M⟩⟩

/-- The runs of a solution. -/
def system (M : ℕ) : System State ℕ where
  init s := s = initState C M
  step s i t := i < N ∧ PhilStep C i s t

/-! ### Forks that are held -/

/-- Philosopher `i` holds the fork `k`. -/
def Holds (i : ℕ) (p : Phil) (k : ℕ) : Prop :=
  match p.pc with
  | .top | .seated | .leaving => False
  | .hasOne => k = (C.order i).1
  | .eating | .putRight => k = left i ∨ k = right N i
  | .putLeft => k = left i

end Model

/-- The philosopher is between `get_forks` and `put_forks`. -/
def Phil.Eats (p : Phil) : Prop := p.pc = .eating ∨ p.pc = .putRight

/-- The philosopher has had its meals. -/
def Phil.Finished (p : Phil) : Prop := p.pc = .top ∧ p.meals = 0

/-- The philosopher is between `footman.acquire()` and `footman.release()`. -/
def Phil.inside (p : Phil) : ℕ := if p.pc = .top then 0 else 1

section Invariant

variable {N i j : ℕ} {C : Solution N} {s t : State}

/-- The forks that a philosopher takes are those on its left and on its right. -/
theorem mem_order_iff (C : Solution N) (i k : ℕ) :
    k = (C.order i).1 ∨ k = (C.order i).2 ↔ k = left i ∨ k = right N i := by
  rcases C.order_eq i with h | h <;> rw [h]
  · exact or_comm
  · exact Iff.rfl

/-- **The invariant.** -/
structure Inv (C : Solution N) (s : State) : Prop where
  forks : ∀ k, s.forks k = true ↔ ∃ i < N, Holds C i (s.phil i) k
  unique : ∀ i < N, ∀ j < N, ∀ k, Holds C i (s.phil i) k → Holds C j (s.phil j) k → i = j
  footman : ∀ w, C.footman = some w →
    ∃ v, s.footman = some v ∧ v + tally N Phil.inside s.phil = w
  noFootman : C.footman = none → s.footman = none

/-- **A philosopher moves:** it has the forks that it had, or that were free, the locks are as it
leaves them, and the footman balances. -/
theorem Inv.move {p : Phil} (h : Inv C s) (hi : i < N)
    (hphil : t.phil = Function.update s.phil i p)
    (hnew : ∀ k, Holds C i p k → Holds C i (s.phil i) k ∨ s.forks k = false)
    (hforks : ∀ k, t.forks k = true ↔
      Holds C i p k ∨ (s.forks k = true ∧ ¬ Holds C i (s.phil i) k))
    (hfoot : ∀ v, s.footman = some v →
      ∃ v', t.footman = some v' ∧ v' + p.inside = v + (s.phil i).inside)
    (hnone : s.footman = none → t.footman = none) : Inv C t := by
  have hself : t.phil i = p := by rw [hphil, Function.update_self]
  have hother (j : ℕ) (hj : j ≠ i) : t.phil j = s.phil j := by rw [hphil, Function.update_of_ne hj]
  -- whoever else holds a fork, the philosopher does not get it
  have hexcl (j : ℕ) (hj : j < N) (hji : j ≠ i) (k : ℕ) (hk : Holds C j (s.phil j) k) :
      ¬ Holds C i p k := by
    intro hp
    rcases hnew k hp with hik | hfree
    · exact hji (h.unique j hj i hi k hk hik)
    · have := (h.forks k).mpr ⟨j, hj, hk⟩
      simp [hfree] at this
  refine ⟨fun k => ?_, fun a ha b hb k hka hkb => ?_, fun w hw => ?_,
    fun hn => hnone (h.noFootman hn)⟩
  · rw [hforks]
    constructor
    · rintro (hp | ⟨hs, hni⟩)
      · exact ⟨i, hi, hself ▸ hp⟩
      · obtain ⟨j, hj, hk⟩ := (h.forks k).mp hs
        have hji : j ≠ i := by
          rintro rfl
          exact hni hk
        exact ⟨j, hj, hother j hji ▸ hk⟩
    · rintro ⟨j, hj, hk⟩
      by_cases hji : j = i
      · subst hji
        exact .inl (hself ▸ hk)
      · rw [hother j hji] at hk
        exact .inr ⟨(h.forks k).mpr ⟨j, hj, hk⟩, fun hik => hji (h.unique j hj i hi k hk hik)⟩
  · by_cases hai : a = i <;> by_cases hbi : b = i
    · rw [hai, hbi]
    · subst hai
      rw [hother b hbi] at hkb
      exact absurd (hself ▸ hka) (hexcl b hb hbi k hkb)
    · subst hbi
      rw [hother a hai] at hka
      exact absurd (hself ▸ hkb) (hexcl a ha hai k hka)
    · rw [hother a hai] at hka
      rw [hother b hbi] at hkb
      exact h.unique a ha b hb k hka hkb
  · obtain ⟨v, hv, hsum⟩ := h.footman w hw
    obtain ⟨v', hv', hbal⟩ := hfoot v hv
    have htally := tally_update Phil.inside s.phil p hi
    rw [← hphil] at htally
    exact ⟨v', hv', by omega⟩

/-- A philosopher that stays at the table leaves the footman alone. -/
theorem Inv.stay {c : Pc} (h : Inv C s) (hi : i < N) (hc : c ≠ .top) (hpc : (s.phil i).pc ≠ .top)
    (hphil : t.phil = (s.setPc i c).phil) (hfoot : t.footman = s.footman)
    (hnew : ∀ k, Holds C i ⟨c, (s.phil i).meals⟩ k →
      Holds C i (s.phil i) k ∨ s.forks k = false)
    (hforks : ∀ k, t.forks k = true ↔
      Holds C i ⟨c, (s.phil i).meals⟩ k ∨ (s.forks k = true ∧ ¬ Holds C i (s.phil i) k)) :
    Inv C t := by
  refine h.move hi hphil hnew hforks (fun v hv => ⟨v, hfoot.trans hv, ?_⟩)
    fun hn => hfoot.trans hn
  rw [Phil.inside, Phil.inside, if_neg hpc, if_neg hc]

/-- A philosopher that holds no fork before and after leaves the forks alone. -/
theorem Inv.noFork {p : Phil} (h : Inv C s) (hi : i < N)
    (hphil : t.phil = Function.update s.phil i p) (hforks : t.forks = s.forks)
    (hbefore : ∀ k, ¬ Holds C i (s.phil i) k) (hafter : ∀ k, ¬ Holds C i p k)
    (hfoot : ∀ v, s.footman = some v →
      ∃ v', t.footman = some v' ∧ v' + p.inside = v + (s.phil i).inside)
    (hnone : s.footman = none → t.footman = none) : Inv C t :=
  h.move hi hphil (fun k hk => absurd hk (hafter k))
    (fun k => by simp [hforks, hbefore k, hafter k]) hfoot hnone

/-- **One step keeps the invariant.** -/
theorem Inv.step (hN : 2 ≤ N) (h : Inv C s) (hi : i < N) (hstep : PhilStep C i s t) : Inv C t := by
  have hlr := left_ne_right hN hi
  cases hstep with
  | footmanAcquire hpc hm hk | footmanRelease hpc hk =>
    refine h.noFork hi rfl rfl (by simp [Holds, hpc]) (by simp [Holds]) (fun v hv => ?_)
      (by simp [hk])
    obtain rfl : v = _ := Option.some.inj (hv.symm.trans hk)
    exact ⟨_, rfl, by simp [Phil.inside, hpc]⟩
  | noFootman hpc hm hn | noRelease hpc hn =>
    exact h.noFork hi rfl rfl (by simp [Holds, hpc]) (by simp [Holds]) (by simp [hn]) id
  | first hpc hfree =>
    refine h.stay hi (by simp) (by simp [hpc]) rfl rfl ?_ fun k => ?_
    · intro k hk
      obtain rfl : k = (C.order i).1 := hk
      exact .inr hfree
    · by_cases hk : k = (C.order i).1 <;>
        simp [Holds, hpc, State.setFork, State.setPc, hk]
  | second hpc hfree =>
    have hiff := mem_order_iff C i
    refine h.stay hi (by simp) (by simp [hpc]) rfl rfl ?_ fun k => ?_
    · intro k hk
      rcases (hiff k).mpr hk with rfl | rfl
      · exact .inl (by simp [Holds, hpc])
      · exact .inr hfree
    · have hheld : s.forks (C.order i).1 = true := (h.forks _).mpr ⟨i, hi, by simp [Holds, hpc]⟩
      simp only [Holds, hpc, State.setFork, State.setPc, Function.update_apply, ← hiff k]
      by_cases h2 : k = (C.order i).2
      · simp [h2]
      · by_cases h1 : k = (C.order i).1
        · simp [h1, hheld]
        · simp [h1, h2]
  | eaten hpc =>
    refine h.stay hi (by simp) (by simp [hpc]) rfl rfl (by simp [Holds, hpc]) fun k => ?_
    have hheld : Holds C i (s.phil i) k → s.forks k = true := fun hk => (h.forks k).mpr ⟨i, hi, hk⟩
    simp only [Holds, hpc, State.setPc] at hheld ⊢
    tauto
  | putRight hpc =>
    refine h.stay hi (by simp) (by simp [hpc]) rfl rfl (by simp +contextual [Holds, hpc])
      fun k => ?_
    have hheld : s.forks (left i) = true := (h.forks _).mpr ⟨i, hi, by simp [Holds, hpc]⟩
    simp only [Holds, hpc, State.setFork, State.setPc, Function.update_apply]
    by_cases hr : k = right N i
    · simp [hr, hlr.symm]
    · by_cases hl : k = left i
      · simp [hl, hlr, hheld]
      · simp [hl, hr]
  | putLeft hpc =>
    refine h.stay hi (by simp) (by simp [hpc]) rfl rfl (by simp [Holds]) fun k => ?_
    by_cases hl : k = left i <;>
      simp [Holds, hpc, State.setFork, State.setPc, hl]

/-- The invariant in every reachable state. -/
theorem inv_reachable {M : ℕ} (hN : 2 ≤ N) (hreach : (system C M).Reachable s) : Inv C s := by
  refine hreach.invariant (I := Inv C) ?_ ?_
  · rintro _ rfl
    refine ⟨by simp [initState, Holds], by simp [initState, Holds], fun w hw => ⟨w, hw, ?_⟩,
      fun hn => hn⟩
    simp [initState, tally, Phil.inside]
  · rintro s i t h ⟨hi, hstep⟩
    exact h.step hN hi hstep

/-! ### Progress -/

/-- What is known of the philosophers when no step is possible. -/
structure Stuck (C : Solution N) (s : State) : Prop where
  pc : ∀ i < N, (s.phil i).pc = .top ∨ (s.phil i).pc = .seated ∨ (s.phil i).pc = .hasOne
  first : ∀ i < N, (s.phil i).pc = .seated → s.forks (C.order i).1 = true
  second : ∀ i < N, (s.phil i).pc = .hasOne → s.forks (C.order i).2 = true
  footman : ∀ i < N, (s.phil i).pc = .top → (s.phil i).meals ≠ 0 → s.footman = some 0

/-- What it takes for nobody to have a step. -/
theorem stuck_of_no_step (hno : ¬ ∃ i < N, ∃ t, PhilStep C i s t) : Stuck C s := by
  refine ⟨fun i hi => ?_, fun i hi hpc => ?_, fun i hi hpc => ?_, fun i hi hpc hm => ?_⟩
  · cases hpc : (s.phil i).pc with
    | top | seated | hasOne => simp
    | eating => exact absurd ⟨i, hi, _, .eaten hpc⟩ hno
    | putRight => exact absurd ⟨i, hi, _, .putRight hpc⟩ hno
    | putLeft => exact absurd ⟨i, hi, _, .putLeft hpc⟩ hno
    | leaving =>
      cases hf : s.footman with
      | none => exact absurd ⟨i, hi, _, .noRelease hpc hf⟩ hno
      | some k => exact absurd ⟨i, hi, _, .footmanRelease hpc hf⟩ hno
  · by_contra hfree
    exact hno ⟨i, hi, _, .first hpc (Bool.eq_false_iff.mpr hfree)⟩
  · by_contra hfree
    exact hno ⟨i, hi, _, .second hpc (Bool.eq_false_iff.mpr hfree)⟩
  · obtain ⟨m, hm⟩ := Nat.exists_eq_succ_of_ne_zero hm
    rcases hf : s.footman with _ | _ | k
    · exact absurd ⟨i, hi, _, .noFootman hpc hm hf⟩ hno
    · rfl
    · exact absurd ⟨i, hi, _, .footmanAcquire hpc hm hf⟩ hno

/-- When no step is possible, a locked fork is the first fork of a philosopher that waits for its
second one. -/
theorem Stuck.holder {k : ℕ} (h : Stuck C s) (hinv : Inv C s) (hk : s.forks k = true) :
    ∃ j < N, (s.phil j).pc = .hasOne ∧ k = (C.order j).1 := by
  obtain ⟨j, hj, hheld⟩ := (hinv.forks k).mp hk
  rcases h.pc j hj with hpc | hpc | hpc
  · simp [Holds, hpc] at hheld
  · simp [Holds, hpc] at hheld
  · exact ⟨j, hj, hpc, by simpa [Holds, hpc] using hheld⟩

/-- If no philosopher waits for its second fork, none is at the table. -/
theorem Stuck.all_top (h : Stuck C s) (hinv : Inv C s)
    (hnone : ∀ i < N, (s.phil i).pc ≠ .hasOne) (i : ℕ) (hi : i < N) : (s.phil i).pc = .top := by
  rcases h.pc i hi with hpc | hpc | hpc
  · exact hpc
  · obtain ⟨j, hj, hone, -⟩ := h.holder hinv (h.first i hi hpc)
    exact absurd hone (hnone j hj)
  · exact absurd hpc (hnone i hi)

/-- **Forks in descending order.** The second fork of a philosopher has a lower number than its
first one, so following the philosophers that wait for each other comes to an end. -/
theorem progress_of_order (horder : ∀ i < N, (C.order i).2 < (C.order i).1)
    (hfoot : C.footman = none) (hinv : Inv C s) (hun : ∃ i < N, ¬ (s.phil i).Finished) :
    ∃ i < N, ∃ t, PhilStep C i s t := by
  by_contra hno
  have h := stuck_of_no_step hno
  -- by induction on the number of the fork that is waited for
  have hnone (k : ℕ) : ∀ i < N, (C.order i).2 = k → (s.phil i).pc ≠ .hasOne := by
    induction k using Nat.strong_induction_on with
    | _ k ih =>
      intro i hi hk hpc
      obtain ⟨j, hj, hone, hkj⟩ := h.holder hinv (h.second i hi hpc)
      have hlt := horder j hj
      exact ih _ (by omega) j hj rfl hone
  obtain ⟨i, hi, hi'⟩ := hun
  have htop := h.all_top hinv (fun i hi => hnone _ i hi rfl) i hi
  have hm : (s.phil i).meals ≠ 0 := fun hm => hi' ⟨htop, hm⟩
  have := h.footman i hi htop hm
  simp [hinv.noFootman hfoot] at this

/-- **One philosopher away.** If all forks are taken the same way round and one waits for its
second fork, so do all; the footman does not let all of them to the table. -/
theorem progress_of_footman (hN : 2 ≤ N) (horder : C.order = getForks N)
    (hfoot : C.footman = some (N - 1)) (hinv : Inv C s) (hun : ∃ i < N, ¬ (s.phil i).Finished) :
    ∃ i < N, ∃ t, PhilStep C i s t := by
  by_contra hno
  have h := stuck_of_no_step hno
  obtain ⟨v, hv, hsum⟩ := hinv.footman _ hfoot
  -- the fork that philosopher `i` waits for is held by the one on its left
  have hpred (i : ℕ) (hi : i < N) (hpc : (s.phil i).pc = .hasOne) :
      ∃ j < N, (s.phil j).pc = .hasOne ∧ i = right N j := by
    have hk := h.second i hi hpc
    rw [horder] at hk
    obtain ⟨j, hj, hone, hij⟩ := h.holder hinv hk
    rw [horder] at hij
    exact ⟨j, hj, hone, hij⟩
  have hnone (i : ℕ) (hi : i < N) : (s.phil i).pc ≠ .hasOne := by
    intro hpc
    have hdown (k : ℕ) : ∀ i < N, k ≤ i → (s.phil i).pc = .hasOne →
        (s.phil (i - k)).pc = .hasOne := by
      induction k with
      | zero => exact fun i _ _ hi => hi
      | succ k ih =>
        intro i hi hk hpc
        obtain ⟨j, hj, hone, hij⟩ := hpred i hi hpc
        rw [right_eq hj] at hij
        split_ifs at hij
        · omega
        · have hkj := ih j hj (by omega) hone
          have hsub : j - k = i - (k + 1) := by omega
          rwa [hsub] at hkj
    have hzero : (s.phil 0).pc = .hasOne := by
      simpa using hdown i i hi le_rfl hpc
    have hlast : (s.phil (N - 1)).pc = .hasOne := by
      obtain ⟨j, hj, hone, hij⟩ := hpred 0 (by omega) hzero
      rw [right_eq hj] at hij
      split_ifs at hij with hjN
      obtain rfl : N - 1 = j := by omega
      exact hone
    have hall (j : ℕ) (hj : j < N) : (s.phil j).pc = .hasOne := by
      have hj' := hdown (N - 1 - j) (N - 1) (by omega) (by omega) hlast
      rwa [Nat.sub_sub_self (by omega)] at hj'
    have hone (j : ℕ) (hj : j ∈ Finset.range N) : (s.phil j).inside = 1 := by
      simp [Phil.inside, hall j (Finset.mem_range.mp hj)]
    have htally : tally N Phil.inside s.phil = N := by
      rw [tally, Finset.sum_congr rfl hone]
      simp
    omega
  have htop := h.all_top hinv hnone
  obtain ⟨i, hi, hi'⟩ := hun
  have hm : (s.phil i).meals ≠ 0 := fun hm => hi' ⟨htop i hi, hm⟩
  have hempty : tally N Phil.inside s.phil = 0 :=
    tally_eq_zero_iff.mpr fun j hj => by simp [Phil.inside, htop j hj]
  have hzero := h.footman i hi (htop i hi) hm
  obtain rfl : v = 0 := Option.some.inj (hv.symm.trans hzero)
  omega

/-- The last philosopher's reversed order makes every order descending. -/
theorem order_leftHanded (hN : 2 ≤ N) (hi : i < N) :
    ((leftHandedSolution N).order i).2 < ((leftHandedSolution N).order i).1 := by
  simp only [leftHandedSolution]
  split_ifs with hlast <;> simp only [getForks, getForksLeft, right_eq hi, left] <;>
    split_ifs <;> omega

/-- **The footman and the left-handed solution are safe and never stuck.** In every reachable
state of either, with any number of meals, no fork is held by two philosophers, no two neighbours
eat, and if some philosopher has not had its meals then one of them can take a step. -/
theorem forks_safe_and_live {M : ℕ} (hN : 2 ≤ N)
    (hC : C = footmanSolution N ∨ C = leftHandedSolution N)
    (hreach : (system C M).Reachable s) :
    (∀ i < N, ∀ j < N, ∀ k, Holds C i (s.phil i) k → Holds C j (s.phil j) k → i = j) ∧
    (∀ i < N, ¬ ((s.phil i).Eats ∧ (s.phil (right N i)).Eats)) ∧
    ((∃ i < N, ¬ (s.phil i).Finished) → ∃ i t, (system C M).step s i t) := by
  have hinv := inv_reachable hN hreach
  refine ⟨hinv.unique, fun i hi hboth => ?_, fun hun => ?_⟩
  · obtain ⟨h1, h2⟩ := hboth
    have heq : i = right N i := by
      refine hinv.unique i hi _ (right_lt hi) (right N i) ?_ ?_
      · rcases h1 with h1 | h1 <;> simp [Holds, h1]
      · rcases h2 with h2 | h2 <;> simp [Holds, h2, left]
    exact left_ne_right hN hi heq
  · have hstep : ∃ i < N, ∃ t, PhilStep C i s t := by
      rcases hC with rfl | rfl
      · exact progress_of_footman hN rfl rfl hinv hun
      · exact progress_of_order (fun i hi => order_leftHanded hN hi) rfl hinv hun
    obtain ⟨i, hi, t, ht⟩ := hstep
    exact ⟨i, t, hi, ht⟩

/-- The solutions at work: philosopher 0 of five eats, so philosopher 1 does not. -/
theorem forks_safe_and_live_five : ∃ s, (system (footmanSolution 5) 20).Reachable s ∧
    (s.phil 0).Eats ∧ ¬ (s.phil 1).Eats ∧ ∃ i t, (system (footmanSolution 5) 20).step s i t := by
  have h0 : (system (footmanSolution 5) 20).Reachable (initState (footmanSolution 5) 20) :=
    .init rfl
  have h1 := h0.step (l := 0) ⟨by decide, .footmanAcquire rfl rfl rfl⟩
  have h2 := h1.step (l := 0) ⟨by decide, .first rfl rfl⟩
  have h3 := h2.step (l := 0) ⟨by decide, .second rfl rfl⟩
  obtain ⟨-, hsafe, hlive⟩ := forks_safe_and_live (by decide) (.inl rfl) h3
  exact ⟨_, h3, .inl rfl, fun h => hsafe 0 (by decide) ⟨.inl rfl, h⟩,
    hlive ⟨0, by decide, by simp [Phil.Finished, State.setPc]⟩⟩

end Invariant

end Xv6.Philosophers
