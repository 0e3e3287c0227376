import Xv6.TanenbaumMeals

/-!
# The Table

Who eats and who waits in the Tanenbaum solution. Neighbours do not eat together, and whoever is
hungry has a neighbour that eats, unless the thread that holds `mutex` is about to look after it.
A state without a step would have all threads ended or waiting at the barrier, which the rounds of
`Xv6.TanenbaumMeals` exclude.

## Main results

* `Moods.step`: one step keeps the table in order.
* `progress`: a state with an unfinished thread has a step.
* `tanenbaum_safe_and_live`: **the solution is safe and never stuck.**
-/

open Transition Threads
open Function (update update_of_ne update_self)

namespace Xv6.Tanenbaum

/-- The thread holds `mutex`. -/
@[simp] def Local.inMutex (l : Local) : ℕ :=
  match l.pc with
  | .check | .leaveWait | .leave | .reset | .resetRelease | .getHungry | .test _ | .grant _ _
  | .getRelease | .putThink | .putCount | .putRelease => 1
  | _ => 0

/-- The thread is about to release `phil[j]`. -/
@[simp] def Local.granting (j : ℕ) (l : Local) : ℕ :=
  match l.pc with
  | .grant _ k => if k = j then 1 else 0
  | _ => 0

namespace Pc

/-- The entry of `state` that goes with where a philosopher stands. -/
@[simp] def MoodOk : Pc → Mood → Prop
  | .test .own, m => m = .hungry
  | .grant .own _, m | .eating, m | .putAcquire, m | .putThink, m => m = .eating
  | .getRelease, m | .getWait, m => m ≠ .thinking
  | _, m => m = .thinking

/-- The philosopher has not yet passed `phil[i].acquire()`. -/
@[simp] def seeks : Pc → ℕ
  | .grant .own _ | .getRelease | .getWait => 1
  | _ => 0

/-- The permits of `phil[i]` that a philosopher has been or will be given. -/
@[simp] def entitled (c : Pc) (m : Mood) : ℕ := if m = .eating then c.seeks else 0

/-- Philosopher `i` is about to call `test(j)`. -/
@[simp] def Owes (N i : ℕ) : Pc → ℕ → Prop
  | .test .own, j => j = i
  | .putCount, j | .test .right, j => j = tright N i ∨ j = tleft N i
  | .grant .right _, j | .test .left, j => j = tleft N i
  | _, _ => False

end Pc

/-- A neighbour of philosopher `j` eats. -/
def State.NbrEats (s : State) (N j : ℕ) : Prop :=
  s.state (tleft N j) = .eating ∨ s.state (tright N j) = .eating

/-- **The invariant of the table.** -/
structure Moods (N : ℕ) (s : State) : Prop where
  mutex : tally N Local.inMutex s.thread = s.mutex.toNat
  excl : ∀ j < N, s.state j = .eating → s.state (tright N j) ≠ .eating
  mood : ∀ j < N, (s.thread j).pc.MoodOk (s.state j)
  sem : ∀ j < N,
    s.phil j + tally N (Local.granting j) s.thread = (s.thread j).pc.entitled (s.state j)
  hungry : ∀ j < N, s.state j = .hungry → s.NbrEats N j ∨ ∃ k < N, (s.thread k).pc.Owes N k j

section Table

variable {N M R i j : ℕ} {s t : State}

/-- At most one thread holds `mutex`. -/
theorem Moods.mutex_excl (h : Moods N s) (hi : i < N) (hj : j < N) (hne : i ≠ j) :
    (s.thread i).inMutex + (s.thread j).inMutex ≤ 1 := by
  have hle := add_le_tally Local.inMutex s.thread hi hj hne
  have hlock := h.mutex
  have := s.mutex.toNat_le
  omega

/-- The other philosopher of a pair of neighbours. -/
theorem eq_nbr_of_nbr (hj : j < N) (h : i = tleft N j ∨ i = tright N j) :
    j = tright N i ∨ j = tleft N i := by
  rcases h with rfl | rfl
  · exact .inl (tright_tleft hj).symm
  · exact .inr (tleft_tright hj).symm

/-- **A philosopher moves**, with what this does to the table given. -/
theorem Moods.move {l : Local} (h : Moods N s) (hi : i < N)
    (hthread : t.thread = update s.thread i l)
    (hmutex : l.inMutex + s.mutex.toNat = (s.thread i).inMutex + t.mutex.toNat)
    (hexcl : ∀ j < N, t.state j = .eating → t.state (tright N j) ≠ .eating)
    (hmood : l.pc.MoodOk (t.state i))
    (hother : ∀ j < N, j ≠ i → (s.thread j).pc.MoodOk (t.state j))
    (hsem : t.phil i + l.granting i + (s.thread i).pc.entitled (s.state i) =
      s.phil i + (s.thread i).granting i + l.pc.entitled (t.state i))
    (hsem' : ∀ j < N, j ≠ i → t.phil j + l.granting j + (s.thread j).pc.entitled (s.state j) =
      s.phil j + (s.thread i).granting j + (s.thread j).pc.entitled (t.state j))
    (hhungry : ∀ j < N, t.state j = .hungry → l.pc.Owes N i j ∨ s.state j = .hungry ∧
      (s.NbrEats N j ∨ (s.thread i).pc.Owes N i j → t.NbrEats N j ∨ l.pc.Owes N i j)) :
    Moods N t := by
  have htally (f : Local → ℕ) := tally_update f s.thread l hi
  have hself : t.thread i = l := by rw [hthread, update_self]
  have hne (j : ℕ) (hji : j ≠ i) : t.thread j = s.thread j := by rw [hthread, update_of_ne hji]
  rw [← hthread] at htally
  refine ⟨?_, hexcl, fun j hj => ?_, fun j hj => ?_, fun j hj hh => ?_⟩
  · have h1 := htally Local.inMutex
    have h2 := h.mutex
    omega
  · by_cases hji : j = i
    · rwa [hji, hself]
    · rw [hne j hji]
      exact hother j hj hji
  · have h1 := htally (Local.granting j)
    have h2 := h.sem j hj
    by_cases hji : j = i
    · subst hji
      rw [hself]
      omega
    · have h3 := hsem' j hj hji
      rw [hne j hji]
      omega
  · rcases hhungry j hj hh with ho | ⟨hs, hkeep⟩
    · exact .inr ⟨i, hi, by rwa [hself]⟩
    rcases h.hungry j hj hs with hn | ⟨k, hk, ho⟩
    · exact (hkeep (.inl hn)).imp_right fun ho => ⟨i, hi, by rwa [hself]⟩
    by_cases hki : k = i
    · subst hki
      exact (hkeep (.inr ho)).imp_right fun ho => ⟨k, hi, by rwa [hself]⟩
    · exact .inr ⟨k, hk, by rwa [hne k hki]⟩

/-- A philosopher moves and leaves `state` and the semaphores alone. -/
theorem Moods.quiet {l : Local} (h : Moods N s) (hi : i < N)
    (hthread : t.thread = update s.thread i l) (hstate : t.state = s.state)
    (hphil : t.phil = s.phil)
    (hmutex : l.inMutex + s.mutex.toNat = (s.thread i).inMutex + t.mutex.toNat)
    (hmood : l.pc.MoodOk (s.state i)) (hgrant : ∀ j, l.granting j = (s.thread i).granting j)
    (hent : l.pc.entitled (s.state i) = (s.thread i).pc.entitled (s.state i))
    (howes : ∀ j < N, s.state j = .hungry → (s.thread i).pc.Owes N i j →
      s.NbrEats N j ∨ l.pc.Owes N i j) : Moods N t := by
  refine h.move hi hthread hmutex ?_ ?_ ?_ ?_ (fun j hj _ => ?_) fun j hj hh => .inr ?_
  · rw [hstate]
    exact h.excl
  · rwa [hstate]
  · rw [hstate]
    exact fun j hj _ => h.mood j hj
  · rw [hstate, hphil, hgrant, hent]
  · rw [hstate, hphil, hgrant]
  · rw [hstate] at hh
    rw [State.NbrEats, State.NbrEats, hstate]
    exact ⟨hh, fun ho => ho.elim .inl (howes j hj hh)⟩

/-- `mutex` is held by a thread in its section. -/
theorem Moods.mutex_held (h : Moods N s) (hi : i < N) (hin : (s.thread i).inMutex = 1) :
    s.mutex = true := by
  have hle := le_tally Local.inMutex s.thread hi
  have hlock := h.mutex
  have := s.mutex.toNat_le
  exact Bool.toNat_eq_one.mp (by omega)

/-- A philosopher that another thread finds hungry waits for its semaphore. -/
theorem Moods.getWait_of_hungry (h : Moods N s) (hi : i < N) (hj : j < N) (hji : j ≠ i)
    (hin : (s.thread i).inMutex = 1) (hh : s.state j = .hungry) : (s.thread j).pc = .getWait := by
  have hmood := h.mood j hj
  have hout : (s.thread j).inMutex = 0 := by
    have := h.mutex_excl hi hj hji.symm
    omega
  rw [hh] at hmood
  cases hpc : (s.thread j).pc with
  | getWait => rfl
  | _ => simp_all

/-- `state[i] = HUNGRY`. -/
theorem Moods.getHungry (h : Moods N s) (hi : i < N) (hpc : (s.thread i).pc = .getHungry) :
    Moods N { s.setPc i (.test .own) with state := update s.state i .hungry } := by
  have hthink : s.state i = .thinking := by simpa [hpc] using h.mood i hi
  have heat (j : ℕ) : update s.state i .hungry j = .eating ↔ s.state j = .eating := by
    by_cases hji : j = i
    · simp [hji, hthink]
    · rw [update_of_ne hji]
  refine h.move hi rfl (by simp [hpc]) (fun j hj he => ?_) (by simp) (fun j hj hji => ?_)
    (by simp [State.setPc, hpc]) (fun j hj hji => by simp [State.setPc, hpc, hji]) fun j hj hh => ?_
  · rw [ne_eq, heat]
    exact h.excl j hj ((heat j).mp he)
  · simpa [hji] using h.mood j hj
  · by_cases hji : j = i
    · exact .inl hji
    · simp only [update_of_ne hji] at hh
      simp only [hpc, Pc.Owes, or_false]
      exact .inr ⟨hh, fun hn => .inl (hn.imp (heat _).mpr (heat _).mpr)⟩

/-- `state[i] = THINKING`: the philosopher now owes its neighbours a test. -/
theorem Moods.putThink (h : Moods N s) (hi : i < N) (hpc : (s.thread i).pc = .putThink) :
    Moods N { s.setPc i .putCount with state := update s.state i .thinking } := by
  have heating : s.state i = .eating := by simpa [hpc] using h.mood i hi
  have heat (j : ℕ) (he : update s.state i .thinking j = .eating) :
      s.state j = .eating := by
    by_cases hji : j = i
    · simp [hji] at he
    · rwa [update_of_ne hji] at he
  refine h.move hi rfl (by simp [hpc]) (fun j hj he he' => ?_) (by simp) (fun j hj hji => ?_)
    (by simp [State.setPc, hpc, heating]) (fun j hj hji => by simp [State.setPc, hpc, hji])
    fun j hj hh => ?_
  · exact h.excl j hj (heat j he) (heat _ he')
  · simpa [hji] using h.mood j hj
  · have hji : j ≠ i := by
      rintro rfl
      simp at hh
    simp only [update_of_ne hji] at hh
    by_cases hnbr : i = tleft N j ∨ i = tright N j
    · exact .inl (eq_nbr_of_nbr hj hnbr)
    · obtain ⟨hl, hr⟩ := not_or.mp hnbr
      simp only [hpc, Pc.Owes, or_false, State.NbrEats, update_of_ne (Ne.symm hl),
        update_of_ne (Ne.symm hr)]
      exact .inr ⟨hh, .inl⟩

/-- The philosopher that a call of `test` is for. -/
theorem target_lt (hi : i < N) (w : Who) : w.target N i < N := by
  cases w with
  | own => exact hi
  | right => exact tright_lt hi
  | left => exact tleft_lt hi

/-- A philosopher that calls `test` for a neighbour is not hungry. -/
theorem Moods.target_eq (h : Moods N s) (hi : i < N) {w : Who} (hpc : (s.thread i).pc = .test w)
    (hh : s.state (w.target N i) = .hungry) (heq : w.target N i = i) : w = .own := by
  have hmood := h.mood i hi
  rw [heq] at hh
  cases w <;> simp_all

/-- `state[j] = EATING` in `test(j)`. -/
theorem Moods.testPass (hN : 2 ≤ N) (h : Moods N s) (hi : i < N) {w : Who}
    (hpc : (s.thread i).pc = .test w) (hmay : s.MayEat N (w.target N i)) :
    Moods N { s.setPc i (.grant w (w.target N i)) with
      state := update s.state (w.target N i) .eating } := by
  have hj := target_lt hi w
  have hown := h.target_eq hi hpc hmay.1
  have hin : (s.thread i).inMutex = 1 := by simp [hpc]
  generalize hjdef : w.target N i = j at hmay hj hown ⊢
  obtain ⟨hh, hleft, hright⟩ := hmay
  have hwait (hji : j ≠ i) : (s.thread j).pc = .getWait := h.getWait_of_hungry hi hj hji hin hh
  have heat (k : ℕ) (hk : s.state k = .eating) :
      update s.state j .eating k = .eating := by
    by_cases hkj : k = j
    · simp [hkj]
    · rwa [update_of_ne hkj]
  -- a philosopher that calls `test` for a neighbour is itself in `tput_forks`
  have hcall (hij : i ≠ j) : w ≠ .own := by
    rintro rfl
    exact hij hjdef
  refine h.move hi rfl (by simp [hpc]) (fun k hk he => ?_) ?_ (fun k hk hki => ?_) ?_
    (fun k hk hki => ?_) fun k hk hk' => ?_
  · -- neither neighbour of `j` eats
    dsimp only at he ⊢
    by_cases hkj : k = j
    · subst hkj
      rwa [update_of_ne (tright_ne hN hk)]
    · rw [update_of_ne hkj] at he
      have hkr : tright N k ≠ j := by
        rintro rfl
        rw [tleft_tright hk] at hleft
        exact hleft he
      rw [update_of_ne hkr]
      exact h.excl k hk he
  · have hmood := h.mood i hi
    by_cases hij : i = j
    · obtain rfl := hown hij.symm
      simp [hij]
    · have hne := hcall hij
      cases w <;> simp_all
  · by_cases hkj : k = j
    · subst hkj
      simp [hwait hki]
    · simpa [hkj] using h.mood k hk
  · by_cases hij : i = j
    · obtain rfl := hown hij.symm
      subst hij
      simp [State.setPc, hpc]
    · have hne := hcall hij
      cases w <;> simp_all [State.setPc, Ne.symm hij]
  · by_cases hkj : k = j
    · subst hkj
      simp [State.setPc, hwait hki, hh, hpc]
    · simp [State.setPc, hkj, Ne.symm hkj, hpc]
  · have hkj : k ≠ j := by
      rintro rfl
      simp at hk'
    simp only [update_of_ne hkj] at hk'
    refine .inr ⟨hk', fun ho => ho.imp (fun hn => hn.imp (heat _) (heat _)) fun ho => ?_⟩
    rw [hpc] at ho
    cases w with
    | own | left => exact absurd (ho.trans hjdef) hkj
    | right => exact ho.resolve_left fun hr => hkj (hr.trans hjdef)

/-- `phil[j].release()` in `test(j)`. -/
theorem Moods.grant (h : Moods N s) (hi : i < N) {w : Who} (hpc : (s.thread i).pc = .grant w j) :
    Moods N { s.setPc i w.next with phil := update s.phil j (s.phil j + 1) } := by
  have hmood := h.mood i hi
  refine h.move hi rfl ?_ h.excl ?_ (fun k hk _ => h.mood k hk) ?_ (fun k hk hki => ?_)
    fun k hk hk' => .inr ⟨hk', ?_⟩
  · cases w <;> simp [hpc, State.setPc, Who.next]
  · cases w <;> simp_all [State.setPc, Who.next]
  · by_cases hij : i = j
    · subst hij
      cases w <;> simp_all [State.setPc, Who.next]
    · cases w <;> simp_all [State.setPc, Who.next, Ne.symm hij]
  · by_cases hkj : k = j
    · subst hkj
      cases w <;> simp [State.setPc, hpc, Who.next, -Pc.entitled]
    · cases w <;> simp [State.setPc, hpc, Who.next, hkj, Ne.symm hkj, -Pc.entitled]
  · cases w <;> simp_all [State.setPc, State.NbrEats, Who.next]

/-- `phil[i].acquire()`. -/
theorem Moods.getWait {v : ℕ} (h : Moods N s) (hi : i < N) (hpc : (s.thread i).pc = .getWait)
    (hv : s.phil i = v + 1) :
    Moods N { s.setPc i .eating with phil := update s.phil i v } := by
  have hsem := h.sem i hi
  have heating : s.state i = .eating := by
    by_contra hne
    cases hs : s.state i <;> simp_all
  refine h.move hi rfl (by simp [hpc]) h.excl (by simp [State.setPc, heating])
    (fun k hk _ => h.mood k hk) (by simp [State.setPc, hpc, heating, hv])
    (fun k hk hki => by simp [State.setPc, hpc, hki, -Pc.entitled])
    fun k hk hk' => .inr ⟨hk', fun ho => .inl ?_⟩
  exact ho.resolve_right (by simp [hpc])

/-- **One step keeps the invariant of the table.** -/
theorem Moods.step (hN : 2 ≤ N) (h : Moods N s) (hi : i < N) (hstep : PhilStep N M R i s t) :
    Moods N t := by
  have hmood := h.mood i hi
  cases hstep with
  | getHungry hpc => exact h.getHungry hi hpc
  | putThink hpc => exact h.putThink hi hpc
  | testPass hpc hmay => exact h.testPass hN hi hpc hmay
  | grant hpc => exact h.grant hi hpc
  | getWait hpc hv => exact h.getWait hi hpc hv
  | checkWait hpc | checkGo hpc | arrive hpc | arriveLast hpc | depart hpc | reset hpc | eaten hpc
  | putCount hpc =>
    refine h.quiet hi rfl rfl rfl ?_ ?_ ?_ ?_ ?_ <;>
      simp_all
  | acquire hpc _ hfree | resetAcquire hpc hfree | getAcquire hpc hfree | putAcquire hpc hfree =>
    refine h.quiet hi rfl rfl rfl ?_ ?_ ?_ ?_ ?_ <;>
      simp_all
  | leaveWait hpc | leave hpc | resetRelease hpc | getRelease hpc | putRelease hpc =>
    have hheld : s.mutex = true := h.mutex_held hi (by simp [hpc])
    refine h.quiet hi rfl rfl rfl ?_ ?_ ?_ ?_ ?_ <;>
      simp_all
  | @testFail w hpc hmay =>
    -- the philosopher that was not served has a neighbour that eats
    have hserved (hh : s.state (w.target N i) = .hungry) : s.NbrEats N (w.target N i) := by
      by_contra hn
      exact hmay ⟨hh, not_or.mp hn⟩
    refine h.quiet hi rfl rfl rfl ?_ ?_ ?_ ?_ fun j hj hh ho => ?_
    · cases w <;> simp [hpc, State.setPc, Who.next]
    · cases w <;> simp_all [Who.next]
    · cases w <;> simp [hpc, Who.next]
    · cases w <;> simp_all
    · rw [hpc] at ho
      cases w with
      | own =>
        obtain rfl : j = i := ho
        exact .inl (hserved hh)
      | right =>
        rcases ho with rfl | rfl
        · exact .inl (hserved hh)
        · exact .inr rfl
      | left =>
        obtain rfl : j = tleft N i := ho
        exact .inl (hserved hh)

/-- Everybody thinks. -/
theorem moods_init : Moods N initState := by
  refine ⟨?_, by simp [initState], by simp [initState], fun j _ => ?_,
    by simp [initState]⟩
  · simp [initState, tally]
  · simp [initState, tally]

/-- The moods in every reachable state. -/
theorem moods_reachable (hN : 2 ≤ N) (hreach : (system N M R).Reachable s) : Moods N s := by
  refine hreach.invariant (I := Moods N) ?_ ?_
  · rintro _ rfl
    exact moods_init
  · rintro s i t h ⟨hi, hstep⟩
    exact h.step hN hi hstep

end Table

/-! ### Progress -/

/-- The philosopher is past `tget_forks` and has not yet put its forks down. -/
def Pc.Eats (c : Pc) : Prop := c = .eating ∨ c = .putAcquire ∨ c = .putThink

/-- The thread has ended. -/
def Local.Finished (M : ℕ) (l : Local) : Prop := l.pc = .top ∧ l.k = M

section Progress

variable {N M R i : ℕ} {s : State}

/-- A thread that can take no step does not hold `mutex`: it has ended, or waits for `mutex`, for
its semaphore or for the barrier. -/
theorem step_or_blocked (N R : ℕ) (hk : (s.thread i).k ≤ M) :
    (∃ t, PhilStep N M R i s t) ∨ (s.thread i).inMutex = 0 ∧
      ((s.thread i).Finished M ∨ s.mutex = true ∨ (s.thread i).pc = .getWait ∧ s.phil i = 0 ∨
        (s.thread i).pc = .arrive ∧ s.draining = true ∨ (s.thread i).pc = .waiting) := by
  cases hpc : (s.thread i).pc with
  | top =>
    by_cases hend : (s.thread i).k = M
    · exact .inr ⟨by simp [hpc], .inl ⟨hpc, hend⟩⟩
    · by_cases hfree : s.mutex = false
      · exact .inl ⟨_, .acquire hpc (by omega) hfree⟩
      · simp [hpc, hfree]
  | resetAcquire =>
    by_cases hfree : s.mutex = false
    · exact .inl ⟨_, .resetAcquire hpc hfree⟩
    · simp [hpc, hfree]
  | getAcquire =>
    by_cases hfree : s.mutex = false
    · exact .inl ⟨_, .getAcquire hpc hfree⟩
    · simp [hpc, hfree]
  | putAcquire =>
    by_cases hfree : s.mutex = false
    · exact .inl ⟨_, .putAcquire hpc hfree⟩
    · simp [hpc, hfree]
  | arrive =>
    by_cases hdrain : s.draining = false
    · by_cases hc : s.count + 1 = N
      · exact .inl ⟨_, .arriveLast hpc hdrain hc⟩
      · exact .inl ⟨_, .arrive hpc hdrain hc⟩
    · simp [hpc, hdrain]
  | getWait =>
    cases hv : s.phil i with
    | zero => simp [hpc]
    | succ v => exact .inl ⟨_, .getWait hpc hv⟩
  | waiting => simp [hpc]
  | check =>
    by_cases hm : s.mealsEaten i = R
    · exact .inl ⟨_, .checkWait hpc hm⟩
    · exact .inl ⟨_, .checkGo hpc hm⟩
  | test w =>
    by_cases hmay : s.MayEat N (w.target N i)
    · exact .inl ⟨_, .testPass hpc hmay⟩
    · exact .inl ⟨_, .testFail hpc hmay⟩
  | leaveWait => exact .inl ⟨_, .leaveWait hpc⟩
  | leave => exact .inl ⟨_, .leave hpc⟩
  | reset => exact .inl ⟨_, .reset hpc⟩
  | resetRelease => exact .inl ⟨_, .resetRelease hpc⟩
  | getHungry => exact .inl ⟨_, .getHungry hpc⟩
  | grant w j => exact .inl ⟨_, .grant hpc⟩
  | getRelease => exact .inl ⟨_, .getRelease hpc⟩
  | eating => exact .inl ⟨_, .eaten hpc⟩
  | putThink => exact .inl ⟨_, .putThink hpc⟩
  | putCount => exact .inl ⟨_, .putCount hpc⟩
  | putRelease => exact .inl ⟨_, .putRelease hpc⟩

/-- No philosopher starts more meals than it has. -/
theorem Local.MealsOk.k_le {l : Local} {m : ℕ} (h : l.MealsOk M R m) : l.k ≤ M := by
  cases hpc : l.pc with
  | test w | grant w j => cases w <;> simp only [MealsOk, hpc] at h <;> omega
  | _ =>
    simp only [MealsOk, hpc] at h
    omega

/-- When no thread can take a step, none holds `mutex` and the barrier is not draining. -/
theorem quiet_of_no_step (hm : Moods N s) (hr : Rounds N M R s)
    (hno : ¬ ∃ i < N, ∃ t, PhilStep N M R i s t) : s.mutex = false ∧ s.draining = false := by
  constructor
  · by_contra hheld
    have hpos : 0 < tally N Local.inMutex s.thread := by
      rw [hm.mutex, Bool.eq_true_of_not_eq_false hheld]
      exact Nat.one_pos
    obtain ⟨i, hi, hin⟩ := exists_of_tally_pos hpos
    rcases step_or_blocked N R (hr.meals i hi).k_le with hstep | ⟨h0, -⟩
    · exact hno ⟨i, hi, hstep⟩
    · omega
  · by_contra hdrain
    have hdrain := Bool.eq_true_of_not_eq_false hdrain
    have hcount := hr.draining hdrain
    obtain ⟨i, hi, hin⟩ := exists_of_tally_pos (hr.count ▸ hcount)
    have hpc : (s.thread i).pc = .waiting := by
      by_contra hne
      simp [Local.waiting, hne] at hin
    obtain ⟨c, hc⟩ := Nat.exists_eq_succ_of_ne_zero hcount.ne'
    exact hno ⟨i, hi, _, .depart hpc hdrain hc⟩

/-- With `mutex` free nobody is inside. -/
theorem Moods.inMutex_eq_zero (h : Moods N s) (hmutex : s.mutex = false) (hi : i < N) :
    (s.thread i).inMutex = 0 := by
  have hle := le_tally Local.inMutex s.thread hi
  rw [h.mutex, hmutex] at hle
  exact Nat.le_zero.mp hle

/-- With `mutex` free, whoever is hungry has a neighbour that eats. -/
theorem Moods.nbrEats (h : Moods N s) (hmutex : s.mutex = false) (hi : i < N)
    (hh : s.state i = .hungry) : s.NbrEats N i := by
  refine (h.hungry i hi hh).resolve_right ?_
  rintro ⟨k, hk, ho⟩
  have hout := h.inMutex_eq_zero hmutex hk
  cases hpc : (s.thread k).pc <;> simp_all

/-- With `mutex` free, a philosopher that eats is at the table, or can go there. -/
theorem Moods.of_eating (h : Moods N s) (hmutex : s.mutex = false) (hi : i < N)
    (heat : s.state i = .eating) :
    (s.thread i).pc.Eats ∨ (s.thread i).pc = .getWait ∧ s.phil i = 1 := by
  have hmood := h.mood i hi
  have hsem := h.sem i hi
  have hgrant : tally N (Local.granting i) s.thread = 0 := by
    refine tally_eq_zero_iff.mpr fun k hk => ?_
    have hk := h.inMutex_eq_zero hmutex hk
    rw [Local.granting]
    split
    · next hpc => simp [hpc] at hk
    · rfl
  have hi := h.inMutex_eq_zero hmutex hi
  rw [heat] at hmood hsem
  cases hpc : (s.thread i).pc <;>
    simp_all [Pc.Eats]

/-- **No deadlock.** -/
theorem progress (hm : Moods N s) (hr : Rounds N M R s)
    (hun : ∃ i < N, ¬ (s.thread i).Finished M) : ∃ i < N, ∃ t, PhilStep N M R i s t := by
  by_contra hno
  obtain ⟨hmutex, hfill⟩ := quiet_of_no_step hm hr hno
  have hblocked (i : ℕ) (hi : i < N) : (s.thread i).Finished M ∨
      (s.thread i).pc = .getWait ∧ s.phil i = 0 ∨ (s.thread i).pc = .waiting := by
    rcases step_or_blocked N R (hr.meals i hi).k_le with hstep | ⟨-, hb⟩
    · exact absurd ⟨i, hi, hstep⟩ hno
    · simpa [hmutex, hfill] using hb
  -- a philosopher that waits for its semaphore has a neighbour that is not blocked
  have hnotGet (i : ℕ) (hi : i < N) : ¬ ((s.thread i).pc = .getWait ∧ s.phil i = 0) := by
    rintro ⟨hpc, hphil⟩
    have hmood := hm.mood i hi
    simp only [hpc, Pc.MoodOk] at hmood
    have hnoteat : s.state i ≠ .eating := fun heat => by
      rcases hm.of_eating hmutex hi heat with he | ⟨-, h1⟩
      · simp [hpc, Pc.Eats] at he
      · omega
    have hhungry : s.state i = .hungry := by
      cases hs : s.state i <;> simp_all
    have hnbr (j : ℕ) (hj : j < N) : s.state j ≠ .eating := fun heat => by
      rcases hm.of_eating hmutex hj heat with he | ⟨hg, h1⟩
      · rcases hblocked j hj with ⟨hf, -⟩ | ⟨hf, -⟩ | hf <;> simp [hf, Pc.Eats] at he
      · exact hno ⟨j, hj, _, .getWait hg h1⟩
    rcases hm.nbrEats hmutex hi hhungry with hl | hl
    · exact hnbr _ (tleft_lt hi) hl
    · exact hnbr _ (tright_lt hi) hl
  -- so one waits for the barrier, and another one has ended; but they are in the same round
  obtain ⟨i, hi, hnot⟩ := hun
  have hwait : (s.thread i).pc = .waiting :=
    ((hblocked i hi).resolve_left hnot).resolve_left (hnotGet i hi)
  obtain ⟨j, hj, hjf⟩ : ∃ j < N, (s.thread j).Finished M := by
    by_contra hnone
    have hall (j : ℕ) (hj : j < N) : (s.thread j).pc = .waiting :=
      ((hblocked j hj).resolve_left fun hf => hnone ⟨j, hj, hf⟩).resolve_left (hnotGet j hj)
    have hfull : tally N Local.waiting s.thread = N := by
      have hone (j : ℕ) (hj : j ∈ Finset.range N) : (s.thread j).waiting = 1 := by
        simp [Local.waiting, hall j (Finset.mem_range.mp hj)]
      rw [tally, Finset.sum_congr rfl hone]
      simp
    have := hr.filling hfill
    have := hr.count
    omega
  obtain ⟨hjpc, hjk⟩ := hjf
  have hi1 := hr.meals i hi
  have hj1 := hr.meals j hj
  have hi2 := hr.rounds i hi
  have hj2 := hr.rounds j hj
  simp only [Local.MealsOk, hwait] at hi1
  simp only [Local.MealsOk, hjpc] at hj1
  simp only [hfill, Bool.false_eq_true, if_false, Nat.add_zero] at hi2 hj2
  rw [hi2] at hi1
  rw [hj2] at hj1
  omega

/-- **The Tanenbaum solution is safe and never stuck.** In every reachable state, no two neighbours
are past `tget_forks` and before `tput_forks`, no entry of `phil` exceeds 1, with `mutex` free a
hungry philosopher has a neighbour that eats, and if some philosopher has not finished its meals
then one of them can take a step. This holds for every value of `rendezvousPoint` from 1 on; the one
that `run_tanenbaum` computes is such a value. -/
theorem tanenbaum_safe_and_live (hN : 2 ≤ N) (hM : 1 ≤ M) :
    1 ≤ rendezvousPoint N M ∧ ∀ R, 1 ≤ R → ∀ s, (system N M R).Reachable s →
      (∀ i < N, ¬ ((s.thread i).pc.Eats ∧ (s.thread (tright N i)).pc.Eats)) ∧
      (∀ i < N, s.phil i ≤ 1) ∧
      (s.mutex = false → ∀ i < N, s.state i = .hungry → s.NbrEats N i) ∧
      ((∃ i < N, ¬ (s.thread i).Finished M) → ∃ i t, (system N M R).step s i t) := by
  have hpos : 0 < N := by omega
  refine ⟨rendezvousPoint_pos hpos hM, fun R hR s hreach => ?_⟩
  have hm := moods_reachable hN hreach
  have hr := rounds_reachable hpos hR hreach
  have heat (i : ℕ) (hi : i < N) (he : (s.thread i).pc.Eats) : s.state i = .eating := by
    have hmood := hm.mood i hi
    rcases he with hpc | hpc | hpc <;> simpa [hpc] using hmood
  refine ⟨fun i hi hboth => ?_, fun i hi => ?_, fun hmutex i hi hh => hm.nbrEats hmutex hi hh,
    fun hun => ?_⟩
  · exact hm.excl i hi (heat i hi hboth.1) (heat _ (tright_lt hi) hboth.2)
  · have hsem := hm.sem i hi
    have hle : (s.thread i).pc.entitled (s.state i) ≤ 1 := by
      rw [Pc.entitled, Pc.seeks.eq_def]
      split_ifs
      · split <;> omega
      · omega
    omega
  · obtain ⟨i, hi, t, ht⟩ := progress hm hr hun
    exact ⟨i, t, hi, ht⟩

/-- The solution at work: of two philosophers, 0 eats, so 1 does not, and some thread can go on. -/
theorem tanenbaum_safe_and_live_two : ∃ s, (system 2 1 (rendezvousPoint 2 1)).Reachable s ∧
    (s.thread 0).pc.Eats ∧ ¬ (s.thread 1).pc.Eats ∧
    ∃ i t, (system 2 1 (rendezvousPoint 2 1)).step s i t := by
  obtain ⟨s, hreach, hfirst, -, -⟩ := reachable_two
  obtain ⟨hpos, hall⟩ := tanenbaum_safe_and_live (N := 2) (M := 1) (by decide) (by decide)
  obtain ⟨hsafe, -, -, hlive⟩ := hall _ hpos s hreach
  have heats : (s.thread 0).pc.Eats := .inl (by rw [hfirst])
  refine ⟨s, hreach, heats, fun h => hsafe 0 (by decide) ⟨heats, h⟩, hlive ⟨0, by decide, ?_⟩⟩
  simp [Local.Finished, hfirst]

end Progress

end Xv6.Tanenbaum
