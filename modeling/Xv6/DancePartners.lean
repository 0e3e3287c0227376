import Xv6.DanceLines

/-!
# Dance Partners

All couples of the dance mixer meet through the same semaphores. They do not get in each other's
way because the permit of `ready` is a baton: the band takes it, it goes to the leader that the
band releases, from there to the follower that this leader releases, and from there back to
`ready`. There is one baton, and linear equations count what goes with it.

A leader that finds the line of followers empty waits for `followerInLine`. Its permits are added
whenever a follower goes back to a line that is not full, whether a leader waits or not, so a
permit can be left over, and the leader goes on to take a follower from an empty line
(`pop_empty_line`). It does not if there is no permit when a leader finds the line empty.

## Main results

* `Baton.step`: one step keeps the equations of the baton.
* `Partners.step`: permits are those of the couple with the baton.
* `partners_match`: **partners match**, as long as no line is found empty by `popleft()`.
* `follower_there`: **leaders only take followers that are there**, if no permit is left over.
* `pop_empty_line`: a run in which a leader takes a follower from an empty line.
-/

open Transition Threads
open Function (update update_apply update_of_ne update_self)

namespace Xv6.DanceMixer

/-! ### The baton -/

namespace LeaderPc

/-- The leader has the baton. -/
@[simp] def baton : LeaderPc → ℕ
  | .look | .test | .goWait | .inLine | .go | .popAcquire | .pop | .popRelease _ | .free _ => 1
  | _ => 0

/-- The leader is at `leaderReady.release()`. -/
@[simp] def offers : LeaderPc → ℕ
  | .leaderReady _ => 1
  | _ => 0

/-- The leader has not yet passed `followerReady.acquire()`, after having released its follower. -/
@[simp] def meets : LeaderPc → ℕ
  | .leaderReady _ | .followerReady _ => 1
  | _ => 0

/-- The leader has not yet passed `signal.release()`, after having released its follower. -/
@[simp] def signals : LeaderPc → ℕ
  | .leaderReady _ | .followerReady _ | .signal _ => 1
  | _ => 0

end LeaderPc

namespace FollowerPc

/-- The follower has the baton. -/
@[simp] def baton : FollowerPc → ℕ
  | .followerReady | .leaderReady | .signal | .ready => 1
  | _ => 0

/-- The follower is at `followerReady.release()`. -/
@[simp] def offers : FollowerPc → ℕ
  | .followerReady => 1
  | _ => 0

/-- The follower has not yet passed `leaderReady.acquire()`. -/
@[simp] def meets : FollowerPc → ℕ
  | .followerReady | .leaderReady => 1
  | _ => 0

/-- The follower is past `signal.acquire()`. -/
@[simp] def signaled : FollowerPc → ℕ
  | .ready => 1
  | _ => 0

end FollowerPc

/-- The band has the baton. -/
@[simp] def BandPc.baton : BandPc → ℕ
  | .pop | .popRelease _ | .free _ => 1
  | _ => 0

namespace State

/-- The baton is with the leaders. -/
def leaderBaton (s : State) (L : ℕ) : ℕ :=
  tally L id s.leaderPerson + tally L LeaderPc.baton s.leader

/-- The followers that a leader has released. -/
def released (s : State) (F : ℕ) : ℕ := tally F id s.followerPerson

/-- The baton is with the followers. -/
def followerBaton (s : State) (F : ℕ) : ℕ := s.released F + tally F FollowerPc.baton s.follower

end State

/-- **The equations of the baton.** -/
structure Baton (L F : ℕ) (s : State) : Prop where
  one : s.ready + s.band.baton + s.leaderBaton L + s.followerBaton F = 1
  leaderReady : s.leaderReady.length + tally L LeaderPc.offers s.leader =
    s.released F + tally F FollowerPc.meets s.follower
  followerReady : s.followerReady.length + s.released F + tally F FollowerPc.offers s.follower =
    tally L LeaderPc.meets s.leader
  signal : s.signal.length + tally L LeaderPc.signals s.leader +
    tally F FollowerPc.signaled s.follower = s.followerBaton F
  band_lt : ∀ l, s.band = .popRelease l ∨ s.band = .free l → l < L
  leader_lt : ∀ i < L, ∀ f, s.leader i = .popRelease f ∨ s.leader i = .free f → f < F

/-- `popleft()` in `release_follower` finds a follower. -/
def FindsOne (s : State) : Act → Prop
  | .leader i => s.leader i = .pop → s.followers ≠ []
  | .follower _ | .band _ => True

instance (s : State) : DecidablePred (FindsOne s)
  | .leader i => inferInstanceAs (Decidable (s.leader i = .pop → s.followers ≠ []))
  | .follower _ | .band _ => inferInstanceAs (Decidable True)

section Baton

variable {L F i j : ℕ} {s t : State}

/-- **A leader moves:** the equations balance. -/
theorem Baton.leaderMove {c : LeaderPc} (h : Baton L F s) (hi : i < L)
    (hl : t.leader = update s.leader i c) (hf : t.follower = s.follower)
    (hb : t.band = s.band) (hready : t.ready = s.ready)
    (hbaton : tally L id t.leaderPerson + c.baton + t.released F =
      tally L id s.leaderPerson + (s.leader i).baton + s.released F)
    (hlr : t.leaderReady.length + c.offers + s.released F =
      s.leaderReady.length + (s.leader i).offers + t.released F)
    (hfr : t.followerReady.length + t.released F + (s.leader i).meets =
      s.followerReady.length + s.released F + c.meets)
    (hsig : t.signal.length + c.signals + s.released F =
      s.signal.length + (s.leader i).signals + t.released F)
    (hlt : ∀ f, c = .popRelease f ∨ c = .free f → f < F) : Baton L F t := by
  have htally (f : LeaderPc → ℕ) := tally_update f s.leader c hi
  rw [← hl] at htally
  have h1 := htally LeaderPc.baton
  have h2 := htally LeaderPc.offers
  have h3 := htally LeaderPc.meets
  have h4 := htally LeaderPc.signals
  obtain ⟨hone, hleader, hfollower, hsignal, hband, hlead⟩ := h
  simp only [State.leaderBaton, State.followerBaton] at hone hsignal
  refine ⟨?_, ?_, ?_, ?_, hb ▸ hband, fun k hk f hkf => ?_⟩
  · simp only [State.leaderBaton, State.followerBaton, hb, hready, hf]
    omega
  · rw [hf]
    omega
  · rw [hf]
    omega
  · simp only [State.followerBaton, hf]
    omega
  · rw [hl] at hkf
    rw [update_apply] at hkf
    split_ifs at hkf with hki
    · exact hlt f hkf
    · exact hlead k hk f hkf

/-- A leader moves and leaves the semaphores of the baton alone. -/
theorem Baton.leaderQuiet {c : LeaderPc} (h : Baton L F s) (hi : i < L)
    (hl : t.leader = update s.leader i c) (hf : t.follower = s.follower)
    (hb : t.band = s.band) (hready : t.ready = s.ready) (hlp : t.leaderPerson = s.leaderPerson)
    (hfp : t.followerPerson = s.followerPerson) (hlr : t.leaderReady = s.leaderReady)
    (hfr : t.followerReady = s.followerReady) (hsig : t.signal = s.signal)
    (hbaton : c.baton = (s.leader i).baton) (hoffers : c.offers = (s.leader i).offers)
    (hmeets : c.meets = (s.leader i).meets) (hsignals : c.signals = (s.leader i).signals)
    (hlt : ∀ f, c = .popRelease f ∨ c = .free f → f < F) : Baton L F t := by
  have hrel : t.released F = s.released F := by rw [State.released, hfp, State.released]
  exact h.leaderMove hi hl hf hb hready (by rw [hlp, hbaton, hrel]) (by rw [hlr, hoffers, hrel])
    (by rw [hfr, hmeets, hrel]) (by rw [hsig, hsignals, hrel]) hlt

/-- **A follower moves.** -/
theorem Baton.followerMove {c : FollowerPc} (h : Baton L F s) (hj : j < F)
    (hf : t.follower = update s.follower j c) (hl : t.leader = s.leader)
    (hb : t.band = s.band) (hlp : t.leaderPerson = s.leaderPerson)
    (hbaton : t.ready + t.released F + c.baton =
      s.ready + s.released F + (s.follower j).baton)
    (hlr : t.leaderReady.length + s.released F + (s.follower j).meets =
      s.leaderReady.length + t.released F + c.meets)
    (hfr : t.followerReady.length + t.released F + c.offers =
      s.followerReady.length + s.released F + (s.follower j).offers)
    (hsig : t.signal.length + c.signaled + (s.released F + (s.follower j).baton) =
      s.signal.length + (s.follower j).signaled + (t.released F + c.baton)) : Baton L F t := by
  have htally (f : FollowerPc → ℕ) := tally_update f s.follower c hj
  rw [← hf] at htally
  have h1 := htally FollowerPc.baton
  have h2 := htally FollowerPc.offers
  have h3 := htally FollowerPc.meets
  have h4 := htally FollowerPc.signaled
  obtain ⟨hone, hleader, hfollower, hsignal, hband, hlead⟩ := h
  simp only [State.leaderBaton, State.followerBaton] at hone hsignal
  refine ⟨?_, ?_, ?_, ?_, hb ▸ hband, hl ▸ hlead⟩
  · simp only [State.leaderBaton, State.followerBaton, hb, hl, hlp]
    omega
  · rw [hl]
    omega
  · rw [hl]
    omega
  · simp only [State.followerBaton, hl]
    omega

/-- A follower moves and leaves the semaphores of the baton alone. -/
theorem Baton.followerQuiet {c : FollowerPc} (h : Baton L F s) (hj : j < F)
    (hf : t.follower = update s.follower j c) (hl : t.leader = s.leader)
    (hb : t.band = s.band) (hready : t.ready = s.ready) (hlp : t.leaderPerson = s.leaderPerson)
    (hfp : t.followerPerson = s.followerPerson) (hlr : t.leaderReady = s.leaderReady)
    (hfr : t.followerReady = s.followerReady) (hsig : t.signal = s.signal)
    (hc : c.baton = 0) (hc' : (s.follower j).baton = 0) : Baton L F t := by
  have hrel : t.released F = s.released F := by rw [State.released, hfp, State.released]
  have hz (c : FollowerPc) (h0 : c.baton = 0) : c.meets = 0 ∧ c.offers = 0 ∧ c.signaled = 0 := by
    cases c <;> simp_all
  obtain ⟨h1, h2, h3⟩ := hz c hc
  obtain ⟨h1', h2', h3'⟩ := hz _ hc'
  exact h.followerMove hj hf hl hb hlp (by rw [hready, hrel, hc, hc']) (by rw [hlr, hrel, h1, h1'])
    (by rw [hfr, hrel, h2, h2']) (by rw [hsig, hrel, h3, h3', hc, hc'])

/-- A permit more for one thread. -/
theorem tally_id_update_succ {n : ℕ} (p : ℕ → ℕ) (hi : i < n) :
    tally n id (update p i (p i + 1)) = tally n id p + 1 := by
  have := tally_update id p (p i + 1) hi
  simp only [id] at this
  omega

/-- A permit less for one thread. -/
theorem tally_id_update_pred {n k : ℕ} {p : ℕ → ℕ} (hi : i < n) (hk : p i = k + 1) :
    tally n id (update p i k) + 1 = tally n id p := by
  have := tally_update id p k hi
  simp only [id] at this
  omega

/-- A step of a leader keeps the baton or passes it on. -/
theorem Baton.leaderStep (h : Baton L F s) (hlines : Lines L F s) (hi : i < L)
    (hstep : LeaderStep L i s t) (hfinds : FindsOne s (.leader i)) : Baton L F t := by
  cases hstep with
  | start hpc | startIn hpc | startOut hpc | look hpc | testEmpty hpc | test hpc | goWait hpc
  | inLine hpc | go hpc | popAcquire hpc | back hpc | append hpc | testFull hpc | testNotFull hpc
  | full hpc | backRelease hpc =>
    refine h.leaderQuiet hi rfl rfl rfl rfl rfl rfl rfl rfl rfl ?_ ?_ ?_ ?_ (by simp) <;>
      simp [hpc]
  | popEmpty hpc he => exact absurd he (hfinds hpc)
  | pop hpc hcons =>
    refine h.leaderQuiet hi rfl rfl rfl rfl rfl rfl rfl rfl rfl ?_ ?_ ?_ ?_ fun g hg => ?_
    any_goals simp [hpc]
    simp only [LeaderPc.popRelease.injEq, reduceCtorEq, or_false] at hg
    exact hlines.follower_lt g (hcons ▸ hg ▸ List.mem_cons_self)
  | popRelease hpc =>
    refine h.leaderQuiet hi rfl rfl rfl rfl rfl rfl rfl rfl rfl ?_ ?_ ?_ ?_ fun g hg => ?_
    any_goals simp [hpc]
    simp only [LeaderPc.free.injEq, reduceCtorEq, false_or] at hg
    exact h.leader_lt i hi g (.inl (hg ▸ hpc))
  | wait hpc hk =>
    have hp := tally_id_update_pred hi hk
    refine h.leaderMove hi rfl rfl rfl rfl ?_ ?_ ?_ ?_ (by simp)
    · simp only [LeaderPc.baton, hpc, State.released, State.setLeader]
      omega
    all_goals simp [hpc, State.released]
  | free hpc =>
    have hp := tally_id_update_succ s.followerPerson (h.leader_lt i hi _ (.inr hpc))
    refine h.leaderMove hi rfl rfl rfl rfl ?_ ?_ ?_ ?_ (by simp) <;>
      simp only [LeaderPc.baton, LeaderPc.offers, LeaderPc.meets, LeaderPc.signals, hpc,
        State.released, State.setLeader] <;>
      omega
  | leaderReady hpc | signal hpc =>
    refine h.leaderMove hi rfl rfl rfl rfl ?_ ?_ ?_ ?_ (by simp) <;>
      simp [hpc, State.released]
  | followerReady hpc hcons =>
    refine h.leaderMove hi rfl rfl rfl rfl ?_ ?_ ?_ ?_ (by simp) <;>
      simp [hpc, hcons, State.released]
    omega

/-- A step of a follower keeps the baton or passes it on. -/
theorem Baton.followerStep (h : Baton L F s) (hj : j < F) (hstep : FollowerStep F j s t) :
    Baton L F t := by
  cases hstep with
  | start hpc | startIn hpc | startOut hpc | back hpc | append hpc | testFull hpc | testSome hpc
  | testNone hpc | full hpc | inLine hpc | backRelease hpc =>
    refine h.followerQuiet hj rfl rfl rfl rfl rfl rfl rfl rfl rfl ?_ ?_ <;>
      simp [hpc]
  | wait hpc hk =>
    have hp := tally_id_update_pred hj hk
    refine h.followerMove hj rfl rfl rfl rfl ?_ ?_ ?_ ?_ <;>
      simp only [FollowerPc.baton, FollowerPc.offers, FollowerPc.meets, FollowerPc.signaled, hpc,
        State.released, State.setFollower] <;>
      omega
  | followerReady hpc =>
    refine h.followerMove hj rfl rfl rfl rfl ?_ ?_ ?_ ?_ <;>
      simp [hpc, State.released]
    omega
  | ready hpc =>
    refine h.followerMove hj rfl rfl rfl rfl ?_ ?_ ?_ ?_ <;>
      simp only [FollowerPc.baton, FollowerPc.offers, FollowerPc.meets, FollowerPc.signaled, hpc,
        State.released, State.setFollower] <;>
      omega
  | leaderReady hpc hcons | signal hpc hcons =>
    refine h.followerMove hj rfl rfl rfl rfl ?_ ?_ ?_ ?_ <;>
      simp only [FollowerPc.baton, FollowerPc.offers, FollowerPc.meets, FollowerPc.signaled, hpc,
        hcons, State.released, State.setFollower, List.length_cons] <;>
      omega

/-- The band moves. -/
theorem Baton.bandMove (h : Baton L F s) (hl : t.leader = s.leader) (hf : t.follower = s.follower)
    (hfp : t.followerPerson = s.followerPerson) (hlr : t.leaderReady = s.leaderReady)
    (hfr : t.followerReady = s.followerReady) (hsig : t.signal = s.signal)
    (hone : t.ready + t.band.baton + tally L id t.leaderPerson =
      s.ready + s.band.baton + tally L id s.leaderPerson)
    (hlt : ∀ l, t.band = .popRelease l ∨ t.band = .free l → l < L) : Baton L F t := by
  obtain ⟨hbaton, hleader, hfollower, hsignal, -, hlead⟩ := h
  simp only [State.leaderBaton] at hbaton
  refine ⟨?_, ?_, ?_, ?_, hlt, hl ▸ hlead⟩
  · simp only [State.leaderBaton, State.followerBaton, State.released, hl, hf, hfp] at hbaton ⊢
    omega
  · rw [State.released, hl, hf, hfp, hlr]
    exact hleader
  · rw [State.released, hl, hf, hfp, hfr]
    exact hfollower
  · rw [State.followerBaton, State.released, hl, hf, hfp, hsig]
    exact hsignal

/-- The band takes the baton from `ready` and gives it to a leader. -/
theorem Baton.bandStep {b : Bool} (h : Baton L F s) (hlines : Lines L F s)
    (hstep : BandStep b s t) : Baton L F t := by
  cases hstep with
  | look hpc | timeUp hpc | lock hpc | leaderLineFull hpc | followerLineFull hpc | ended hpc =>
    refine h.bandMove rfl rfl rfl rfl rfl rfl ?_ (by simp)
    simp [hpc]
  | ready hpc hk =>
    refine h.bandMove rfl rfl rfl rfl rfl rfl ?_ (by simp)
    simp [hpc, hk]
  | pop hpc hcons =>
    refine h.bandMove rfl rfl rfl rfl rfl rfl ?_ fun k hk => ?_
    · simp [hpc]
    · simp only [BandPc.popRelease.injEq, reduceCtorEq, or_false] at hk
      exact hlines.leader_lt k (hcons ▸ hk ▸ List.mem_cons_self)
  | popRelease hpc =>
    refine h.bandMove rfl rfl rfl rfl rfl rfl ?_ fun k hk => ?_
    · simp [hpc]
    · simp only [BandPc.free.injEq, reduceCtorEq, false_or] at hk
      exact h.band_lt k (.inl (hk ▸ hpc))
  | free hpc =>
    have hp := tally_id_update_succ s.leaderPerson (h.band_lt _ (.inr hpc))
    refine h.bandMove rfl rfl rfl rfl rfl rfl ?_ (by simp)
    simp only [BandPc.baton, hpc]
    omega

/-- **One step keeps the equations of the baton.** -/
theorem Baton.step {a : Act} (h : Baton L F s) (hlines : Lines L F s) (hstep : Step L F s a t)
    (hfinds : FindsOne s a) : Baton L F t := by
  cases hstep with
  | leader hi hl => exact h.leaderStep hlines hi hl hfinds
  | follower hj hf => exact h.followerStep hj hf
  | band hb => exact h.bandStep hlines hb

theorem baton_init : Baton L F initState := by
  refine ⟨?_, ?_, ?_, ?_, by simp [initState], by simp [initState]⟩ <;>
    simp [initState, tally, State.leaderBaton, State.followerBaton, State.released]

/-- Before a follower is released, and once it is past `signal.acquire()`, no permit is there and
no leader is at the semaphores. -/
theorem Baton.semaphores_empty (h : Baton L F s)
    (hle : s.followerBaton F ≤ tally F FollowerPc.signaled s.follower) :
    s.leaderReady = [] ∧ s.followerReady = [] ∧ s.signal = [] ∧
      tally L LeaderPc.signals s.leader = 0 := by
  have hmeets : tally L LeaderPc.meets s.leader ≤ tally L LeaderPc.signals s.leader :=
    tally_le_tally fun l => by cases l <;> simp
  have hbaton : tally F FollowerPc.meets s.follower + tally F FollowerPc.signaled s.follower ≤
      tally F FollowerPc.baton s.follower := by
    rw [← tally_add]
    exact tally_le_tally fun l => by
      cases l <;> simp
  obtain ⟨-, hlr, hfr, hsig, -, -⟩ := h
  simp only [State.followerBaton] at hle hsig
  exact ⟨List.eq_nil_of_length_eq_zero (by omega), List.eq_nil_of_length_eq_zero (by omega),
    List.eq_nil_of_length_eq_zero (by omega), by omega⟩

/-- While a leader has the baton, no follower has it. -/
theorem Baton.followerBaton_eq_zero (h : Baton L F s) (hi : i < L)
    (hb : (s.leader i).baton = 1) : s.followerBaton F = 0 := by
  have hle := le_tally LeaderPc.baton s.leader hi
  have hone := h.one
  simp only [State.leaderBaton] at hone
  omega

/-- While a leader has the baton, no other leader has it. -/
theorem Baton.baton_eq_zero {k : ℕ} (h : Baton L F s) (hi : i < L) (hk : k < L) (hne : k ≠ i)
    (hb : (s.leader i).baton = 1) : (s.leader k).baton = 0 := by
  have hle := add_le_tally LeaderPc.baton s.leader hk hi hne
  have hone := h.one
  simp only [State.leaderBaton] at hone
  omega

end Baton

/-! ### Partners -/

/-- The follower has been released by its leader and has not yet passed on the baton. -/
def Active (F : ℕ) (s : State) (j : ℕ) : Prop :=
  j < F ∧ 0 < s.followerPerson j + (s.follower j).baton

/-- The follower `j` is entering the floor with the leader `l`, that has taken it out of the
line. -/
def Couple (F : ℕ) (s : State) (l j : ℕ) : Prop := Active F s j ∧ s.leaderOf j = some l

/-- The leader is between being released by the band and its partner's `ready.release()`. -/
def Entering (F : ℕ) (s : State) (l : ℕ) : Prop :=
  0 < s.leaderPerson l + (s.leader l).baton ∨ ∃ j, Couple F s l j

namespace LeaderPc

/-- The follower that the leader has taken out of the line and not yet released. -/
@[simp] def took : LeaderPc → Option ℕ
  | .popRelease f | .free f => some f
  | _ => none

/-- The follower that the leader has released and not yet signaled. -/
@[simp] def partner : LeaderPc → Option ℕ
  | .leaderReady f | .followerReady f | .signal f => some f
  | _ => none

theorem took_eq_none {c : LeaderPc} (h : c.baton = 0) : c.took = none := by
  cases c <;> simp_all

theorem partner_eq_none {c : LeaderPc} (h : c.signals = 0) : c.partner = none := by
  cases c <;> simp_all

end LeaderPc

/-- **Permits are those of couples**, and so is what the leaders know. -/
structure Partners (L F : ℕ) (s : State) : Prop where
  took : ∀ i < L, ∀ f, (s.leader i).took = some f → s.leaderOf f = some i
  partner : ∀ i < L, ∀ f, (s.leader i).partner = some f → Couple F s i f
  leaderReady : ∀ l ∈ s.leaderReady, ∃ j, Couple F s l j
  followerReady : ∀ j ∈ s.followerReady, Active F s j
  signal : ∀ l ∈ s.signal, ∃ j, Couple F s l j

section Partners

variable {L F i j : ℕ} {s t : State}

theorem Active.of_le (h : Active F s j)
    (hle : s.followerPerson j + (s.follower j).baton ≤
      t.followerPerson j + (t.follower j).baton) : Active F t j :=
  ⟨h.1, Nat.lt_of_lt_of_le h.2 hle⟩

/-- A leader moves, and couples stay couples. -/
theorem Partners.leaderMove {c : LeaderPc} (h : Partners L F s)
    (hl : t.leader = update s.leader i c) (hof : t.leaderOf = s.leaderOf)
    (hactive : ∀ j, Active F s j → Active F t j)
    (htook : ∀ f, c.took = some f → t.leaderOf f = some i)
    (hpartner : ∀ f, c.partner = some f → Couple F t i f)
    (hlr : ∀ l ∈ t.leaderReady, l ∈ s.leaderReady ∨ ∃ j, Couple F t l j)
    (hfr : ∀ j ∈ t.followerReady, j ∈ s.followerReady)
    (hsig : ∀ l ∈ t.signal, l ∈ s.signal ∨ ∃ j, Couple F t l j) : Partners L F t := by
  have hcouple (l j : ℕ) (hc : Couple F s l j) : Couple F t l j :=
    ⟨hactive j hc.1, hof ▸ hc.2⟩
  refine ⟨fun k hk f hf => ?_, fun k hk f hf => ?_, fun l hmem => ?_,
    fun j hj => hactive j (h.followerReady j (hfr j hj)), fun l hmem => ?_⟩
  · rw [hl] at hf
    rw [update_apply] at hf
    split_ifs at hf with hki
    · exact hki ▸ htook f hf
    · exact hof ▸ h.took k hk f hf
  · rw [hl] at hf
    rw [update_apply] at hf
    split_ifs at hf with hki
    · exact hki ▸ hpartner f hf
    · exact hcouple k f (h.partner k hk f hf)
  · rcases hlr l hmem with hmem | hmem
    · obtain ⟨j, hj⟩ := h.leaderReady l hmem
      exact ⟨j, hcouple l j hj⟩
    · exact hmem
  · rcases hsig l hmem with hmem | hmem
    · obtain ⟨j, hj⟩ := h.signal l hmem
      exact ⟨j, hcouple l j hj⟩
    · exact hmem

/-- A leader gets its partner where it takes a follower out of the line. -/
theorem Partners.leaderStep (h : Partners L F s) (hbaton : Baton L F s) (hi : i < L)
    (hstep : LeaderStep L i s t) (hfinds : FindsOne s (.leader i)) : Partners L F t := by
  cases hstep with
  | start hpc | startIn hpc | startOut hpc | wait hpc | look hpc | testEmpty hpc | test hpc
  | goWait hpc | inLine hpc | go hpc | popAcquire hpc | back hpc | append hpc | testFull hpc
  | testNotFull hpc | full hpc | backRelease hpc =>
    exact h.leaderMove rfl rfl (fun _ => id) (by simp)
      (by simp) (fun _ => .inl) (fun _ => id) (fun _ => .inl)
  | popEmpty hpc he => exact absurd he (hfinds hpc)
  | pop hpc =>
    -- the leader has the baton, so nothing else is going on
    have hb : (s.leader i).baton = 1 := by simp [hpc]
    have hzero := hbaton.followerBaton_eq_zero hi hb
    obtain ⟨hlr, hfr, hsig, hnone⟩ := hbaton.semaphores_empty (hzero ▸ Nat.zero_le _)
    refine ⟨fun k hk g hg => ?_, fun k hk g hg => ?_, by simp [hlr],
      by simp [hfr], by simp [hsig]⟩
    · by_cases hki : k = i
      · simp only [hki, State.setLeader, update_self, LeaderPc.took,
          Option.some.injEq] at hg ⊢
        rw [hg, update_self]
      · simp only [State.setLeader, update_of_ne hki] at hg
        rw [LeaderPc.took_eq_none (hbaton.baton_eq_zero hi hk hki hb)] at hg
        cases hg
    · by_cases hki : k = i
      · simp [hki] at hg
      · simp only [State.setLeader, update_of_ne hki] at hg
        rw [LeaderPc.partner_eq_none (tally_eq_zero_iff.mp hnone k hk)] at hg
        cases hg
  | popRelease hpc =>
    refine h.leaderMove rfl rfl (fun _ => id) (fun g hg => h.took i hi g ?_)
      (by simp) (fun _ => .inl) (fun _ => id) (fun _ => .inl)
    simpa [hpc] using hg
  | @free f hpc =>
    have hof := h.took i hi f (by simp [hpc])
    refine h.leaderMove rfl rfl (fun j hj => hj.of_le ?_) (by simp)
      (fun g hg => ?_) (fun _ => .inl) (fun _ => id) (fun _ => .inl)
    · by_cases hjf : j = f
      · simp only [hjf, State.setLeader, update_self]
        omega
      · simp only [State.setLeader, update_of_ne hjf, le_refl]
    · cases hg
      refine ⟨⟨hbaton.leader_lt i hi _ (.inr hpc), ?_⟩, hof⟩
      simp only [update_self]
      omega
  | @leaderReady f hpc =>
    have hcouple := h.partner i hi f (by simp [hpc])
    refine h.leaderMove rfl rfl (fun _ => id) (by simp)
      (fun g hg => Option.some.inj hg ▸ hcouple) (fun l hl => ?_) (fun _ => id) (fun _ => .inl)
    rcases List.mem_cons.mp hl with rfl | hl
    · exact .inr ⟨f, hcouple⟩
    · exact .inl hl
  | @followerReady f j js hpc hcons =>
    have hcouple := h.partner i hi f (by simp [hpc])
    exact h.leaderMove rfl rfl (fun _ => id) (by simp)
      (fun g hg => Option.some.inj hg ▸ hcouple) (fun _ => .inl)
      (fun k hk => hcons ▸ List.mem_cons_of_mem j hk) (fun _ => .inl)
  | @signal f hpc =>
    have hcouple := h.partner i hi f (by simp [hpc])
    refine h.leaderMove rfl rfl (fun _ => id) (by simp)
      (by simp) (fun _ => .inl) (fun _ => id) (fun l hl => ?_)
    rcases List.mem_cons.mp hl with rfl | hl
    · exact .inr ⟨f, hcouple⟩
    · exact .inl hl

/-- A follower moves and stays active if it was. -/
theorem Partners.followerMove {c : FollowerPc} (h : Partners L F s)
    (hf : t.follower = update s.follower j c) (hl : t.leader = s.leader)
    (hof : t.leaderOf = s.leaderOf)
    (hother : ∀ k, k ≠ j → t.followerPerson k = s.followerPerson k)
    (hself : s.followerPerson j + (s.follower j).baton ≤ t.followerPerson j + c.baton)
    (hlr : ∀ l ∈ t.leaderReady, l ∈ s.leaderReady)
    (hfr : ∀ k ∈ t.followerReady, k ∈ s.followerReady ∨ Active F s k)
    (hsig : ∀ l ∈ t.signal, l ∈ s.signal) : Partners L F t := by
  have hactive (k : ℕ) (hk : Active F s k) : Active F t k := by
    refine hk.of_le ?_
    rw [hf]
    rw [update_apply]
    split_ifs with hkj
    · rw [hkj]
      exact hself
    · rw [hother k hkj]
  have hcouple (l k : ℕ) (hc : Couple F s l k) : Couple F t l k :=
    ⟨hactive k hc.1, hof ▸ hc.2⟩
  refine ⟨fun k hk f hg => hof ▸ h.took k hk f (hl ▸ hg),
    fun k hk f hg => hcouple k f (h.partner k hk f (hl ▸ hg)), fun l hmem => ?_,
    fun k hk => hactive k ?_, fun l hmem => ?_⟩
  · obtain ⟨k, hk⟩ := h.leaderReady l (hlr l hmem)
    exact ⟨k, hcouple l k hk⟩
  · rcases hfr k hk with hk | hk
    · exact h.followerReady k hk
    · exact hk
  · obtain ⟨k, hk⟩ := h.signal l (hsig l hmem)
    exact ⟨k, hcouple l k hk⟩

/-- A step of a follower that has the baton keeps its couple together. -/
theorem Partners.followerStep (h : Partners L F s) (hbaton : Baton L F s) (hj : j < F)
    (hstep : FollowerStep F j s t) : Partners L F t := by
  cases hstep with
  | start hpc | startIn hpc | startOut hpc | back hpc | append hpc | testFull hpc | testSome hpc
  | testNone hpc | full hpc | inLine hpc | backRelease hpc =>
    refine h.followerMove rfl rfl rfl (fun _ _ => rfl) ?_ (fun _ => id) (fun _ => .inl)
      (fun _ => id)
    simp [hpc]
  | wait hpc hk =>
    refine h.followerMove rfl rfl rfl (fun k hk => ?_) ?_ (fun _ => id) (fun _ => .inl)
      (fun _ => id)
    · exact update_of_ne hk _ _
    · simp [hpc, hk]
  | followerReady hpc =>
    refine h.followerMove rfl rfl rfl (fun _ _ => rfl) ?_ (fun _ => id) (fun k hk => ?_)
      (fun _ => id)
    · simp [hpc]
    · rcases List.mem_cons.mp hk with rfl | hk
      · exact .inr ⟨hj, by simp [hpc]⟩
      · exact .inl hk
  | leaderReady hpc hcons =>
    refine h.followerMove rfl rfl rfl (fun _ _ => rfl) ?_
      (fun l hl => hcons ▸ List.mem_cons_of_mem _ hl) (fun _ => .inl) (fun _ => id)
    simp [hpc]
  | signal hpc hcons =>
    refine h.followerMove rfl rfl rfl (fun _ _ => rfl) ?_ (fun _ => id) (fun _ => .inl)
      (fun l hl => hcons ▸ List.mem_cons_of_mem _ hl)
    simp [hpc]
  | ready hpc =>
    -- the last step of a couple: nothing is left of it
    have hle := le_tally FollowerPc.signaled s.follower hj
    have hone := hbaton.one
    simp only [FollowerPc.signaled, hpc] at hle
    obtain ⟨hlr, hfr, hsig, hnone⟩ := hbaton.semaphores_empty (by omega)
    refine ⟨h.took, fun k hk f hf => ?_, by simp [hlr],
      by simp [hfr], by simp [hsig]⟩
    rw [State.setFollower, LeaderPc.partner_eq_none (tally_eq_zero_iff.mp hnone k hk)] at hf
    cases hf

/-- **One step keeps permits those of couples.** -/
theorem Partners.step {a : Act} (h : Partners L F s) (hbaton : Baton L F s)
    (hstep : Step L F s a t) (hfinds : FindsOne s a) : Partners L F t := by
  cases hstep with
  | leader hi hl => exact h.leaderStep hbaton hi hl hfinds
  | follower hj hf => exact h.followerStep hbaton hj hf
  | band hb =>
    cases hb <;> exact { h with }

/-- At most one follower is active. -/
theorem Baton.active_unique {k : ℕ} (h : Baton L F s) (hj : Active F s j) (hk : Active F s k) :
    j = k := by
  by_contra hne
  have h1 := add_le_tally id s.followerPerson hj.1 hk.1 hne
  have h2 := add_le_tally FollowerPc.baton s.follower hj.1 hk.1 hne
  have hone := h.one
  have hj2 := hj.2
  have hk2 := hk.2
  simp only [State.followerBaton, State.released, id] at hone h1
  omega

/-- A leader that has the baton, and a couple: not both. -/
theorem Baton.not_active {l : ℕ} (h : Baton L F s) (hl : l < L)
    (hb : 0 < s.leaderPerson l + (s.leader l).baton) : ¬ Active F s j := fun hj => by
  have h1 := le_tally id s.leaderPerson hl
  have h2 := le_tally LeaderPc.baton s.leader hl
  have h3 := le_tally id s.followerPerson hj.1
  have h4 := le_tally FollowerPc.baton s.follower hj.1
  have hone := h.one
  have hj2 := hj.2
  simp only [State.leaderBaton, State.followerBaton, State.released, id] at hone h1 h3
  omega

/-- **At most one leader is entering the floor.** -/
theorem Baton.entering_unique {l k : ℕ} (h : Baton L F s) (hl : l < L) (hk : k < L)
    (hle : Entering F s l) (hke : Entering F s k) : l = k := by
  rcases hle with hle | ⟨j, hj⟩ <;> rcases hke with hke | ⟨j', hj'⟩
  · by_contra hne
    have h1 := add_le_tally id s.leaderPerson hl hk hne
    have h2 := add_le_tally LeaderPc.baton s.leader hl hk hne
    have hone := h.one
    simp only [State.leaderBaton, id] at hone h1
    omega
  · exact absurd hj'.1 (h.not_active hl hle)
  · exact absurd hj.1 (h.not_active hk hke)
  · obtain rfl := h.active_unique hj.1 hj'.1
    exact Option.some.inj (hj.2.symm.trans hj'.2)

/-- The semaphores of the couples have at most one permit each. -/
theorem Baton.length_le_one (h : Baton L F s) :
    s.leaderReady.length ≤ 1 ∧ s.followerReady.length ≤ 1 ∧ s.signal.length ≤ 1 := by
  have hmeets : tally F FollowerPc.meets s.follower ≤ tally F FollowerPc.baton s.follower :=
    tally_le_tally fun l => by cases l <;> simp
  have hsignals : tally L LeaderPc.meets s.leader ≤ tally L LeaderPc.signals s.leader :=
    tally_le_tally fun l => by cases l <;> simp
  obtain ⟨hone, hlr, hfr, hsig, -, -⟩ := h
  simp only [State.followerBaton] at hone hsig
  omega

end Partners

/-! ### Partners match -/

section Match

variable {L F : ℕ} {s : State}

/-- The three invariants along a run. -/
theorem invariants_of_reachable (hreach : ((system L F).restrict FindsOne).Reachable s) :
    Lines L F s ∧ Baton L F s ∧ Partners L F s := by
  refine hreach.invariant (I := fun s => Lines L F s ∧ Baton L F s ∧ Partners L F s) ?_ ?_
  · rintro s rfl
    exact ⟨lines_init, baton_init, by simp [initState],
      by simp [initState], by simp [initState], by simp [initState],
      by simp [initState]⟩
  · rintro s a t ⟨hlines, hbaton, hpartners⟩ ⟨hstep, hfinds⟩
    exact ⟨hlines.step hstep, hbaton.step hlines hstep hfinds,
      hpartners.step hbaton hstep hfinds⟩

/-- **Partners match**, in every run in which `popleft()` in `release_follower` finds a follower:
the permit of `leaderReady` or `signal` that a follower is about to take is from the leader that
took it out of the line; the permit of `followerReady` that a leader is about to take is from the
follower it took out of the line; at most one leader is between being released by the band and its
partner's `ready.release()`; and none of the three semaphores exceeds one. -/
theorem partners_match (hreach : ((system L F).restrict FindsOne).Reachable s) :
    (∀ j < F, s.follower j = .leaderReady → ∀ l ∈ s.leaderReady, s.leaderOf j = some l) ∧
      (∀ i < L, ∀ f, s.leader i = .followerReady f → ∀ j ∈ s.followerReady,
        j = f ∧ s.leaderOf j = some i) ∧
      (∀ j < F, s.follower j = .signal → ∀ l ∈ s.signal, s.leaderOf j = some l) ∧
      (∀ l < L, ∀ k < L, Entering F s l → Entering F s k → l = k) ∧
      s.leaderReady.length ≤ 1 ∧ s.followerReady.length ≤ 1 ∧ s.signal.length ≤ 1 := by
  obtain ⟨-, hbaton, hpartners⟩ := invariants_of_reachable hreach
  refine ⟨fun j hj hpc l hl => ?_, fun i hi f hpc j hj => ?_, fun j hj hpc l hl => ?_,
    fun l hl k hk => hbaton.entering_unique hl hk, hbaton.length_le_one⟩
  · obtain ⟨k, hk⟩ := hpartners.leaderReady l hl
    have hactive : Active F s j := ⟨hj, by simp [hpc]⟩
    exact hbaton.active_unique hactive hk.1 ▸ hk.2
  · have hf := hpartners.partner i hi f (by simp [hpc])
    obtain rfl := hbaton.active_unique (hpartners.followerReady j hj) hf.1
    exact ⟨rfl, hf.2⟩
  · obtain ⟨k, hk⟩ := hpartners.signal l hl
    have hactive : Active F s j := ⟨hj, by simp [hpc]⟩
    exact hbaton.active_unique hactive hk.1 ▸ hk.2

/-- Partners at the semaphores: a second couple, each about to take the other's permit, while the
first one is on the floor. -/
theorem partners_match_two : ∃ s, ((system 2 2).restrict FindsOne).Reachable s ∧
    s.follower 1 = .leaderReady ∧ s.leaderReady = [1] ∧ s.leaderOf 1 = some 1 ∧
      s.leaderOf 0 = some 0 ∧ s.signal.length ≤ 1 := by
  have hrun : ((starts 2 2 ++ dance 0 0 ++ calls ++ List.replicate 9 (Act.leader 1) ++
      List.replicate 2 (Act.follower 1)).foldlM (nextWhen 2 2 FindsOne) initState).map
        (fun s => (s.follower 1, s.leaderReady, s.leaderOf 0)) =
      some (.leaderReady, [1], some 0) := by decide +kernel
  obtain ⟨s, hs, heq⟩ := Option.map_eq_some_iff.mp hrun
  simp only [Prod.mk.injEq] at heq
  obtain ⟨hpc, hlr, hfirst⟩ := heq
  have hreach := reachable_of_run hs
  obtain ⟨hmatch, -, -, -, -, -, hlen⟩ := partners_match hreach
  exact ⟨s, hreach, hpc, hlr, hmatch 1 (by decide) hpc 1 (by simp [hlr]), hfirst, hlen⟩

end Match

/-! ### Followers that are there -/

/-- When a leader finds the line of followers empty, no permit of `followerInLine` is there. -/
def NoneLeftOver (s : State) : Act → Prop
  | .leader i => s.leader i = .test → s.followers = [] → s.followerInLine = 0
  | .follower _ | .band _ => True

instance (s : State) : DecidablePred (NoneLeftOver s)
  | .leader i =>
    inferInstanceAs (Decidable (s.leader i = .test → s.followers = [] → s.followerInLine = 0))
  | .follower _ | .band _ => inferInstanceAs (Decidable True)

/-- The leader knows that a follower is in line. -/
@[simp] def LeaderPc.sure : LeaderPc → Prop
  | .go | .popAcquire | .pop => True
  | _ => False

/-- The leader has found the line empty. -/
@[simp] def LeaderPc.waits : LeaderPc → Prop
  | .goWait | .inLine => True
  | _ => False

/-- The follower has put itself in line and holds the lock. -/
@[simp] def FollowerPc.lining : FollowerPc → Prop
  | .testFull | .full | .inLine | .backRelease => True
  | _ => False

/-- **Leaders know what they need:** as long as the line is empty, a leader that waits finds no
permit. -/
structure Sure (L F : ℕ) (s : State) : Prop where
  sure : ∀ i < L, (s.leader i).sure → s.followers ≠ []
  waits : ∀ i < L, (s.leader i).waits → s.followers = [] →
    s.followerInLine = 0 ∧ ∀ j < F, ¬ (s.follower j).lining

section Sure

variable {L F i j : ℕ} {s t : State}

/-- The steps that `Sure` allows find a follower. -/
theorem Sure.findsOne {a : Act} (h : Sure L F s) (hstep : Step L F s a t) : FindsOne s a := by
  cases hstep with
  | leader hi _ => exact fun hpc => h.sure _ hi (by simp [hpc])
  | follower | band => trivial

/-- A leader moves and leaves the line alone. -/
theorem Sure.leaderQuiet {c : LeaderPc} (h : Sure L F s)
    (hl : t.leader = update s.leader i c) (hf : t.follower = s.follower)
    (hfollowers : t.followers = s.followers) (hin : t.followerInLine ≤ s.followerInLine)
    (hsure : c.sure → s.followers ≠ [])
    (hwaits : c.waits → s.followers = [] →
      s.followerInLine = 0 ∧ ∀ j < F, ¬ (s.follower j).lining) : Sure L F t := by
  refine ⟨fun k hk hk' => ?_, fun k hk hk' he => ?_⟩
  · rw [hfollowers]
    rw [hl] at hk'
    rw [update_apply] at hk'
    split_ifs at hk' with hki
    · exact hsure hk'
    · exact h.sure k hk hk'
  · rw [hfollowers] at he
    rw [hl] at hk'
    have hnone : s.followerInLine = 0 ∧ ∀ j < F, ¬ (s.follower j).lining := by
      rw [update_apply] at hk'
      split_ifs at hk' with hki
      · exact hwaits hk' he
      · exact h.waits k hk hk' he
    exact ⟨Nat.le_zero.mp (hnone.1 ▸ hin), hf ▸ hnone.2⟩

/-- While a leader holds the lock, no follower does. -/
theorem Lines.not_lining (h : Lines L F s) (hi : i < L) (hin : (s.leader i).inFollowerLock = 1)
    (hj : j < F) : ¬ (s.follower j).lining := fun hlining => by
  have h1 := h.followerLock
  have h2 := le_tally LeaderPc.inFollowerLock s.leader hi
  have h3 := le_tally FollowerPc.inFollowerLock s.follower hj
  have h4 : (s.follower j).inFollowerLock = 1 := by
    cases hpc : s.follower j <;> simp_all
  have := s.followerLock.toNat_le
  omega

/-- A leader that goes on to `popleft()` knows of a follower in line. -/
theorem Sure.leaderStep (h : Sure L F s) (hlines : Lines L F s) (hbaton : Baton L F s) (hi : i < L)
    (hstep : LeaderStep L i s t) (hnone : NoneLeftOver s (.leader i)) : Sure L F t := by
  cases hstep with
  | start hpc | startIn hpc | startOut hpc | wait hpc | look hpc | popRelease hpc | free hpc
  | leaderReady hpc | followerReady hpc | signal hpc | back hpc | append hpc | testFull hpc
  | testNotFull hpc | full hpc | backRelease hpc | popEmpty hpc =>
    exact h.leaderQuiet rfl rfl rfl le_rfl (by simp) (by simp)
  | test hpc hne =>
    exact h.leaderQuiet rfl rfl rfl le_rfl (fun _ => hne) (by simp)
  | testEmpty hpc he =>
    exact h.leaderQuiet rfl rfl rfl le_rfl (by simp) fun _ _ =>
      ⟨hnone hpc he, fun j hj => hlines.not_lining hi (by simp [hpc]) hj⟩
  | goWait hpc =>
    exact h.leaderQuiet rfl rfl rfl le_rfl (by simp) fun _ he =>
      h.waits i hi (by simp [hpc]) he
  | go hpc | popAcquire hpc =>
    exact h.leaderQuiet rfl rfl rfl le_rfl (fun _ => h.sure i hi (by simp [hpc]))
      (by simp)
  | inLine hpc hk =>
    -- there is a permit, so the line is not empty any more
    refine h.leaderQuiet rfl rfl rfl ?_ (fun _ he => ?_) (by simp)
    · simp [hk]
    · have := (h.waits i hi (by simp [hpc]) he).1
      omega
  | pop hpc =>
    -- the leader has the baton, so no other leader is at the line
    have hother (k : ℕ) (hk : k < L) (hne : k ≠ i) :=
      hbaton.baton_eq_zero hi hk hne (by simp [hpc])
    refine ⟨fun k hk hk' => ?_, fun k hk hk' => ?_⟩
    all_goals
      by_cases hki : k = i
      · simp [hki] at hk'
      · have hz := hother k hk hki
        simp only [State.setLeader, update_of_ne hki] at hk'
        cases hpk : s.leader k <;> simp_all

/-- A follower moves and leaves the line alone. -/
theorem Sure.followerQuiet {c : FollowerPc} (h : Sure L F s)
    (hf : t.follower = update s.follower j c) (hl : t.leader = s.leader)
    (hfollowers : t.followers = s.followers) (hin : t.followerInLine = s.followerInLine)
    (hc : c.lining → j < F → (s.follower j).lining) : Sure L F t := by
  refine ⟨by rw [hl, hfollowers]; exact h.sure, fun k hk hk' he => ?_⟩
  rw [hfollowers] at he
  obtain ⟨hz, hnone⟩ := h.waits k hk (hl ▸ hk') he
  refine ⟨hin ▸ hz, fun m hm hlin => ?_⟩
  rw [hf] at hlin
  rw [update_apply] at hlin
  split_ifs at hlin with hmj
  · subst hmj
    exact hnone m hm (hc hlin hm)
  · exact hnone m hm hlin

/-- A follower lines up. -/
theorem Sure.of_ne_nil (hne : t.followers ≠ []) : Sure L F t :=
  ⟨fun _ _ _ => hne, fun _ _ _ he => absurd he hne⟩

/-- A follower gives its permit of `followerInLine` after it is in line. -/
theorem Sure.followerStep (h : Sure L F s) (hj : j < F) (hstep : FollowerStep F j s t) :
    Sure L F t := by
  cases hstep with
  | start hpc | startOut hpc | wait hpc | followerReady hpc | leaderReady hpc | signal hpc
  | ready hpc | back hpc | backRelease hpc =>
    exact h.followerQuiet rfl rfl rfl rfl (by simp)
  | startIn hpc | append hpc => exact .of_ne_nil (by simp)
  | testFull hpc | testSome hpc | testNone hpc | full hpc =>
    exact h.followerQuiet rfl rfl rfl rfl (by simp [hpc])
  | inLine hpc =>
    -- if a leader waits, the line is not empty: the follower is in it
    have hlining : (s.follower j).lining := by simp [hpc]
    refine ⟨h.sure, fun k hk hk' he => ?_⟩
    exact absurd hlining ((h.waits k hk hk' he).2 j hj)

/-- The invariants along a run in which no permit is left over. -/
theorem sure_of_reachable (hreach : ((system L F).restrict NoneLeftOver).Reachable s) :
    Lines L F s ∧ Baton L F s ∧ Sure L F s := by
  refine hreach.invariant (I := fun s => Lines L F s ∧ Baton L F s ∧ Sure L F s) ?_ ?_
  · rintro s rfl
    exact ⟨lines_init, baton_init, by simp [initState],
      by simp [initState]⟩
  · rintro s a t ⟨hlines, hbaton, hsure⟩ ⟨hstep, hnone⟩
    refine ⟨hlines.step hstep, hbaton.step hlines hstep (hsure.findsOne hstep), ?_⟩
    cases hstep with
    | leader hi hl => exact hsure.leaderStep hlines hbaton hi hl hnone
    | follower hj hf => exact hsure.followerStep hj hf
    | band hb => cases hb <;> exact ⟨hsure.sure, hsure.waits⟩

/-- **Leaders only take followers that are there:** in every run in which no permit of
`followerInLine` is there when a leader finds the line empty, `popleft()` in `release_follower` is
never executed on an empty line. -/
theorem follower_there (hreach : ((system L F).restrict NoneLeftOver).Reachable s) :
    ∀ i < L, s.leader i = .pop → s.followers ≠ [] := by
  obtain ⟨-, -, hsure⟩ := sure_of_reachable hreach
  exact fun i hi hpc => hsure.sure i hi (by simp [hpc])

/-- A leader that finds the line empty waits, and takes the follower that comes back. -/
theorem follower_there_wait : ∃ s, ((system 1 2).restrict NoneLeftOver).Reachable s ∧
    s.leader 0 = .pop ∧ s.followers ≠ [] := by
  have hrun : ((starts 1 2 ++ dance 0 0 ++ List.replicate 5 (Act.leader 0) ++ dance 0 1 ++
      List.replicate 5 (Act.leader 0) ++ calls ++ List.replicate 4 (Act.leader 0) ++
      List.replicate 5 (Act.follower 0) ++ List.replicate 2 (Act.leader 0)).foldlM
      (nextWhen 1 2 NoneLeftOver) initState).map (fun s => s.leader 0) = some .pop := by
    decide +kernel
  obtain ⟨s, hs, hpc⟩ := Option.map_eq_some_iff.mp hrun
  have hreach := reachable_of_run hs
  exact ⟨s, hreach, hpc, follower_there hreach 0 (by decide) hpc⟩

/-- **A permit is left over.** With one leader and two followers, the first follower comes back
while the line is empty and nobody waits for it. When the leader next finds the line empty, it
takes that permit and goes on to take a follower from the empty line. -/
theorem pop_empty_line : ∃ s, (system 1 2).Reachable s ∧ s.leader 0 = .pop ∧ s.followers = [] := by
  have hrun : ((starts 1 2 ++ dance 0 0 ++ List.replicate 5 (Act.leader 0) ++ dance 0 1 ++
      List.replicate 5 (Act.leader 0) ++ List.replicate 5 (Act.follower 0) ++ dance 0 0 ++
      List.replicate 5 (Act.leader 0) ++ calls ++ List.replicate 6 (Act.leader 0)).foldlM
      (nextWhen 1 2 fun _ _ => True) initState).map (fun s => (s.leader 0, s.followers)) =
      some (.pop, []) := by decide +kernel
  obtain ⟨s, hs, heq⟩ := Option.map_eq_some_iff.mp hrun
  obtain ⟨hpc, hempty⟩ := Prod.mk.inj heq
  exact ⟨s, (reachable_of_run hs).mono, hpc, hempty⟩

end Sure

end Xv6.DanceMixer
