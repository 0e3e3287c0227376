import Xv6.DanceMixer

/-!
# The Two Lines

Where the leaders and the followers of the dance mixer are: in their line, taken out of it and not
yet released, or on their way. When a line has as many members as there are leaders or followers,
all of them are in it.

The semaphores `leaderLineFull` and `followerLineFull` are released whenever a line happens to fill
up, several times in a song, and acquired once. So a permit can be left over from earlier in the
song, and the band stops the music with dancers on the floor (`band_stops_early`). It does not if
nobody leaves a line that has been reported full and not yet acknowledged.

## Main results

* `Lines.step`: one step keeps account of everybody.
* `all_back`: **the band stops only when everybody is back**, if no line with a permit is left.
* `band_stops_early`: a run in which the band stops while the only couple is away.
-/

open Transition Threads
open Function (update update_apply update_of_ne update_self)

namespace Xv6.DanceMixer

/-! ### Where everybody is -/

namespace LeaderPc

/-- The leader holds `leaderLock`. -/
@[simp] def inLeaderLock : LeaderPc → ℕ
  | .startIn | .startOut | .append | .testFull | .full | .backRelease => 1
  | _ => 0

/-- The leader holds `followerLock`. -/
@[simp] def inFollowerLock : LeaderPc → ℕ
  | .test | .goWait | .go | .pop | .popRelease _ => 1
  | _ => 0

/-- The leader is not in line. -/
@[simp] def away : LeaderPc → ℕ
  | .startOut | .wait | .testFull | .full | .backRelease => 0
  | _ => 1

/-- The leader has taken the follower `j` out of its line and not yet released it. -/
@[simp] def holds (j : ℕ) : LeaderPc → ℕ
  | .popRelease f | .free f => if f = j then 1 else 0
  | _ => 0

end LeaderPc

namespace FollowerPc

/-- The follower holds `followerLock`. -/
@[simp] def inFollowerLock : FollowerPc → ℕ
  | .startIn | .startOut | .append | .testFull | .full | .inLine | .backRelease => 1
  | _ => 0

/-- The follower is not in line. -/
@[simp] def away : FollowerPc → ℕ
  | .startOut | .wait | .testFull | .full | .inLine | .backRelease => 0
  | _ => 1

end FollowerPc

namespace BandPc

/-- The band holds `leaderLock`. -/
@[simp] def inLeaderLock : BandPc → ℕ
  | .ready | .pop | .popRelease _ => 1
  | _ => 0

/-- The band has taken the leader `i` out of its line and not yet released it. -/
@[simp] def holds (i : ℕ) : BandPc → ℕ
  | .popRelease l | .free l => if l = i then 1 else 0
  | _ => 0

end BandPc

/-- **Everybody is accounted for**, and so are the locks. -/
structure Lines (L F : ℕ) (s : State) : Prop where
  leaderLock : tally L LeaderPc.inLeaderLock s.leader + s.band.inLeaderLock = s.leaderLock.toNat
  followerLock : tally L LeaderPc.inFollowerLock s.leader +
    tally F FollowerPc.inFollowerLock s.follower = s.followerLock.toNat
  leaderAt : ∀ i < L,
    s.leaders.count i + s.leaderPerson i + s.band.holds i + (s.leader i).away = 1
  leader_lt : ∀ i ∈ s.leaders, i < L
  followerAt : ∀ j < F, s.followers.count j + s.followerPerson j +
    tally L (LeaderPc.holds j) s.leader + (s.follower j).away = 1
  follower_lt : ∀ j ∈ s.followers, j < F

/-- A list of distinct numbers below `n` that has `n` elements has them all. -/
theorem mem_of_length_eq {l : List ℕ} {n i : ℕ} (hcount : ∀ k < n, l.count k ≤ 1)
    (hlt : ∀ k ∈ l, k < n) (hlen : l.length = n) (hi : i < n) : i ∈ l := by
  have hnodup : l.Nodup := List.nodup_iff_count_le_one.mpr fun k => by
    by_cases hk : k ∈ l
    · exact hcount k (hlt k hk)
    · rw [List.count_eq_zero_of_not_mem hk]
      exact Nat.zero_le 1
  have hsub : l.toFinset ⊆ Finset.range n := fun k hk =>
    Finset.mem_range.mpr (hlt k (List.mem_toFinset.mp hk))
  have heq : l.toFinset = Finset.range n := by
    refine Finset.eq_of_subset_of_card_le hsub ?_
    rw [List.toFinset_card_of_nodup hnodup, Finset.card_range, hlen]
  exact List.mem_toFinset.mp (heq ▸ Finset.mem_range.mpr hi)

section Lines

variable {L F i j : ℕ} {s t : State}

/-- **A leader moves:** the locks balance, and so does where everybody is. -/
theorem Lines.leaderMove {c : LeaderPc} (h : Lines L F s) (hi : i < L)
    (hl : t.leader = update s.leader i c) (hf : t.follower = s.follower)
    (hb : t.band = s.band)
    (hll : c.inLeaderLock + s.leaderLock.toNat =
      (s.leader i).inLeaderLock + t.leaderLock.toNat)
    (hfl : c.inFollowerLock + s.followerLock.toNat =
      (s.leader i).inFollowerLock + t.followerLock.toNat)
    (hself : t.leaders.count i + t.leaderPerson i + c.away =
      s.leaders.count i + s.leaderPerson i + (s.leader i).away)
    (hother : ∀ k, k ≠ i →
      t.leaders.count k + t.leaderPerson k = s.leaders.count k + s.leaderPerson k)
    (hlt : ∀ k ∈ t.leaders, k < L)
    (hfollow : ∀ j < F, t.followers.count j + t.followerPerson j + c.holds j =
      s.followers.count j + s.followerPerson j + (s.leader i).holds j)
    (hflt : ∀ j ∈ t.followers, j < F) : Lines L F t := by
  have htally (f : LeaderPc → ℕ) := tally_update f s.leader c hi
  rw [← hl] at htally
  refine ⟨?_, ?_, fun k hk => ?_, hlt, fun j hj => ?_, hflt⟩
  · have h1 := htally LeaderPc.inLeaderLock
    have h2 := h.leaderLock
    rw [hb]
    omega
  · have h1 := htally LeaderPc.inFollowerLock
    have h2 := h.followerLock
    rw [hf]
    omega
  · have h1 := h.leaderAt k hk
    rw [hb, hl]
    by_cases hki : k = i
    · subst hki
      rw [update_self]
      omega
    · have h2 := hother k hki
      rw [update_of_ne hki]
      omega
  · have h1 := htally (LeaderPc.holds j)
    have h2 := h.followerAt j hj
    have h3 := hfollow j hj
    rw [hf]
    omega

/-- A leader moves and leaves the lines alone. -/
theorem Lines.leaderQuiet {c : LeaderPc} (h : Lines L F s) (hi : i < L)
    (hl : t.leader = update s.leader i c) (hf : t.follower = s.follower)
    (hb : t.band = s.band) (hleaders : t.leaders = s.leaders)
    (hfollowers : t.followers = s.followers)
    (hlp : t.leaderPerson = s.leaderPerson) (hfp : t.followerPerson = s.followerPerson)
    (hll : c.inLeaderLock + s.leaderLock.toNat =
      (s.leader i).inLeaderLock + t.leaderLock.toNat)
    (hfl : c.inFollowerLock + s.followerLock.toNat =
      (s.leader i).inFollowerLock + t.followerLock.toNat)
    (haway : c.away = (s.leader i).away) (hholds : ∀ j, c.holds j = (s.leader i).holds j) :
    Lines L F t :=
  h.leaderMove hi hl hf hb hll hfl (by rw [hleaders, hlp, haway])
    (fun _ _ => by rw [hleaders, hlp]) (by rw [hleaders]; exact h.leader_lt)
    (fun j _ => by rw [hfollowers, hfp, hholds]) (by rw [hfollowers]; exact h.follower_lt)

/-- **A follower moves.** -/
theorem Lines.followerMove {c : FollowerPc} (h : Lines L F s) (hj : j < F)
    (hf : t.follower = update s.follower j c) (hl : t.leader = s.leader)
    (hb : t.band = s.band) (hleaders : t.leaders = s.leaders)
    (hlp : t.leaderPerson = s.leaderPerson) (hll : t.leaderLock = s.leaderLock)
    (hfl : c.inFollowerLock + s.followerLock.toNat =
      (s.follower j).inFollowerLock + t.followerLock.toNat)
    (hself : t.followers.count j + t.followerPerson j + c.away =
      s.followers.count j + s.followerPerson j + (s.follower j).away)
    (hother : ∀ k, k ≠ j →
      t.followers.count k + t.followerPerson k = s.followers.count k + s.followerPerson k)
    (hlt : ∀ k ∈ t.followers, k < F) : Lines L F t := by
  have htally := tally_update FollowerPc.inFollowerLock s.follower c hj
  rw [← hf] at htally
  refine ⟨?_, ?_, fun i hi => ?_, ?_, fun k hk => ?_, hlt⟩
  · rw [hl, hb, hll]
    exact h.leaderLock
  · have h1 := h.followerLock
    rw [hl]
    omega
  · rw [hleaders, hlp, hb, hl]
    exact h.leaderAt i hi
  · rw [hleaders]
    exact h.leader_lt
  · have h1 := h.followerAt k hk
    rw [hf, hl]
    by_cases hkj : k = j
    · subst hkj
      rw [update_self]
      omega
    · have h2 := hother k hkj
      rw [update_of_ne hkj]
      omega

/-- A follower moves and leaves the lines alone. -/
theorem Lines.followerQuiet {c : FollowerPc} (h : Lines L F s) (hj : j < F)
    (hf : t.follower = update s.follower j c) (hl : t.leader = s.leader)
    (hb : t.band = s.band) (hleaders : t.leaders = s.leaders)
    (hfollowers : t.followers = s.followers)
    (hlp : t.leaderPerson = s.leaderPerson) (hfp : t.followerPerson = s.followerPerson)
    (hll : t.leaderLock = s.leaderLock)
    (hfl : c.inFollowerLock + s.followerLock.toNat =
      (s.follower j).inFollowerLock + t.followerLock.toNat)
    (haway : c.away = (s.follower j).away) : Lines L F t :=
  h.followerMove hj hf hl hb hleaders hlp hll hfl (by rw [hfollowers, hfp, haway])
    (fun _ _ => by rw [hfollowers, hfp]) (by rw [hfollowers]; exact h.follower_lt)

/-- **The band moves.** -/
theorem Lines.bandMove (h : Lines L F s) (hl : t.leader = s.leader) (hf : t.follower = s.follower)
    (hfollowers : t.followers = s.followers) (hfp : t.followerPerson = s.followerPerson)
    (hfl : t.followerLock = s.followerLock)
    (hll : t.band.inLeaderLock + s.leaderLock.toNat =
      s.band.inLeaderLock + t.leaderLock.toNat)
    (hleader : ∀ i < L, t.leaders.count i + t.leaderPerson i + t.band.holds i =
      s.leaders.count i + s.leaderPerson i + s.band.holds i)
    (hlt : ∀ k ∈ t.leaders, k < L) : Lines L F t := by
  refine ⟨?_, ?_, fun i hi => ?_, hlt, fun j hj => ?_, ?_⟩
  · have h1 := h.leaderLock
    rw [hl]
    omega
  · rw [hl, hf, hfl]
    exact h.followerLock
  · have h1 := h.leaderAt i hi
    have h2 := hleader i hi
    rw [hl]
    omega
  · rw [hfollowers, hfp, hl, hf]
    exact h.followerAt j hj
  · rw [hfollowers]
    exact h.follower_lt

/-- The lock of the leaders is held by a leader in its section. -/
theorem Lines.leaderLock_held (h : Lines L F s) (hi : i < L)
    (hin : (s.leader i).inLeaderLock = 1) : s.leaderLock = true := by
  have hle := le_tally LeaderPc.inLeaderLock s.leader hi
  have hlock := h.leaderLock
  have := s.leaderLock.toNat_le
  exact Bool.toNat_eq_one.mp (by omega)

/-- The lock of the followers is held by a leader in its section. -/
theorem Lines.followerLock_held (h : Lines L F s) (hi : i < L)
    (hin : (s.leader i).inFollowerLock = 1) : s.followerLock = true := by
  have hle := le_tally LeaderPc.inFollowerLock s.leader hi
  have hlock := h.followerLock
  have := s.followerLock.toNat_le
  exact Bool.toNat_eq_one.mp (by omega)

/-- The lock of the followers is held by a follower in its section. -/
theorem Lines.followerLock_held' (h : Lines L F s) (hj : j < F)
    (hin : (s.follower j).inFollowerLock = 1) : s.followerLock = true := by
  have hle := le_tally FollowerPc.inFollowerLock s.follower hj
  have hlock := h.followerLock
  have := s.followerLock.toNat_le
  exact Bool.toNat_eq_one.mp (by omega)

/-- One more in a line. -/
theorem count_append_singleton (l : List ℕ) (i k : ℕ) :
    (l ++ [i]).count k = l.count k + if i = k then 1 else 0 := by
  rw [List.count_append, List.count_singleton]
  simp only [beq_iff_eq]

/-- A step of a leader keeps the lines. -/
theorem Lines.leaderStep (h : Lines L F s) (hi : i < L) (hstep : LeaderStep L i s t) :
    Lines L F t := by
  cases hstep with
  | start hpc hfree | look hpc hfree | popAcquire hpc hfree | back hpc hfree =>
    refine h.leaderQuiet hi rfl rfl rfl rfl rfl rfl rfl ?_ ?_ ?_ ?_ <;>
      simp [hpc, hfree]
  | startOut hpc | backRelease hpc =>
    have hheld := h.leaderLock_held hi (by simp [hpc])
    refine h.leaderQuiet hi rfl rfl rfl rfl rfl rfl rfl ?_ ?_ ?_ ?_ <;>
      simp [hpc, hheld]
  | goWait hpc | go hpc | popEmpty hpc | popRelease hpc =>
    have hheld := h.followerLock_held hi (by simp [hpc])
    refine h.leaderQuiet hi rfl rfl rfl rfl rfl rfl rfl ?_ ?_ ?_ ?_ <;>
      simp [hpc, hheld]
  | testEmpty hpc | test hpc | inLine hpc | leaderReady hpc | followerReady hpc | signal hpc
  | testFull hpc | testNotFull hpc | full hpc =>
    refine h.leaderQuiet hi rfl rfl rfl rfl rfl rfl rfl ?_ ?_ ?_ ?_ <;>
      simp [hpc]
  | startIn hpc | append hpc =>
    refine h.leaderMove hi rfl rfl rfl ?_ ?_ ?_ (fun k hk => ?_) (fun k hk => ?_) (fun j hj => ?_)
      h.follower_lt
    · simp [hpc]
    · simp [hpc]
    · simp only [count_append_singleton, LeaderPc.away, hpc, State.setLeader, if_true]
      omega
    · simp [hk.symm]
    · rcases List.mem_append.mp hk with hk | hk
      · exact h.leader_lt k hk
      · exact List.mem_singleton.mp hk ▸ hi
    · simp [hpc]
  | wait hpc hk =>
    refine h.leaderMove hi rfl rfl rfl ?_ ?_ ?_ (fun k hk => ?_) h.leader_lt (fun j hj => ?_)
      h.follower_lt
    · simp [hpc]
    · simp [hpc]
    · simp only [update_self, LeaderPc.away, hpc, State.setLeader, hk]
      omega
    · simp only [update_of_ne hk, State.setLeader]
    · simp [hpc]
  | pop hpc hcons =>
    refine h.leaderMove hi rfl rfl rfl ?_ ?_ ?_ (fun k hk => rfl) h.leader_lt (fun j hj => ?_)
      (fun j hj => ?_)
    · simp [hpc]
    · simp [hpc]
    · simp [hpc]
    · simp only [LeaderPc.holds, hpc, State.setLeader, hcons, List.count_cons, beq_iff_eq]
      omega
    · exact h.follower_lt j (hcons ▸ List.mem_cons_of_mem _ hj)
  | @free f hpc =>
    refine h.leaderMove hi rfl rfl rfl ?_ ?_ ?_ (fun k hk => rfl) h.leader_lt (fun j hj => ?_)
      h.follower_lt
    · simp [hpc]
    · simp [hpc]
    · simp [hpc]
    · by_cases hjf : f = j
      · subst hjf
        simp [hpc]
        omega
      · simp [hpc, hjf, update_of_ne (Ne.symm hjf)]

/-- A step of a follower keeps the lines. -/
theorem Lines.followerStep (h : Lines L F s) (hj : j < F) (hstep : FollowerStep F j s t) :
    Lines L F t := by
  cases hstep with
  | start hpc hfree | back hpc hfree =>
    refine h.followerQuiet hj rfl rfl rfl rfl rfl rfl rfl rfl ?_ ?_ <;>
      simp [hpc, hfree]
  | startOut hpc | backRelease hpc =>
    have hheld := h.followerLock_held' hj (by simp [hpc])
    refine h.followerQuiet hj rfl rfl rfl rfl rfl rfl rfl rfl ?_ ?_ <;>
      simp [hpc, hheld]
  | followerReady hpc | leaderReady hpc | signal hpc | ready hpc | testFull hpc | testSome hpc
  | testNone hpc | full hpc | inLine hpc =>
    refine h.followerQuiet hj rfl rfl rfl rfl rfl rfl rfl rfl ?_ ?_ <;>
      simp [hpc]
  | startIn hpc | append hpc =>
    refine h.followerMove hj rfl rfl rfl rfl rfl rfl ?_ ?_ (fun k hk => ?_) (fun k hk => ?_)
    · simp [hpc]
    · simp only [count_append_singleton, FollowerPc.away, hpc, State.setFollower, if_true]
      omega
    · simp [hk.symm]
    · rcases List.mem_append.mp hk with hk | hk
      · exact h.follower_lt k hk
      · exact List.mem_singleton.mp hk ▸ hj
  | wait hpc hk =>
    refine h.followerMove hj rfl rfl rfl rfl rfl rfl ?_ ?_ (fun k hk => ?_) h.follower_lt
    · simp [hpc]
    · simp only [update_self, FollowerPc.away, hpc, State.setFollower, hk]
      omega
    · simp only [update_of_ne hk, State.setFollower]

/-- A step of the band keeps the lines. -/
theorem Lines.bandStep {b : Bool} (h : Lines L F s) (hstep : BandStep b s t) : Lines L F t := by
  cases hstep with
  | look hpc | timeUp hpc | ready hpc | leaderLineFull hpc | followerLineFull hpc | ended hpc =>
    refine h.bandMove rfl rfl rfl rfl rfl ?_ (fun i hi => ?_) h.leader_lt
    · simp [hpc]
    · simp [hpc]
  | lock hpc hfree =>
    refine h.bandMove rfl rfl rfl rfl rfl ?_ (fun i hi => ?_) h.leader_lt
    · simp [hpc, hfree]
    · simp [hpc]
  | popRelease hpc =>
    have hheld : s.leaderLock = true := by
      have hlock := h.leaderLock
      have := s.leaderLock.toNat_le
      simp only [hpc, BandPc.inLeaderLock] at hlock
      exact Bool.toNat_eq_one.mp (by omega)
    refine h.bandMove rfl rfl rfl rfl rfl ?_ (fun i hi => ?_) h.leader_lt
    · simp [hpc, hheld]
    · simp [hpc]
  | pop hpc hcons =>
    refine h.bandMove rfl rfl rfl rfl rfl ?_ (fun i hi => ?_) fun i hi => ?_
    · simp [hpc]
    · simp only [BandPc.holds, hpc, hcons, List.count_cons, beq_iff_eq]
      omega
    · exact h.leader_lt i (hcons ▸ List.mem_cons_of_mem _ hi)
  | @free _ _ l hpc =>
    refine h.bandMove rfl rfl rfl rfl rfl ?_ (fun i hi => ?_) h.leader_lt
    · simp [hpc]
    · by_cases hil : l = i
      · subst hil
        simp [hpc]
        omega
      · simp [hpc, hil, update_of_ne (Ne.symm hil)]

/-- **One step keeps account of everybody.** -/
theorem Lines.step {a : Act} (h : Lines L F s) (hstep : Step L F s a t) : Lines L F t := by
  cases hstep with
  | leader hi hl => exact h.leaderStep hi hl
  | follower hj hf => exact h.followerStep hj hf
  | band hb => exact h.bandStep hb

theorem lines_init : Lines L F initState := by
  refine ⟨?_, ?_, fun i _ => ?_, by simp [initState], fun j _ => ?_, by simp [initState]⟩ <;>
    simp [initState, tally]

/-- A full line of leaders has all of them. -/
theorem Lines.leader_mem (h : Lines L F s) (hlen : s.leaders.length = L) (hi : i < L) :
    i ∈ s.leaders := by
  refine mem_of_length_eq (fun k hk => ?_) h.leader_lt hlen hi
  have := h.leaderAt k hk
  omega

/-- A full line of followers has all of them. -/
theorem Lines.follower_mem (h : Lines L F s) (hlen : s.followers.length = F) (hj : j < F) :
    j ∈ s.followers := by
  refine mem_of_length_eq (fun k hk => ?_) h.follower_lt hlen hj
  have := h.followerAt k hk
  omega

/-- With all leaders in line none is on the floor. -/
theorem Lines.leader_not_away (h : Lines L F s) (hlen : s.leaders.length = L) (hi : i < L) :
    (s.leader i).away = 0 := by
  have hpos := List.count_pos_iff.mpr (h.leader_mem hlen hi)
  have := h.leaderAt i hi
  omega

/-- With all followers in line none is on the floor. -/
theorem Lines.follower_not_away (h : Lines L F s) (hlen : s.followers.length = F) (hj : j < F) :
    (s.follower j).away = 0 := by
  have hpos := List.count_pos_iff.mpr (h.follower_mem hlen hj)
  have := h.followerAt j hj
  omega

end Lines

/-! ### Lines that have been reported full -/

/-- Nobody leaves a line of which a report that it is full has not been taken. -/
def NoneLeaves (s : State) : Act → Prop
  | .leader i => s.leader i = .pop → s.followerLineFull = 0
  | .band _ => s.band = .pop → s.leaderLineFull = 0
  | .follower _ => True

instance (s : State) : DecidablePred (NoneLeaves s)
  | .leader i => inferInstanceAs (Decidable (s.leader i = .pop → s.followerLineFull = 0))
  | .band _ => inferInstanceAs (Decidable (s.band = .pop → s.leaderLineFull = 0))
  | .follower _ => inferInstanceAs (Decidable True)

/-- **A line that has been reported full is full.** -/
structure Reports (L F : ℕ) (s : State) : Prop where
  leader : ∀ i < L, s.leader i = .full → s.leaders.length = L
  leaderLineFull : 0 < s.leaderLineFull → s.leaders.length = L
  band : s.band = .followerLineFull ∨ s.band = .ended → s.leaders.length = L
  follower : ∀ j < F, s.follower j = .full → s.followers.length = F
  followerLineFull : 0 < s.followerLineFull → s.followers.length = F
  ended : s.band = .ended → s.followers.length = F

section Reports

variable {L F i j : ℕ} {s t : State}

/-- A leader moves and leaves the lines and the reports alone. -/
theorem Reports.leaderQuiet {c : LeaderPc} (h : Reports L F s)
    (hl : t.leader = update s.leader i c) (hf : t.follower = s.follower)
    (hb : t.band = s.band) (hleaders : t.leaders = s.leaders)
    (hfollowers : t.followers = s.followers)
    (hlf : t.leaderLineFull = s.leaderLineFull) (hff : t.followerLineFull = s.followerLineFull)
    (hc : c = .full → s.leaders.length = L) : Reports L F t := by
  refine ⟨fun k hk hpc => ?_, ?_, ?_, ?_, ?_, ?_⟩
  · rw [hleaders]
    rw [hl] at hpc
    rw [update_apply] at hpc
    split_ifs at hpc with hki
    · exact hc hpc
    · exact h.leader k hk hpc
  · rw [hlf, hleaders]
    exact h.leaderLineFull
  · rw [hb, hleaders]
    exact h.band
  · rw [hf, hfollowers]
    exact h.follower
  · rw [hff, hfollowers]
    exact h.followerLineFull
  · rw [hb, hfollowers]
    exact h.ended

/-- While a leader is away, nothing has been reported of its line. -/
theorem Reports.leaders_free (h : Reports L F s) (hne : s.leaders.length ≠ L) :
    (∀ k < L, s.leader k ≠ .full) ∧ s.leaderLineFull = 0 ∧ s.band ≠ .followerLineFull ∧
      s.band ≠ .ended :=
  ⟨fun k hk hpc => hne (h.leader k hk hpc),
    Nat.eq_zero_of_not_pos fun hpos => hne (h.leaderLineFull hpos),
    fun hb => hne (h.band (.inl hb)), fun hb => hne (h.band (.inr hb))⟩

/-- A leader reports a full line when it is the last one back. -/
theorem Reports.leaderStep (h : Reports L F s) (hlines : Lines L F s) (hi : i < L)
    (hstep : LeaderStep L i s t) (hnone : NoneLeaves s (.leader i)) : Reports L F t := by
  cases hstep with
  | testFull hpc hlen => exact h.leaderQuiet rfl rfl rfl rfl rfl rfl rfl fun _ => hlen
  | start hpc | startOut hpc | wait hpc | look hpc | testEmpty hpc | test hpc | goWait hpc
  | inLine hpc | go hpc | popAcquire hpc | popEmpty hpc | popRelease hpc | free hpc
  | leaderReady hpc | followerReady hpc | signal hpc | back hpc | testNotFull hpc
  | backRelease hpc =>
    exact h.leaderQuiet rfl rfl rfl rfl rfl rfl rfl (by simp)
  | startIn hpc | append hpc =>
    -- the leader was away, so the line was not full
    have hne : s.leaders.length ≠ L := fun hlen => by
      have := hlines.leader_not_away hlen hi
      simp [hpc] at this
    obtain ⟨h1, h2, h3, h4⟩ := h.leaders_free hne
    refine ⟨fun k hk hk' => ?_, fun hpos => ?_, fun hb => ?_, h.follower, h.followerLineFull,
      h.ended⟩
    · by_cases hki : k = i
      · subst hki
        simp at hk'
      · simp only [State.setLeader, update_of_ne hki] at hk'
        exact absurd hk' (h1 k hk)
    · exact absurd hpos (by simp [h2])
    · exact (hb.elim h3 h4).elim
  | full hpc =>
    have hlen := h.leader i hi hpc
    refine ⟨fun k hk hk' => hlen, fun _ => hlen, fun _ => hlen, h.follower, h.followerLineFull,
      h.ended⟩
  | pop hpc hcons =>
    have hzero : s.followerLineFull = 0 := hnone hpc
    have haway : s.leaders.length ≠ L := fun hlen => by
      have := hlines.leader_not_away hlen hi
      simp [hpc] at this
    obtain ⟨-, -, -, hband⟩ := h.leaders_free haway
    refine ⟨fun k hk hk' => ?_, h.leaderLineFull, h.band, fun k hk hk' => ?_, fun hpos => ?_,
      fun hb => absurd hb hband⟩
    · by_cases hki : k = i
      · subst hki
        simp at hk'
      · simp only [State.setLeader, update_of_ne hki] at hk'
        exact h.leader k hk hk'
    · -- the follower would hold the lock that the leader holds
      have h1 := hlines.followerLock
      have h2 := le_tally LeaderPc.inFollowerLock s.leader hi
      have h3 := le_tally FollowerPc.inFollowerLock s.follower hk
      have h4 : s.follower k = .full := hk'
      have := s.followerLock.toNat_le
      simp only [hpc, LeaderPc.inFollowerLock] at h2
      simp only [h4, FollowerPc.inFollowerLock] at h3
      omega
    · exact absurd hpos (by simp [hzero])

/-- A follower moves and leaves the lines and the reports alone. -/
theorem Reports.followerQuiet {c : FollowerPc} (h : Reports L F s)
    (hf : t.follower = update s.follower j c) (hl : t.leader = s.leader)
    (hb : t.band = s.band) (hleaders : t.leaders = s.leaders)
    (hfollowers : t.followers = s.followers)
    (hlf : t.leaderLineFull = s.leaderLineFull) (hff : t.followerLineFull = s.followerLineFull)
    (hc : c = .full → s.followers.length = F) : Reports L F t := by
  refine ⟨?_, ?_, ?_, fun k hk hpc => ?_, ?_, ?_⟩
  · rw [hl, hleaders]
    exact h.leader
  · rw [hlf, hleaders]
    exact h.leaderLineFull
  · rw [hb, hleaders]
    exact h.band
  · rw [hfollowers]
    rw [hf] at hpc
    rw [update_apply] at hpc
    split_ifs at hpc with hkj
    · exact hc hpc
    · exact h.follower k hk hpc
  · rw [hff, hfollowers]
    exact h.followerLineFull
  · rw [hb, hfollowers]
    exact h.ended

/-- A follower reports a full line when it is the last one back. -/
theorem Reports.followerStep (h : Reports L F s) (hlines : Lines L F s) (hj : j < F)
    (hstep : FollowerStep F j s t) : Reports L F t := by
  cases hstep with
  | testFull hpc hlen => exact h.followerQuiet rfl rfl rfl rfl rfl rfl rfl fun _ => hlen
  | start hpc | startOut hpc | wait hpc | followerReady hpc | leaderReady hpc | signal hpc
  | ready hpc | back hpc | testSome hpc | testNone hpc | inLine hpc | backRelease hpc =>
    exact h.followerQuiet rfl rfl rfl rfl rfl rfl rfl (by simp)
  | startIn hpc | append hpc =>
    have hne : s.followers.length ≠ F := fun hlen => by
      have := hlines.follower_not_away hlen hj
      simp [hpc] at this
    refine ⟨h.leader, h.leaderLineFull, h.band, fun k hk hk' => ?_, fun hpos => ?_, fun hb => ?_⟩
    · by_cases hkj : k = j
      · subst hkj
        simp at hk'
      · simp only [State.setFollower, update_of_ne hkj] at hk'
        exact absurd (h.follower k hk hk') hne
    · exact absurd (h.followerLineFull hpos) hne
    · exact absurd (h.ended hb) hne
  | full hpc =>
    have hlen := h.follower j hj hpc
    exact ⟨h.leader, h.leaderLineFull, h.band, fun k hk hk' => hlen, fun _ => hlen, fun _ => hlen⟩

/-- The band releases a leader only while no report about its line is there. -/
theorem Reports.bandStep {b : Bool} (h : Reports L F s) (hlines : Lines L F s)
    (hstep : BandStep b s t) (hnone : NoneLeaves s (.band b)) : Reports L F t := by
  cases hstep with
  | look hpc | timeUp hpc | lock hpc | ready hpc | popRelease hpc | free hpc | ended hpc =>
    exact ⟨h.leader, h.leaderLineFull, by simp, h.follower, h.followerLineFull, by simp⟩
  | leaderLineFull hpc hk =>
    have hlen := h.leaderLineFull (by omega)
    exact ⟨h.leader, fun _ => hlen, fun _ => hlen, h.follower, h.followerLineFull, by simp⟩
  | followerLineFull hpc hk =>
    have hlen := h.followerLineFull (by omega)
    exact ⟨h.leader, h.leaderLineFull, fun _ => h.band (.inl hpc), h.follower, fun _ => hlen,
      fun _ => hlen⟩
  | pop hpc hcons =>
    have hzero : s.leaderLineFull = 0 := hnone hpc
    refine ⟨fun k hk hk' => ?_, fun hpos => absurd hpos (by simp [hzero]), by simp, h.follower,
      h.followerLineFull, by simp⟩
    -- the leader would hold the lock that the band holds
    have h1 := hlines.leaderLock
    have h2 := le_tally LeaderPc.inLeaderLock s.leader hk
    have h3 : s.leader k = .full := hk'
    have := s.leaderLock.toNat_le
    simp only [hpc, BandPc.inLeaderLock] at h1
    simp only [h3, LeaderPc.inLeaderLock] at h2
    omega

/-- The reports along a run in which nobody leaves a line that has been reported full. -/
theorem reports_reachable (hreach : ((system L F).restrict NoneLeaves).Reachable s) :
    Lines L F s ∧ Reports L F s := by
  refine hreach.invariant (I := fun s => Lines L F s ∧ Reports L F s) ?_ ?_
  · rintro _ rfl
    exact ⟨lines_init, by simp [initState], by simp [initState], by simp [initState],
      by simp [initState], by simp [initState], by simp [initState]⟩
  · rintro s a t ⟨hlines, hrep⟩ ⟨hstep, hnone⟩
    refine ⟨hlines.step hstep, ?_⟩
    cases hstep with
    | leader hi hl => exact hrep.leaderStep hlines hi hl hnone
    | follower hj hf => exact hrep.followerStep hlines hj hf
    | band hb => exact hrep.bandStep hlines hb hnone

/-- **The band stops only when everybody is back.** In every run in which nobody leaves a line of
which a report that it is full has not been taken, when the band is past both semaphores all
leaders and all followers are in line. -/
theorem all_back (hreach : ((system L F).restrict NoneLeaves).Reachable s)
    (hended : s.band = .ended) : (∀ i < L, i ∈ s.leaders) ∧ ∀ j < F, j ∈ s.followers := by
  obtain ⟨hlines, hrep⟩ := reports_reachable hreach
  exact ⟨fun i hi => hlines.leader_mem (hrep.band (.inr hended)) hi,
    fun j hj => hlines.follower_mem (hrep.ended hended) hj⟩

/-- The lines at work: a leader and a follower dance once, and the band stops with both in line. -/
theorem all_back_one : ∃ s, ((system 1 1).restrict NoneLeaves).Reachable s ∧ s.band = .ended ∧
    0 ∈ s.leaders ∧ 0 ∈ s.followers := by
  have hrun : ((starts 1 1 ++ dance 0 0 ++ lineUp 0 0 ++ stops).foldlM
      (nextWhen 1 1 NoneLeaves) initState).map State.band = some .ended := by decide +kernel
  obtain ⟨s, hs, hended⟩ := Option.map_eq_some_iff.mp hrun
  have hreach := reachable_of_run hs
  obtain ⟨hl, hf⟩ := all_back hreach hended
  exact ⟨s, hreach, hended, hl 0 (by decide), hf 0 (by decide)⟩

/-- **Reports are left over.** A leader and a follower dance and go back in line; the band releases
the leader once more, and when the song is over it takes the reports of the first dance. -/
theorem band_stops_early : ∃ s, (system 1 1).Reachable s ∧ s.band = .ended ∧ s.leaders = [] := by
  have hrun : ((starts 1 1 ++ dance 0 0 ++ lineUp 0 0 ++ calls ++ stops).foldlM
      (nextWhen 1 1 fun _ _ => True) initState).map (fun s => (s.band, s.leaders)) =
      some (.ended, []) := by decide +kernel
  obtain ⟨s, hs, hended⟩ := Option.map_eq_some_iff.mp hrun
  obtain ⟨h1, h2⟩ := Prod.mk.inj hended
  exact ⟨s, (reachable_of_run hs).mono, h1, h2⟩

end Reports

end Xv6.DanceMixer
