import Mathlib
import Xv6.Transition

/-!
# Burst Recording

Every valid system call ends a burst of its process and starts the next one: `syscall` calls
`sys_end_burst`, the function of the call, and `sys_start_burst`. The length of a burst is stored
in `burstarr`, at an index that `sys_start_burst` advances and sets back to 0 when it is past 100.
The array has 100 elements, so the index 100 is one too far: it is the index itself, the next
field of `struct proc`. The two functions are system calls too, and then run twice.

The memory from `burstarr` on is one array of words, as the compiler lays it out, so that a store
at any index has its place.

## Main results

* `recorded_step`: one of the first hundred calls.
* `burst_ring`: **bursts are stored in order in the array**, for the first hundred calls other than
  the two.
* `burst_past_ring`: the call after those stores past the array.
-/

open Transition

namespace Xv6.Burst

/-- `MAX_NUM_BURSTS` (`proc.h`). -/
def MAX_NUM_BURSTS : ℕ := 100

/-- The offsets of the fields of `struct proc` that follow `burstarr`, in words from its start. -/
def burstIdx : ℕ := MAX_NUM_BURSTS

/-- The offset of `sburst`. -/
def sburst : ℕ := burstIdx + 1

/-- The offset of `initial_burst`. -/
def initialBurst : ℕ := sburst + 1

/-- The offset of `turnaround`. -/
def turnaround : ℕ := initialBurst + 1

/-- A process, as far as bursts are concerned, with ghost state. -/
structure State where
  /-- the words of memory from `burstarr` on -/
  word : ℕ → BitVec 32
  /-- the process has not called `exit` -/
  alive : Bool
  /-- ghost: the lengths of the bursts that have ended, latest first -/
  done : List (BitVec 32)
  /-- ghost: the indices of the stores to `burstarr` by `sys_end_burst`, latest first -/
  stores : List ℕ
  /-- ghost: the number of valid system calls since `allocproc` -/
  calls : ℕ

/-- Store a word. -/
def State.set (s : State) (o : ℕ) (v : BitVec 32) : State :=
  { s with word := Function.update s.word o v }

/-- `sys_start_burst()`, when `sys_uptime()` is `now`. -/
def sysStartBurst (now : BitVec 32) (s : State) : State :=
  let s := s.set sburst now
  let s := s.set burstIdx (s.word burstIdx + 1)
  if 100 < (s.word burstIdx).toNat then s.set burstIdx 0 else s

/-- `sys_end_burst()`, when `sys_uptime()` is `now`. Addresses have 32 bits, which makes for
`2 ^ 30` words. -/
def sysEndBurst (now : BitVec 32) (s : State) : State :=
  let burst := now - s.word sburst
  { s.set ((s.word burstIdx).toNat % 2 ^ 30) burst with
    done := burst :: s.done
    stores := (s.word burstIdx).toNat :: s.stores }

/-- `sys_print_bursts()`, less its output. -/
def sysPrintBursts (now : BitVec 32) (s : State) : State :=
  s.set turnaround (now - s.word initialBurst)

/-- The system calls, by what they do to bursts. -/
inductive Call
  | startBurst
  | endBurst
  | printBursts
  /-- `exit`, which does not return -/
  | exit
  | other
  deriving DecidableEq, Repr

/-- `syscall()` for a valid number; `t₁`, `t₂` and `t₃` are the values of `sys_uptime()` at the end
of the burst, in the function of the call and at the start of the next burst. -/
def syscall (c : Call) (t₁ t₂ t₃ : BitVec 32) (s : State) : State :=
  let s := { sysEndBurst t₁ s with calls := s.calls + 1 }
  match c with
  | .startBurst => sysStartBurst t₃ (sysStartBurst t₂ s)
  | .endBurst => sysStartBurst t₃ (sysEndBurst t₂ s)
  | .printBursts => sysStartBurst t₃ (sysPrintBursts t₂ s)
  | .exit => { s with alive := false }
  | .other => sysStartBurst t₃ s

/-- The runs of a process from the state that `allocproc` leaves. -/
def system : System State Call where
  init s := s.word burstIdx = 0 ∧ s.word sburst = s.word initialBurst ∧
    (∀ j < MAX_NUM_BURSTS, s.word j = 0) ∧ s.alive = true ∧
    s.done = [] ∧ s.stores = [] ∧ s.calls = 0
  step s c t := s.alive = true ∧ ∃ t₁ t₂ t₃, t = syscall c t₁ t₂ t₃ s

/-- The call is one of the first hundred of the process, and not one of the two functions. -/
def EarlyCall (s : State) (c : Call) : Prop :=
  s.calls < MAX_NUM_BURSTS ∧ c ≠ .startBurst ∧ c ≠ .endBurst

section Run

variable {s : State}

@[simp] theorem set_word {o o' : ℕ} {v : BitVec 32} :
    (s.set o v).word o' = if o' = o then v else s.word o' :=
  Function.update_apply ..

/-! ### The two functions -/

/-- **`sys_start_burst`** at an index in the array. -/
theorem sysStartBurst_word (now : BitVec 32)
    (h : (s.word burstIdx).toNat < MAX_NUM_BURSTS) (o : ℕ) :
    (sysStartBurst now s).word o =
      if o = burstIdx then s.word burstIdx + 1 else if o = sburst then now else s.word o := by
  have hne : burstIdx ≠ sburst := by decide
  have hadd : (s.word burstIdx + 1).toNat = (s.word burstIdx).toNat + 1 := by
    simp only [MAX_NUM_BURSTS] at h
    rw [BitVec.toNat_add]
    simp
    omega
  have hle : ¬ 100 < (s.word burstIdx + 1).toNat := by
    rw [hadd]
    exact Nat.not_lt.mpr h
  simp only [sysStartBurst, set_word, if_neg hne, if_true, if_neg hle]

/-- **`sys_end_burst`** at an index in the array changes that element only. -/
theorem sysEndBurst_word (now : BitVec 32) (h : (s.word burstIdx).toNat < MAX_NUM_BURSTS) (o : ℕ) :
    (sysEndBurst now s).word o =
      if o = (s.word burstIdx).toNat then now - s.word sburst else s.word o := by
  have hmod : (s.word burstIdx).toNat % 2 ^ 30 = (s.word burstIdx).toNat := by
    refine Nat.mod_eq_of_lt (Nat.lt_trans h ?_)
    decide
  change (s.set _ _).word o = _
  rw [set_word, hmod]

/-- The words past the array are not touched. -/
theorem sysEndBurst_field (now : BitVec 32) (h : (s.word burstIdx).toNat < MAX_NUM_BURSTS) {o : ℕ}
    (ho : MAX_NUM_BURSTS ≤ o) : (sysEndBurst now s).word o = s.word o := by
  rw [sysEndBurst_word now h, if_neg (by omega)]

/-! ### Runs -/

/-- The bursts so far are in the array, in order from its start. -/
structure Recorded (s : State) : Prop where
  le : s.done.length ≤ MAX_NUM_BURSTS
  calls : s.calls = s.done.length
  /-- `exit` does not get to `sys_start_burst` -/
  idx : (s.word burstIdx).toNat + (!s.alive).toNat = s.done.length
  ring : ∀ j < s.done.length, s.word j = s.done.getD (s.done.length - 1 - j) 0
  stores : ∀ i ∈ s.stores, i < MAX_NUM_BURSTS

theorem Recorded.idx_of_alive (h : Recorded s) (halive : s.alive = true) :
    (s.word burstIdx).toNat = s.done.length := by
  simpa [halive] using h.idx

/-- In an early call the index is in the array. -/
theorem Recorded.idx_lt (h : Recorded s) (hlt : s.calls < MAX_NUM_BURSTS) :
    (s.word burstIdx).toNat < MAX_NUM_BURSTS := by
  have h1 := h.idx
  have h2 := h.calls
  omega

/-- The store of `sys_end_burst`. -/
theorem Recorded.sysEndBurst (h : Recorded s) (now : BitVec 32) (halive : s.alive = true)
    (hlt : (s.word burstIdx).toNat < MAX_NUM_BURSTS) :
    (∀ j ≤ s.done.length, (sysEndBurst now s).word j =
        (sysEndBurst now s).done.getD (s.done.length - j) 0) ∧
      ∀ i ∈ (sysEndBurst now s).stores, i < MAX_NUM_BURSTS := by
  have hidx := h.idx_of_alive halive
  refine ⟨fun j hj => ?_, List.forall_mem_cons.mpr ⟨hlt, h.stores⟩⟩
  rw [sysEndBurst_word now hlt, hidx]
  change _ = ((now - s.word sburst) :: s.done).getD _ 0
  split_ifs with heq
  · rw [heq, Nat.sub_self, List.getD_cons_zero]
  · obtain ⟨m, hm⟩ : ∃ m, s.done.length - j = m + 1 := ⟨s.done.length - j - 1, by omega⟩
    rw [hm, List.getD_cons_succ, h.ring j (by omega)]
    congr 1
    omega

/-- The start of the next burst, after code that has left the array and its index alone. -/
theorem Recorded.sysStartBurst {u : State} (h : Recorded s) (now : BitVec 32)
    (halive : s.alive = true)
    (hlt : (s.word burstIdx).toNat < MAX_NUM_BURSTS)
    (hword : ∀ o ≤ burstIdx, u.word o = (Burst.sysEndBurst now s).word o)
    (hu : u.done = (Burst.sysEndBurst now s).done ∧
      u.stores = (Burst.sysEndBurst now s).stores ∧ u.calls = s.calls + 1 ∧ u.alive = true)
    (t : BitVec 32) : Recorded (Burst.sysStartBurst t u) := by
  obtain ⟨hring, hstores⟩ := h.sysEndBurst now halive hlt
  have hidx := h.idx_of_alive halive
  have hcalls := h.calls
  have hsame : u.word burstIdx = s.word burstIdx := by
    rw [hword burstIdx (Nat.le_refl _)]
    exact sysEndBurst_field now hlt (Nat.le_refl _)
  have hw := sysStartBurst_word t (hsame ▸ hlt)
  obtain ⟨hdone, hst, hc, ha⟩ : (Burst.sysStartBurst t u).done = (Burst.sysEndBurst now s).done ∧
      (Burst.sysStartBurst t u).stores = (Burst.sysEndBurst now s).stores ∧
      (Burst.sysStartBurst t u).calls = s.calls + 1 ∧
      (Burst.sysStartBurst t u).alive = true := by
    simp only [Burst.sysStartBurst]
    split_ifs <;> exact hu
  have hlen : (Burst.sysEndBurst now s).done.length = s.done.length + 1 := rfl
  refine ⟨by rw [hdone]; omega, by rw [hc, hdone]; omega, ?_, fun j hj => ?_, hst ▸ hstores⟩
  · rw [hw, if_pos rfl, hsame, hdone, hlen, ha, ← hidx, BitVec.toNat_add]
    simp only [MAX_NUM_BURSTS] at hlt
    simp
    omega
  · rw [hdone, hlen] at hj ⊢
    have h1 : j ≠ burstIdx := by simp only [burstIdx]; omega
    have h2 : j ≠ sburst := by simp only [sburst, burstIdx]; omega
    rw [hw, if_neg h1, if_neg h2, hword j (by simp only [burstIdx]; omega), hring j (by omega)]
    congr 1

/-- **One of the first hundred calls keeps the record.** -/
theorem recorded_step {c : Call} {t₁ t₂ t₃ : BitVec 32} (h : Recorded s) (halive : s.alive = true)
    (hin : EarlyCall s c) : Recorded (syscall c t₁ t₂ t₃ s) := by
  obtain ⟨hearly, hstart, hend⟩ := hin
  have hlt := h.idx_lt hearly
  cases c with
  | startBurst => exact absurd rfl hstart
  | endBurst => exact absurd rfl hend
  | printBursts =>
    refine h.sysStartBurst t₁ (u := sysPrintBursts t₂ { sysEndBurst t₁ s with
      calls := s.calls + 1 }) halive hlt (fun o ho => ?_) ⟨rfl, rfl, rfl, halive⟩ t₃
    rw [sysPrintBursts, set_word, if_neg]
    simp only [turnaround, initialBurst, sburst]
    omega
  | exit =>
    obtain ⟨hring, hstores⟩ := h.sysEndBurst t₁ halive hlt
    have hidx := h.idx_of_alive halive
    have hlen : (sysEndBurst t₁ s).done.length = s.done.length + 1 := rfl
    have hcalls := h.calls
    refine ⟨?_, ?_, ?_, fun j hj => ?_, hstores⟩
    · change (sysEndBurst t₁ s).done.length ≤ _
      omega
    · change s.calls + 1 = (sysEndBurst t₁ s).done.length
      omega
    · change ((sysEndBurst t₁ s).word burstIdx).toNat + 1 = (sysEndBurst t₁ s).done.length
      rw [sysEndBurst_field t₁ hlt (Nat.le_refl burstIdx)]
      omega
    · change j < (sysEndBurst t₁ s).done.length at hj
      exact hring j (by omega)
  | other =>
    exact h.sysStartBurst t₁ (u := { sysEndBurst t₁ s with calls := s.calls + 1 }) halive hlt
      (fun _ _ => rfl) ⟨rfl, rfl, rfl, halive⟩ t₃

theorem recorded_init (h : system.init s) : Recorded s := by
  obtain ⟨h1, -, -, h4, h5, h6, h7⟩ := h
  exact ⟨by simp [h5], by simp [h5, h7], by simp [h1, h4, h5], by simp [h5], by simp [h6]⟩

/-- The bursts in every reachable state of such a run. -/
theorem recorded_reachable (hreach : (system.restrict EarlyCall).Reachable s) : Recorded s := by
  refine hreach.invariant (I := Recorded) ?_ ?_
  · exact fun s h => recorded_init h
  · rintro s c _ h ⟨⟨halive, t₁, t₂, t₃, rfl⟩, hin⟩
    exact recorded_step h halive hin

/-- **Bursts are recorded in the ring.** In every run of a process with at most a hundred calls,
none of them the two functions themselves, every store is at an index in the array and leaves the
words past it alone, and the array holds the lengths of the last bursts at consecutive cyclic
positions. -/
theorem burst_ring (hreach : (system.restrict EarlyCall).Reachable s) :
    (∀ i ∈ s.stores, i < MAX_NUM_BURSTS) ∧
    (∀ c, EarlyCall s c → ∀ now o, MAX_NUM_BURSTS ≤ o → (sysEndBurst now s).word o = s.word o) ∧
    ∃ p, ∀ j < min s.done.length MAX_NUM_BURSTS, s.word ((p + j) % MAX_NUM_BURSTS) =
      s.done.getD (min s.done.length MAX_NUM_BURSTS - 1 - j) 0 := by
  have h := recorded_reachable hreach
  refine ⟨h.stores, fun c hin now o ho => sysEndBurst_field now (h.idx_lt hin.1) ho, 0,
    fun j hj => ?_⟩
  rw [Nat.min_eq_left h.le] at hj ⊢
  rw [Nat.zero_add, Nat.mod_eq_of_lt (Nat.lt_of_lt_of_le hj h.le), h.ring j hj]

end Run

/-! ### A hundred calls -/

/-- The state of a process that `allocproc` has made at time 0. -/
def fresh : State := ⟨fun _ => 0, true, [], [], 0⟩

theorem init_fresh : system.init fresh := ⟨rfl, rfl, fun _ _ => rfl, rfl, rfl, rfl, rfl⟩

/-- A process can make a hundred calls. -/
theorem exists_calls {k : ℕ} (hk : k ≤ MAX_NUM_BURSTS) : ∃ s : State,
    (system.restrict EarlyCall).Reachable s ∧ s.alive = true ∧ s.done.length = k := by
  induction k with
  | zero => exact ⟨fresh, .init init_fresh, rfl, rfl⟩
  | succ k ih =>
    obtain ⟨s, hreach, halive, hlen⟩ := ih (Nat.le_of_succ_le hk)
    have hcalls := (recorded_reachable hreach).calls
    refine ⟨syscall .other 0 0 0 s, hreach.step ⟨⟨halive, 0, 0, 0, rfl⟩, ?_, nofun, nofun⟩, ?_, ?_⟩
    · omega
    · simp only [syscall, sysStartBurst]
      split_ifs <;> exact halive
    · rw [← hlen]
      simp only [syscall, sysStartBurst]
      split_ifs <;> rfl

/-- The record at work: the burst before the first call is the first element. -/
theorem burst_ring_first : ∃ s : State, (system.restrict EarlyCall).Reachable s ∧ s.done = [7] ∧
    s.stores = [0] ∧ 0 < MAX_NUM_BURSTS ∧ s.word 0 = 7 := by
  have hstep : (system.restrict EarlyCall).step fresh .other (syscall .other 7 0 9 fresh) :=
    ⟨⟨rfl, 7, 0, 9, rfl⟩, by decide, nofun, nofun⟩
  have hreach : (system.restrict EarlyCall).Reachable (syscall .other 7 0 9 fresh) :=
    .step (.init init_fresh) hstep
  have hstores := (burst_ring hreach).1 0 (by decide)
  exact ⟨_, hreach, by decide, by decide, hstores, by decide⟩

/-- **The index goes one too far.** The call after the first hundred stores its burst past the
array, into the index. -/
theorem burst_past_ring : ∃ s : State, system.Reachable s ∧ MAX_NUM_BURSTS ∈ s.stores ∧
    ∃ u : State, system.Reachable u ∧
      ∃ now, (sysEndBurst now u).word burstIdx ≠ u.word burstIdx := by
  obtain ⟨s, hreach, halive, hlen⟩ := exists_calls (Nat.le_refl MAX_NUM_BURSTS)
  have hidx : (s.word burstIdx).toNat = MAX_NUM_BURSTS :=
    ((recorded_reachable hreach).idx_of_alive halive).trans hlen
  refine ⟨syscall .exit 0 0 0 s, hreach.mono.step ⟨halive, 0, 0, 0, rfl⟩, ?_, s, hreach.mono,
    s.word sburst, ?_⟩
  · exact hidx ▸ List.mem_cons_self
  · have hword : (sysEndBurst (s.word sburst) s).word burstIdx = 0 := by
      change (s.set _ _).word burstIdx = 0
      rw [hidx, set_word, if_pos (by decide), BitVec.sub_self]
      rfl
    rw [hword]
    intro h0
    rw [← h0] at hidx
    exact absurd hidx (by decide)

end Xv6.Burst
