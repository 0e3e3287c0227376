import Mathlib
import Xv6.Transition

/-!
# Thread Mutexes

`mtx_create`, `mtx_lock` and `mtx_unlock` of `sysproc.c`, called by any number of threads: a
table of lock words, exchanged atomically by `xchg`, and a counter `nextLockId` for the next
free one. The counter is an ordinary variable that no lock protects, so `nextLockId++` is a read
and a later write; every `xchg` is one step.

The calls do not look at their argument, and `mtx_create` does not look at the counter, so the
index of an access is whatever it is. What lies around the table in memory is not modelled: a
word outside the table is a word like the others, and the indices that were used are recorded.

## Main results

* `ids_step`: with one `nextLockId++` at a time, and identifiers left, identifiers are new.
* `mutual_exclusion`: **at most one thread holds a mutex**, if creations do not race.
* `mutex_ids_in_table`: **every access is in the table**, if also the arguments are.
* `creations_race`: two threads that create mutexes at the same time hold the same one.
-/

open Transition
open Function (update update_apply update_of_ne update_self)

namespace Xv6.Mutex

/-- `MAX_NUM_LOCKS` (`proc.c`). -/
def MAX_NUM_LOCKS : ℕ := 100

/-- Where a thread stands. -/
inductive Pc
  /-- outside of the three calls -/
  | user
  /-- in `mtx_create(locked)`, which has read `lockId` from `nextLockId` -/
  | creating (locked lockId : BitVec 32)
  /-- in `mtx_create(locked)`, which has written `nextLockId` -/
  | created (locked lockId : BitVec 32)
  /-- in the loop of `mtx_lock(lockId)` -/
  | locking (lockId : BitVec 32)
  /-- in `mtx_unlock(lockId)` -/
  | unlocking (lockId : BitVec 32)
  deriving DecidableEq, Repr

/-- The variables of the three calls, with ghost state. Threads are numbers. -/
structure State where
  nextLockId : BitVec 32
  /-- `thread_locks[lockId].locked` -/
  locked : BitVec 32 → BitVec 32
  pc : ℕ → Pc
  /-- ghost: the thread is past `mtx_lock(lockId)` and not yet past `mtx_unlock(lockId)` -/
  holds : ℕ → BitVec 32 → Bool
  /-- ghost: the arguments and results of `mtx_create`, latest first -/
  made : List (BitVec 32 × BitVec 32)
  /-- ghost: the indices used in accesses to `thread_locks`, latest first -/
  accesses : List (BitVec 32)

namespace State

/-- Change where a thread stands. -/
def setPc (s : State) (t : ℕ) (c : Pc) : State := { s with pc := update s.pc t c }

/-- `xchg(&(thread_locks[lockId].locked), v)`. -/
def xchg (s : State) (lockId v : BitVec 32) : State :=
  { s with
    locked := update s.locked lockId v
    accesses := lockId :: s.accesses }

/-- The thread is now past `mtx_lock(lockId)`, or no longer. -/
def setHolds (s : State) (t : ℕ) (lockId : BitVec 32) (b : Bool) : State :=
  { s with holds := fun t' i => if t' = t ∧ i = lockId then b else s.holds t' i }

end State

/-- The steps of a thread. -/
inductive Act
  /-- the call `mtx_create(locked)`, up to the read of `nextLockId` -/
  | create (t : ℕ) (locked : BitVec 32)
  /-- the write of `nextLockId` -/
  | storeNext (t : ℕ)
  /-- the `xchg` of `mtx_create`, and its return -/
  | initLock (t : ℕ)
  /-- the call `mtx_lock(lockId)` -/
  | lock (t : ℕ) (lockId : BitVec 32)
  /-- an `xchg` of the loop of `mtx_lock`, and its return if it has seen zero -/
  | tryLock (t : ℕ)
  /-- the call `mtx_unlock(lockId)` -/
  | unlock (t : ℕ) (lockId : BitVec 32)
  /-- the `xchg` of `mtx_unlock`, and its return -/
  | clear (t : ℕ)
  deriving DecidableEq, Repr

/-- What the steps do. -/
inductive Step : State → Act → State → Prop
  | create {s t v} : s.pc t = .user →
      Step s (.create t v) (s.setPc t (.creating v s.nextLockId))
  | storeNext {s t v i} : s.pc t = .creating v i →
      Step s (.storeNext t) { s.setPc t (.created v i) with nextLockId := i + 1 }
  | initLock {s t v i} : s.pc t = .created v i →
      Step s (.initLock t) { (s.xchg i v).setPc t .user with made := (v, i) :: s.made }
  | lock {s t i} : s.pc t = .user → Step s (.lock t i) (s.setPc t (.locking i))
  | spin {s t i} : s.pc t = .locking i → s.locked i ≠ 0 → Step s (.tryLock t) (s.xchg i 1)
  | acquire {s t i} : s.pc t = .locking i → s.locked i = 0 →
      Step s (.tryLock t) (((s.xchg i 1).setPc t .user).setHolds t i true)
  | unlock {s t i} : s.pc t = .user → Step s (.unlock t i) (s.setPc t (.unlocking i))
  | clear {s t i} : s.pc t = .unlocking i →
      Step s (.clear t) (((s.xchg i 0).setPc t .user).setHolds t i false)

/-- The state after boot. -/
def initState : State := ⟨1, fun _ => 0, fun _ => .user, fun _ _ => false, [], []⟩

/-- The runs of the three calls. -/
def system : System State Act where
  init s := s = initState
  step := Step

/-! ### Conditions on the calls -/

/-- A creation starts while no other thread is between its read and its write of `nextLockId`, and
while there is an identifier left. -/
def Serial (s : State) : Act → Prop
  | .create _ _ => (∀ t v i, s.pc t ≠ .creating v i) ∧ s.nextLockId.toNat < MAX_NUM_LOCKS
  | _ => True

/-- Threads lock mutexes that `mtx_create(0)` has returned, and unlock those that they hold. -/
def Client (s : State) : Act → Prop
  | .lock _ i => (0, i) ∈ s.made
  | .unlock t i => s.holds t i = true
  | _ => True

/-- An index of the table. -/
def InTable (i : BitVec 32) : Prop := 0 ≤ i.toInt ∧ i.toInt < MAX_NUM_LOCKS

instance : DecidablePred InTable := fun i =>
  inferInstanceAs (Decidable (0 ≤ i.toInt ∧ i.toInt < MAX_NUM_LOCKS))

/-- The arguments of `mtx_lock` and `mtx_unlock` are indices of the table. -/
def InRange : Act → Prop
  | .lock _ i => InTable i
  | .unlock _ i => InTable i
  | _ => True

theorem inTable_iff {i : BitVec 32} : InTable i ↔ i.toNat < MAX_NUM_LOCKS := by
  simp only [InTable, MAX_NUM_LOCKS, BitVec.toInt_eq_toNat_cond]
  split_ifs <;> omega

/-! ### Identifiers -/

section Invariants

variable {s u : State} {a : Act}

variable {c : Pc} {t t' : ℕ} {v i : BitVec 32}

theorem setPc_pc : (s.setPc t c).pc t' = if t' = t then c else s.pc t' :=
  update_apply ..

/-- A thread that returns from its call leaves the others where they are. -/
theorem pc_of_setPc_user (ht : (s.setPc t .user).pc t' = c) (hc : c ≠ .user) :
    t' ≠ t ∧ s.pc t' = c := by
  rw [setPc_pc] at ht
  split_ifs at ht with heq
  · exact absurd ht.symm hc
  · exact ⟨heq, ht⟩

/-- Identifiers are new: those returned are distinct and below the counter, and so are those of
the creations that have written the counter. -/
structure Ids (s : State) : Prop where
  pos : 0 < s.nextLockId.toNat
  le : s.nextLockId.toNat ≤ MAX_NUM_LOCKS
  /-- the creation that is to write the counter has read its value -/
  creating : ∀ t v i, s.pc t = .creating v i → i = s.nextLockId ∧ i.toNat < MAX_NUM_LOCKS
  one : ∀ t t' v v' i i', s.pc t = .creating v i → s.pc t' = .creating v' i' → t = t'
  created : ∀ t v i, s.pc t = .created v i →
    i.toNat < s.nextLockId.toNat ∧ i ∉ s.made.map Prod.snd
  created_inj : ∀ t t' v v' i, s.pc t = .created v i → s.pc t' = .created v' i → t = t'
  made : ∀ i ∈ s.made.map Prod.snd, i.toNat < s.nextLockId.toNat
  nodup : (s.made.map Prod.snd).Nodup

/-- Identifiers do not change when no creation goes on. -/
theorem Ids.of_same (h : Ids s) (hnext : u.nextLockId = s.nextLockId) (hmade : u.made = s.made)
    (hcreating : ∀ t v i, u.pc t = .creating v i → s.pc t = .creating v i)
    (hcreated : ∀ t v i, u.pc t = .created v i → s.pc t = .created v i) : Ids u where
  pos := hnext ▸ h.pos
  le := hnext ▸ h.le
  creating t v i ht := hnext ▸ h.creating t v i (hcreating t v i ht)
  one t t' v v' i i' ht ht' := h.one t t' v v' i i' (hcreating _ _ _ ht) (hcreating _ _ _ ht')
  created t v i ht := hnext ▸ hmade ▸ h.created t v i (hcreated t v i ht)
  created_inj t t' v v' i ht ht' :=
    h.created_inj t t' v v' i (hcreated _ _ _ ht) (hcreated _ _ _ ht')
  made := hnext ▸ hmade ▸ h.made
  nodup := hmade ▸ h.nodup

/-- A thread that goes to a place outside of `mtx_create`. -/
theorem Ids.setPc_outside (hcreating : ∀ v i, c ≠ .creating v i)
    (hcreated : ∀ v i, c ≠ .created v i) (h : Ids s) : Ids (s.setPc t c) := by
  refine h.of_same rfl rfl (fun t' v i ht => ?_) fun t' v i ht => ?_
  · rw [setPc_pc] at ht
    split_ifs at ht
    · exact absurd ht (hcreating v i)
    · exact ht
  · rw [setPc_pc] at ht
    split_ifs at ht
    · exact absurd ht (hcreated v i)
    · exact ht

theorem Ids.xchg (h : Ids s) (i v : BitVec 32) : Ids (s.xchg i v) :=
  h.of_same rfl rfl (fun _ _ _ => id) fun _ _ _ => id

theorem Ids.setHolds (h : Ids s) (t : ℕ) (i : BitVec 32) (b : Bool) : Ids (s.setHolds t i b) :=
  h.of_same rfl rfl (fun _ _ _ => id) fun _ _ _ => id

/-- The read of the counter. -/
theorem Ids.create (h : Ids s) (hs : Serial s (.create t v)) :
    Ids (s.setPc t (.creating v s.nextLockId)) := by
  obtain ⟨hnone, hlt⟩ := hs
  have hold {t' v' i'} (ht : (s.setPc t (.creating v s.nextLockId)).pc t' = .creating v' i') :
      t' = t ∧ i' = s.nextLockId := by
    rw [setPc_pc] at ht
    split_ifs at ht with heq
    · cases ht
      exact ⟨heq, rfl⟩
    · exact absurd ht (hnone t' v' i')
  have hcreated {t' v' i'} (ht : (s.setPc t (.creating v s.nextLockId)).pc t' = .created v' i') :
      s.pc t' = .created v' i' := by
    rw [setPc_pc] at ht
    split_ifs at ht
    exact ht
  refine { h with creating := fun t' v' i' ht => ?_, one := ?_, created := ?_, created_inj := ?_ }
  · obtain ⟨-, rfl⟩ := hold ht
    exact ⟨rfl, hlt⟩
  · exact fun t₁ t₂ v₁ v₂ i₁ i₂ h₁ h₂ => (hold h₁).1.trans (hold h₂).1.symm
  · exact fun t' v' i' ht => h.created t' v' i' (hcreated ht)
  · exact fun t₁ t₂ v₁ v₂ i' h₁ h₂ => h.created_inj t₁ t₂ v₁ v₂ i' (hcreated h₁) (hcreated h₂)

/-- The write of the counter. -/
theorem Ids.storeNext (h : Ids s) (hpc : s.pc t = .creating v i) :
    Ids { s.setPc t (.created v i) with nextLockId := i + 1 } := by
  obtain ⟨rfl, hlt⟩ := h.creating t v i hpc
  have hnext : (s.nextLockId + 1).toNat = s.nextLockId.toNat + 1 := by
    simp only [MAX_NUM_LOCKS] at hlt
    rw [BitVec.toNat_add]
    simp
    omega
  -- no other creation is about to write the counter
  have hother {t' v' i'} (ht : (s.setPc t (.created v s.nextLockId)).pc t' = .creating v' i') :
      False := by
    rw [setPc_pc] at ht
    split_ifs at ht with heq
    exact heq (h.one t' t v' v i' s.nextLockId ht hpc)
  have hcreated {t' v' i'} (ht : (s.setPc t (.created v s.nextLockId)).pc t' = .created v' i') :
      t' = t ∧ i' = s.nextLockId ∨ t' ≠ t ∧ s.pc t' = .created v' i' := by
    rw [setPc_pc] at ht
    split_ifs at ht with heq
    · cases ht
      exact .inl ⟨heq, rfl⟩
    · exact .inr ⟨heq, ht⟩
  refine ⟨?_, ?_, fun t' v' i' ht => (hother ht).elim, fun _ _ _ _ _ _ ht => (hother ht).elim,
    fun t' v' i' ht => ?_, fun t₁ t₂ v₁ v₂ i' h₁ h₂ => ?_, fun i' hi' => ?_, h.nodup⟩
  · exact hnext ▸ Nat.succ_pos _
  · exact hnext ▸ hlt
  · change i'.toNat < (s.nextLockId + 1).toNat ∧ _
    rw [hnext]
    rcases hcreated ht with ⟨-, rfl⟩ | ⟨-, ht⟩
    · exact ⟨Nat.lt_succ_self _, fun hmem => Nat.lt_irrefl _ (h.made _ hmem)⟩
    · exact ⟨Nat.lt_succ_of_lt (h.created t' v' i' ht).1, (h.created t' v' i' ht).2⟩
  · rcases hcreated h₁ with ⟨e₁, hi⟩ | ⟨-, g₁⟩ <;> rcases hcreated h₂ with ⟨e₂, hi'⟩ | ⟨-, g₂⟩
    · exact e₁.trans e₂.symm
    · exact absurd (hi ▸ (h.created t₂ v₂ _ g₂).1) (Nat.lt_irrefl _)
    · exact absurd (hi' ▸ (h.created t₁ v₁ _ g₁).1) (Nat.lt_irrefl _)
    · exact h.created_inj t₁ t₂ v₁ v₂ i' g₁ g₂
  · change i'.toNat < (s.nextLockId + 1).toNat
    rw [hnext]
    exact Nat.lt_succ_of_lt (h.made i' hi')

/-- The return of a creation. -/
theorem Ids.initLock (h : Ids s) (hpc : s.pc t = .created v i) :
    Ids { (s.xchg i v).setPc t .user with made := (v, i) :: s.made } := by
  obtain ⟨hlt, hnew⟩ := h.created t v i hpc
  refine ⟨h.pos, h.le, fun t' v' i' ht => h.creating t' v' i' (pc_of_setPc_user ht nofun).2,
    fun t₁ t₂ v₁ v₂ i₁ i₂ h₁ h₂ => h.one t₁ t₂ v₁ v₂ i₁ i₂ (pc_of_setPc_user h₁ nofun).2
      (pc_of_setPc_user h₂ nofun).2,
    fun t' v' i' ht => ?_,
    fun t₁ t₂ v₁ v₂ i' h₁ h₂ =>
      h.created_inj t₁ t₂ v₁ v₂ i' (pc_of_setPc_user h₁ nofun).2 (pc_of_setPc_user h₂ nofun).2,
    ?_, ?_⟩
  · obtain ⟨hne, hold⟩ := pc_of_setPc_user ht nofun
    refine ⟨(h.created t' v' i' hold).1, ?_⟩
    rw [List.map_cons, List.mem_cons, not_or]
    exact ⟨fun he => hne (h.created_inj t' t v' v i' hold (he ▸ hpc)), (h.created t' v' i' hold).2⟩
  · rw [List.map_cons, List.forall_mem_cons]
    exact ⟨hlt, h.made⟩
  · rw [List.map_cons, List.nodup_cons]
    exact ⟨hnew, h.nodup⟩

/-- **One step keeps identifiers new**, if creations do not race. -/
theorem ids_step (h : Ids s) (hstep : Step s a u) (hs : Serial s a) : Ids u := by
  cases hstep with
  | create hpc => exact h.create hs
  | storeNext hpc => exact h.storeNext hpc
  | initLock hpc => exact h.initLock hpc
  | lock hpc | unlock hpc => exact h.setPc_outside (by simp) (by simp)
  | spin hpc hne => exact h.xchg ..
  | acquire hpc h0 | clear hpc => exact ((h.xchg ..).setPc_outside (by simp) (by simp)).setHolds ..

/-- No identifiers have been given out. -/
theorem ids_init : Ids initState where
  pos := by decide
  le := by decide
  creating _ _ _ := nofun
  one _ _ _ _ _ _ := nofun
  created _ _ _ := nofun
  created_inj _ _ _ _ _ := nofun
  made := by simp [initState]
  nodup := List.nodup_nil

/-! ### Mutual exclusion -/

/-- The lock word of a mutex is set exactly while a thread holds it, and one thread does. -/
structure Excl (s : State) : Prop where
  locking : ∀ t i, s.pc t = .locking i → (0, i) ∈ s.made
  unlocking : ∀ t i, s.pc t = .unlocking i → s.holds t i = true
  made : ∀ t i, s.holds t i = true → (0, i) ∈ s.made
  locked : ∀ i, (0, i) ∈ s.made → (s.locked i ≠ 0 ↔ ∃ t, s.holds t i = true)
  one : ∀ t t' i, s.holds t i = true → s.holds t' i = true → t = t'

/-- A thread goes to another place. -/
theorem Excl.setPc (h : Excl s) (hlock : ∀ i, c = .locking i → (0, i) ∈ s.made)
    (hunlock : ∀ i, c = .unlocking i → s.holds t i = true) : Excl (s.setPc t c) := by
  refine { h with locking := fun t' i ht => ?_, unlocking := fun t' i ht => ?_ }
  · rw [setPc_pc] at ht
    split_ifs at ht
    · exact hlock i ht
    · exact h.locking t' i ht
  · rw [setPc_pc] at ht
    split_ifs at ht with heq
    · exact heq ▸ hunlock i ht
    · exact h.unlocking t' i ht

/-- A new mutex, which no thread has held. -/
theorem Excl.initLock (h : Excl s) (hnew : i ∉ s.made.map Prod.snd) :
    Excl { (s.xchg i v).setPc t .user with made := (v, i) :: s.made } := by
  have hfree (t' : ℕ) : s.holds t' i ≠ true := fun hh =>
    hnew (List.mem_map.mpr ⟨(0, i), h.made t' i hh, rfl⟩)
  refine ⟨fun t' j ht => List.mem_cons_of_mem _ (h.locking t' j (pc_of_setPc_user ht nofun).2),
    fun t' j ht => h.unlocking t' j (pc_of_setPc_user ht nofun).2,
    fun t' j ht => List.mem_cons_of_mem _ (h.made t' j ht), fun j hj => ?_, h.one⟩
  change update s.locked i v j ≠ 0 ↔ ∃ t, s.holds t j = true
  rcases List.mem_cons.mp hj with heq | hold
  · obtain ⟨rfl, rfl⟩ := Prod.mk.inj heq
    simp [hfree]
  · have hne : j ≠ i := fun he => hnew (List.mem_map.mpr ⟨(0, j), hold, he⟩)
    rw [update_of_ne hne]
    exact h.locked j hold

/-- A round of the loop of `mtx_lock` that finds the word set. -/
theorem Excl.spin (h : Excl s) (hpc : s.pc t = .locking i) (hne : s.locked i ≠ 0) :
    Excl (s.xchg i 1) := by
  refine { h with locked := fun j hj => ?_ }
  change update s.locked i 1 j ≠ 0 ↔ ∃ t, s.holds t j = true
  rcases eq_or_ne j i with rfl | hji
  · simpa using (h.locked j (h.locking t j hpc)).mp hne
  · rw [update_of_ne hji]
    exact h.locked j hj

theorem setHolds_holds {j : BitVec 32} {b : Bool} :
    (s.setHolds t i b).holds t' j = if t' = t ∧ j = i then b else s.holds t' j := rfl

/-- A thread gets the mutex. -/
theorem Excl.acquire (h : Excl s) (hpc : s.pc t = .locking i) (h0 : s.locked i = 0) :
    Excl (((s.xchg i 1).setPc t .user).setHolds t i true) := by
  have hmade := h.locking t i hpc
  have hfree (t' : ℕ) : s.holds t' i ≠ true := fun hh =>
    absurd h0 ((h.locked i hmade).mpr ⟨t', hh⟩)
  refine ⟨fun t' j ht => h.locking t' j (pc_of_setPc_user ht nofun).2, fun t' j ht => ?_,
    fun t' j ht => ?_, fun j hj => ?_, fun t₁ t₂ j h₁ h₂ => ?_⟩
  · obtain ⟨hne, ht⟩ := pc_of_setPc_user ht nofun
    rw [setHolds_holds, if_neg fun hc => hne hc.1]
    exact h.unlocking t' j ht
  · rw [setHolds_holds] at ht
    split_ifs at ht with heq
    · exact heq.2 ▸ hmade
    · exact h.made t' j ht
  · change update s.locked i 1 j ≠ 0 ↔ _
    rcases eq_or_ne j i with rfl | hji
    · rw [update_self]
      exact ⟨fun _ => ⟨t, by simp [setHolds_holds]⟩, fun _ => by decide⟩
    · rw [update_of_ne hji, h.locked j hj]
      simp [setHolds_holds, hji, State.setPc, State.xchg]
  · rw [setHolds_holds] at h₁ h₂
    split_ifs at h₁ h₂ with e₁ e₂ e₂
    · exact e₁.1.trans e₂.1.symm
    · exact absurd (e₁.2 ▸ h₂) (hfree t₂)
    · exact absurd (e₂.2 ▸ h₁) (hfree t₁)
    · exact h.one t₁ t₂ j h₁ h₂

/-- The thread that holds the mutex gives it up. -/
theorem Excl.clear (h : Excl s) (hpc : s.pc t = .unlocking i) :
    Excl (((s.xchg i 0).setPc t .user).setHolds t i false) := by
  have hmine := h.unlocking t i hpc
  have hold {t' j} (ht : (((s.xchg i 0).setPc t .user).setHolds t i false).holds t' j = true) :
      s.holds t' j = true := by
    rw [setHolds_holds] at ht
    split_ifs at ht
    exact ht
  refine ⟨fun t' j ht => h.locking t' j (pc_of_setPc_user ht nofun).2, fun t' j ht => ?_,
    fun t' j ht => h.made t' j (hold ht), fun j hj => ?_,
    fun t₁ t₂ j h₁ h₂ => h.one t₁ t₂ j (hold h₁) (hold h₂)⟩
  · obtain ⟨hne, ht⟩ := pc_of_setPc_user ht nofun
    rw [setHolds_holds, if_neg fun hc => hne hc.1]
    exact h.unlocking t' j ht
  · change update s.locked i 0 j ≠ 0 ↔ _
    rcases eq_or_ne j i with rfl | hji
    · rw [update_self]
      refine ⟨fun hc => absurd rfl hc, fun ⟨t', ht'⟩ => ?_⟩
      obtain rfl := h.one t' t j (hold ht') hmine
      simp [setHolds_holds] at ht'
    · rw [update_of_ne hji, h.locked j hj]
      simp [setHolds_holds, hji, State.setPc, State.xchg]

/-- **One step keeps the exclusion.** -/
theorem excl_step (hids : Ids s) (h : Excl s) (hstep : Step s a u) (hc : Client s a) :
    Excl u := by
  cases hstep with
  | create hpc => exact h.setPc nofun nofun
  | storeNext hpc => exact { h.setPc (t := _) (c := .created _ _) nofun nofun with }
  | initLock hpc => exact h.initLock (hids.created _ _ _ hpc).2
  | lock hpc =>
    refine h.setPc ?_ nofun
    rintro _ ⟨⟩
    exact hc
  | spin hpc hne => exact h.spin hpc hne
  | acquire hpc h0 => exact h.acquire hpc h0
  | unlock hpc =>
    refine h.setPc nofun ?_
    rintro _ ⟨⟩
    exact hc
  | clear hpc => exact h.clear hpc

/-- No mutex is held. -/
theorem excl_init : Excl initState where
  locking _ _ := nofun
  unlocking _ _ := nofun
  made _ _ := nofun
  locked := by simp [initState]
  one _ _ _ := nofun

/-- **Mutual exclusion.** In every run of threads that lock only mutexes returned by `mtx_create(0)`
and unlock only those that they hold, and whose creations do not race, at most one thread is past
`mtx_lock` and not past `mtx_unlock` of a mutex, and its lock word is set exactly while there is
one. -/
theorem mutual_exclusion
    (hreach : (system.restrict fun s a => Client s a ∧ Serial s a).Reachable s) {i : BitVec 32}
    (hi : (0, i) ∈ s.made) :
    (∀ t t', s.holds t i = true → s.holds t' i = true → t = t') ∧
      (s.locked i ≠ 0 ↔ ∃ t, s.holds t i = true) := by
  have hinv : Ids s ∧ Excl s := by
    refine hreach.invariant (I := fun s => Ids s ∧ Excl s) ?_ ?_
    · rintro _ rfl
      exact ⟨ids_init, excl_init⟩
    · rintro s a u ⟨hids, hex⟩ ⟨hstep, hc, hs⟩
      exact ⟨ids_step hids hstep hs, excl_step hids hex hstep hc⟩
  exact ⟨fun t t' => hinv.2.one t t' i, hinv.2.locked i hi⟩

/-- The exclusion at work: a thread makes a mutex and locks it, another one tries to lock it, and
only the first one holds it. -/
theorem mutual_exclusion_locked : ∃ s : State,
    (system.restrict fun s a => Client s a ∧ Serial s a).Reachable s ∧ s.holds 0 1 = true ∧
      s.pc 1 = .locking 1 ∧ s.locked 1 ≠ 0 ∧ ∀ t, s.holds t 1 = true → t = 0 := by
  have h0 : (system.restrict fun s a => Client s a ∧ Serial s a).Reachable initState := .init rfl
  have h1 := h0.step ⟨Step.create (t := 0) (v := 0) rfl, trivial, nofun, by decide⟩
  have h2 := h1.step ⟨Step.storeNext (t := 0) rfl, trivial, trivial⟩
  have h3 := h2.step ⟨Step.initLock (t := 0) rfl, trivial, trivial⟩
  have h4 := h3.step ⟨Step.lock (t := 0) (i := 1) rfl, List.mem_cons_self, trivial⟩
  have h5 := h4.step ⟨Step.acquire (t := 0) rfl rfl, trivial, trivial⟩
  have h6 := h5.step ⟨Step.lock (t := 1) (i := 1) rfl, List.mem_cons_self, trivial⟩
  have h7 := h6.step ⟨Step.spin (t := 1) rfl (by decide), trivial, trivial⟩
  have hex := mutual_exclusion (i := 1) h7 List.mem_cons_self
  exact ⟨_, h7, rfl, rfl, by decide, fun t ht => hex.1 t 0 ht rfl⟩

/-- **Creations race.** Two threads read the same value of `nextLockId`. One of them goes on to lock
the mutex that it gets, and then the other one clears its lock word, gets the same mutex and locks
it too. -/
theorem creations_race : ∃ s : State, (system.restrict Client).Reachable s ∧ (0, 1) ∈ s.made ∧
    s.holds 0 1 = true ∧ s.holds 1 1 = true := by
  have h0 : (system.restrict Client).Reachable initState := .init rfl
  have h1 := h0.step ⟨Step.create (t := 0) (v := 0) rfl, trivial⟩
  have h2 := h1.step ⟨Step.create (t := 1) (v := 0) rfl, trivial⟩
  have h3 := h2.step ⟨Step.storeNext (t := 0) rfl, trivial⟩
  have h4 := h3.step ⟨Step.initLock (t := 0) rfl, trivial⟩
  have h5 := h4.step ⟨Step.lock (t := 0) (i := 1) rfl, List.mem_cons_self⟩
  have h6 := h5.step ⟨Step.acquire (t := 0) rfl rfl, trivial⟩
  have h7 := h6.step ⟨Step.storeNext (t := 1) rfl, trivial⟩
  have h8 := h7.step ⟨Step.initLock (t := 1) rfl, trivial⟩
  have h9 := h8.step ⟨Step.lock (t := 1) (i := 1) rfl, List.mem_cons_self⟩
  have h10 := h9.step ⟨Step.acquire (t := 1) rfl rfl, trivial⟩
  exact ⟨_, h10, List.mem_cons_self, rfl, rfl⟩

/-! ### The table -/

/-- The accesses so far are in the table, and so are those to come. -/
structure Within (s : State) : Prop where
  accesses : ∀ i ∈ s.accesses, InTable i
  pc : ∀ t i, s.pc t = .locking i ∨ s.pc t = .unlocking i → InTable i

/-- A thread that goes to a call with an index of the table. -/
theorem Within.setPc (h : Within s) (hc : ∀ i, c = .locking i ∨ c = .unlocking i → InTable i) :
    Within (s.setPc t c) := by
  refine ⟨h.accesses, fun t' i ht => ?_⟩
  rw [setPc_pc] at ht
  split_ifs at ht
  · exact hc i ht
  · exact h.pc t' i ht

theorem Within.xchg (h : Within s) (hi : InTable i) : Within (s.xchg i v) :=
  ⟨List.forall_mem_cons.mpr ⟨hi, h.accesses⟩, h.pc⟩

/-- Every step keeps the accesses within the table. -/
theorem within_step (hids : Ids s) (h : Within s) (hstep : Step s a u) (hr : InRange a) :
    Within u := by
  cases hstep with
  | create hpc => exact h.setPc (by simp)
  | storeNext hpc => exact { h.setPc (t := _) (c := .created _ _) (by simp) with }
  | initLock hpc =>
    have hlt := Nat.lt_of_lt_of_le (hids.created _ _ _ hpc).1 hids.le
    exact { (h.xchg (inTable_iff.mpr hlt)).setPc (t := _) (c := .user) (by simp) with }
  | lock hpc | unlock hpc =>
    refine h.setPc ?_
    rintro _ (⟨⟨⟩⟩ | ⟨⟨⟩⟩)
    exact hr
  | spin hpc hne => exact h.xchg (h.pc _ _ (.inl hpc))
  | acquire hpc h0 =>
    exact { (h.xchg (h.pc _ _ (.inl hpc))).setPc (t := _) (c := .user) (by simp) with }
  | clear hpc =>
    exact { (h.xchg (h.pc _ _ (.inr hpc))).setPc (t := _) (c := .user) (by simp) with }

/-- **Accesses stay in the table.** In every run whose creations do not race and start while an
identifier is left, and whose other arguments are indices of the table, every access is in the
table, and the identifiers returned by `mtx_create` are distinct indices of the table. -/
theorem mutex_ids_in_table
    (hreach : (system.restrict fun s a => InRange a ∧ Serial s a).Reachable s) :
    (∀ i ∈ s.accesses, InTable i) ∧ (s.made.map Prod.snd).Nodup ∧
      ∀ i ∈ s.made.map Prod.snd, InTable i := by
  have hinv : Ids s ∧ Within s := by
    refine hreach.invariant (I := fun s => Ids s ∧ Within s) ?_ ?_
    · rintro _ rfl
      exact ⟨ids_init, by simp [initState], by simp [initState]⟩
    · rintro s a u ⟨hids, hw⟩ ⟨hstep, hr, hs⟩
      exact ⟨ids_step hids hstep hs, within_step hids hw hstep hr⟩
  obtain ⟨hids, hw⟩ := hinv
  exact ⟨hw.accesses, hids.nodup,
    fun i hi => inTable_iff.mpr (Nat.lt_of_lt_of_le (hids.made i hi) hids.le)⟩

/-- The table at work: a thread makes a mutex while another one is in the middle of `mtx_create`,
and then waits for the one that it did not make. -/
theorem mutex_ids_in_table_two : ∃ s : State,
    (system.restrict fun s a => InRange a ∧ Serial s a).Reachable s ∧
      s.made = [(0, 1), (0, 2)] ∧ s.accesses = [1, 1, 1, 1, 1, 2] ∧ s.holds 1 1 = true ∧
      InTable 1 ∧ InTable 2 := by
  have h0 : (system.restrict fun s a => InRange a ∧ Serial s a).Reachable initState := .init rfl
  have h1 := h0.step ⟨Step.create (t := 0) (v := 0) rfl, trivial, nofun, by decide⟩
  have h2 := h1.step ⟨Step.storeNext (t := 0) rfl, trivial, trivial⟩
  have hin : InTable 1 := by decide
  have hnone : ∀ t v i, update (update (fun _ => Pc.user) 0 (.creating 0 1)) 0 (.created 0 1) t ≠
      .creating v i := by
    intro t v i
    rw [update_apply, update_apply]
    split_ifs <;> nofun
  have h3 := h2.step ⟨Step.create (t := 1) (v := 0) rfl, trivial, hnone, by decide⟩
  have h4 := h3.step ⟨Step.storeNext (t := 1) rfl, trivial, trivial⟩
  have h5 := h4.step ⟨Step.initLock (t := 1) rfl, trivial, trivial⟩
  have h6 := h5.step ⟨Step.initLock (t := 0) rfl, trivial, trivial⟩
  have h7 := h6.step ⟨Step.lock (t := 0) (i := 1) rfl, hin, trivial⟩
  have h8 := h7.step ⟨Step.acquire (t := 0) rfl rfl, trivial, trivial⟩
  have h9 := h8.step ⟨Step.lock (t := 1) (i := 1) rfl, hin, trivial⟩
  have h10 := h9.step ⟨Step.spin (t := 1) rfl (by decide), trivial, trivial⟩
  have h11 := h10.step ⟨Step.unlock (t := 0) (i := 1) rfl, hin, trivial⟩
  have h12 := h11.step ⟨Step.clear (t := 0) rfl, trivial, trivial⟩
  have h13 := h12.step ⟨Step.acquire (t := 1) rfl rfl, trivial, trivial⟩
  obtain ⟨haccess, -, hmade⟩ := mutex_ids_in_table h13
  exact ⟨_, h13, rfl, rfl, rfl, haccess 1 List.mem_cons_self, hmade 2 (by decide)⟩

/-- **The argument is not checked.** The first call after boot can use any word of memory as a
lock. -/
theorem lock_outside_table :
    ∃ s : State, system.Reachable s ∧ 100 ∈ s.accesses ∧ ¬ InTable 100 := by
  have h0 : system.Reachable initState := .init rfl
  have h1 := h0.step (Step.lock (t := 0) (i := 100) rfl)
  have h2 := h1.step (Step.acquire (t := 0) rfl rfl)
  exact ⟨_, h2, List.mem_cons_self, by decide⟩

end Invariants

end Xv6.Mutex
