import Xv6.Threads

/-!
# The Disc Golf Range

The threads of `mp3/1_disc_golf_range.py`: frolfers take buckets of discs from the stash and
throw them on the field, one by one, and the cart brings the discs of the field back when a
frolfer finds too few in the stash. Every read and every write of `STASH` and `discs_on_field`
is a step of its own.

The cart changes `STASH` without taking `stashLock`. What makes this safe is the hand-off through
`stashEmpty` and `stashFull`: at any time, its permits and the cart at work are as many as the
frolfers that wait for `stashFull` (`Inv.handOff`), and such a frolfer holds `stashLock`.

## Main results

* `Inv.step`: one step keeps the invariant.
* `discs_conserved`: **no disc is lost or duplicated**, `STASH` is never negative, and the cart
  writes it only for a frolfer that waits.
-/

open Transition Threads

namespace Xv6.DiscGolf

/-- Where a frolfer stands. -/
inductive Pc
  /-- at `stashLock.acquire()` -/
  | call
  /-- at the first test `STASH < BUCKET_SIZE` -/
  | first
  /-- at `stashEmpty.release()` -/
  | signal
  /-- at `stashFull.acquire()` -/
  | await
  /-- at the second test `STASH < BUCKET_SIZE` -/
  | second
  /-- at the `stashLock.release()` before `continue` -/
  | giveUp
  /-- at the test `STASH >= BUCKET_SIZE` -/
  | third
  /-- at the read of `STASH -= BUCKET_SIZE` -/
  | load
  /-- at its write, having read `v` -/
  | store (v : ℤ)
  /-- at `bucket += BUCKET_SIZE` -/
  | fill
  /-- at the read of `STASH` for the message -/
  | report
  /-- at `stashLock.release()` -/
  | done
  /-- at the head of the loop over the bucket, with `i` discs thrown -/
  | throw (i : ℕ)
  /-- at the read of `discs_on_field += 1` -/
  | loadField (i : ℕ)
  /-- at its write, having read `v` -/
  | storeField (i : ℕ) (v : ℤ)
  /-- at `fieldLock.release()` -/
  | thrown (i : ℕ)
  deriving DecidableEq, Repr

/-- A frolfer's local variables. -/
structure Frolfer where
  pc : Pc
  bucket : ℕ
  deriving DecidableEq, Repr

/-- Where the cart stands. -/
inductive Cart
  /-- at `stashEmpty.acquire()` -/
  | idle
  /-- at `fieldLock.acquire()` -/
  | enter
  /-- at `initial_stash = STASH` -/
  | initialStash
  /-- at `discs_collected = discs_on_field` -/
  | discsCollected
  /-- at the read of `STASH` in `STASH += discs_on_field` -/
  | loadStash
  /-- at the read of `discs_on_field` in it, having read `v` -/
  | loadField (v : ℤ)
  /-- at its write, having read `v` and `d` -/
  | storeStash (v d : ℤ)
  /-- at `discs_on_field = 0` -/
  | zeroField
  /-- at the read of `STASH` for the message -/
  | report
  /-- at `fieldLock.release()` -/
  | leave
  /-- at `stashFull.release()` -/
  | signal
  deriving DecidableEq, Repr

/-- The variables that the threads share, and the threads. -/
structure State where
  stash : ℤ
  discsOnField : ℤ
  stashLock : Bool
  fieldLock : Bool
  stashEmpty : ℕ
  stashFull : ℕ
  cart : Cart
  frolfer : ℕ → Frolfer

namespace State

/-- Change a frolfer. -/
@[simp] def setFrolfer (s : State) (i : ℕ) (f : Frolfer) : State :=
  { s with frolfer := Function.update s.frolfer i f }

/-- Change where a frolfer stands. -/
@[simp] def setPc (s : State) (i : ℕ) (c : Pc) : State := s.setFrolfer i ⟨c, (s.frolfer i).bucket⟩

end State

/-- The threads: the cart, and the frolfers by number. -/
inductive Thread
  | cart
  | frolfer (i : ℕ)
  deriving DecidableEq, Repr

section Model

variable (B n : ℕ)

/-- The steps of `frolfer(i)`, with `BUCKET_SIZE = B`. -/
inductive FrolferStep (i : ℕ) : State → State → Prop
  | call {s} : (s.frolfer i).pc = .call → s.stashLock = false →
      FrolferStep i s { s.setPc i .first with stashLock := true }
  | firstLow {s : State} : (s.frolfer i).pc = .first → s.stash < B →
      FrolferStep i s (s.setPc i .signal)
  | firstHigh {s : State} : (s.frolfer i).pc = .first → B ≤ s.stash →
      FrolferStep i s (s.setPc i .second)
  | signal {s} : (s.frolfer i).pc = .signal →
      FrolferStep i s { s.setPc i .await with stashEmpty := s.stashEmpty + 1 }
  | await {s k} : (s.frolfer i).pc = .await → s.stashFull = k + 1 →
      FrolferStep i s { s.setPc i .second with stashFull := k }
  | secondLow {s : State} : (s.frolfer i).pc = .second → s.stash < B →
      FrolferStep i s (s.setPc i .giveUp)
  | secondHigh {s : State} : (s.frolfer i).pc = .second → B ≤ s.stash →
      FrolferStep i s (s.setPc i .third)
  | giveUp {s} : (s.frolfer i).pc = .giveUp →
      FrolferStep i s { s.setPc i .call with stashLock := false }
  | thirdLow {s : State} : (s.frolfer i).pc = .third → s.stash < B →
      FrolferStep i s (s.setPc i .done)
  | thirdHigh {s : State} : (s.frolfer i).pc = .third → B ≤ s.stash →
      FrolferStep i s (s.setPc i .load)
  | load {s} : (s.frolfer i).pc = .load → FrolferStep i s (s.setPc i (.store s.stash))
  | store {s v} : (s.frolfer i).pc = .store v →
      FrolferStep i s { s.setPc i .fill with stash := v - B }
  | fill {s} : (s.frolfer i).pc = .fill →
      FrolferStep i s (s.setFrolfer i ⟨.report, (s.frolfer i).bucket + B⟩)
  | report {s} : (s.frolfer i).pc = .report → FrolferStep i s (s.setPc i .done)
  | done {s} : (s.frolfer i).pc = .done →
      -- the test of `while bucket == 0` follows
      FrolferStep i s { s.setPc i (if (s.frolfer i).bucket = 0 then .call else .throw 0) with
        stashLock := false }
  | throw {s j} : (s.frolfer i).pc = .throw j → j < (s.frolfer i).bucket → s.fieldLock = false →
      FrolferStep i s { s.setPc i (.loadField j) with fieldLock := true }
  | loadField {s j} : (s.frolfer i).pc = .loadField j →
      FrolferStep i s (s.setPc i (.storeField j s.discsOnField))
  | storeField {s j v} : (s.frolfer i).pc = .storeField j v →
      FrolferStep i s { s.setPc i (.thrown j) with discsOnField := v + 1 }
  | thrown {s j} : (s.frolfer i).pc = .thrown j →
      FrolferStep i s { s.setPc i (.throw (j + 1)) with fieldLock := false }
  | empty {s j} : (s.frolfer i).pc = .throw j → (s.frolfer i).bucket ≤ j →
      FrolferStep i s (s.setFrolfer i ⟨.call, 0⟩)

/-- The steps of `cart()`. -/
inductive CartStep : State → State → Prop
  | idle {s k} : s.cart = .idle → s.stashEmpty = k + 1 →
      CartStep s { s with cart := .enter, stashEmpty := k }
  | enter {s} : s.cart = .enter → s.fieldLock = false →
      CartStep s { s with cart := .initialStash, fieldLock := true }
  | initialStash {s} : s.cart = .initialStash → CartStep s { s with cart := .discsCollected }
  | discsCollected {s} : s.cart = .discsCollected → CartStep s { s with cart := .loadStash }
  | loadStash {s} : s.cart = .loadStash → CartStep s { s with cart := .loadField s.stash }
  | loadField {s v} : s.cart = .loadField v →
      CartStep s { s with cart := .storeStash v s.discsOnField }
  | storeStash {s v d} : s.cart = .storeStash v d →
      CartStep s { s with cart := .zeroField, stash := v + d }
  | zeroField {s} : s.cart = .zeroField → CartStep s { s with cart := .report, discsOnField := 0 }
  | report {s} : s.cart = .report → CartStep s { s with cart := .leave }
  | leave {s} : s.cart = .leave → CartStep s { s with cart := .signal, fieldLock := false }
  | signal {s} : s.cart = .signal →
      CartStep s { s with cart := .idle, stashFull := s.stashFull + 1 }

/-- The steps of the threads, with `NUM_FROLFERS = n`. -/
inductive Step : State → Thread → State → Prop
  | cart {s t} : CartStep s t → Step s .cart t
  | frolfer {s t i} : i < n → FrolferStep B i s t → Step s (.frolfer i) t

/-- The state in which `main` starts the threads, with `S` discs in the stash. -/
def initState (S : ℤ) : State where
  stash := S
  discsOnField := 0
  stashLock := false
  fieldLock := false
  stashEmpty := 0
  stashFull := 0
  cart := .idle
  frolfer _ := ⟨.call, 0⟩

/-- The runs of the program. -/
def system (S : ℤ) : System State Thread where
  init s := s = initState S
  step := Step B n

end Model

/-! ### What the threads contribute -/

namespace Frolfer

/-- The frolfer is between `stashLock.acquire()` and `stashLock.release()`. -/
@[simp] def inStash (f : Frolfer) : ℕ :=
  match f.pc with
  | .call | .throw _ | .loadField _ | .storeField _ _ | .thrown _ => 0
  | _ => 1

/-- The frolfer is between `fieldLock.acquire()` and `fieldLock.release()`. -/
@[simp] def inField (f : Frolfer) : ℕ :=
  match f.pc with
  | .loadField _ | .storeField _ _ | .thrown _ => 1
  | _ => 0

/-- The frolfer is between `stashEmpty.release()` and `stashFull.acquire()`. -/
@[simp] def waiting (f : Frolfer) : ℕ := if f.pc = .await then 1 else 0

/-- The discs that the frolfer still holds in its bucket. -/
@[simp] def held (f : Frolfer) : ℕ :=
  match f.pc with
  | .throw i | .loadField i | .storeField i _ => f.bucket - i
  | .thrown i => f.bucket - (i + 1)
  | _ => f.bucket

/-- The discs that the frolfer has, in its bucket or on the way there. -/
@[simp] def hand (B : ℕ) (f : Frolfer) : ℕ := f.held + if f.pc = .fill then B else 0

/-- What the frolfer knows about the shared variables. -/
def Knows (B : ℕ) (f : Frolfer) (s : State) : Prop :=
  match f.pc with
  | .load => B ≤ s.stash
  | .store v => v = s.stash ∧ B ≤ s.stash
  | .loadField i | .thrown i => i < f.bucket
  | .storeField i v => i < f.bucket ∧ v = s.discsOnField
  | _ => True

end Frolfer

namespace Cart

/-- The cart is between `fieldLock.acquire()` and `fieldLock.release()`. -/
@[simp] def inField : Cart → ℕ
  | .idle | .enter | .signal => 0
  | _ => 1

/-- The cart is between `stashEmpty.acquire()` and `stashFull.release()`. -/
@[simp] def busy (c : Cart) : ℕ := if c = .idle then 0 else 1

/-- What the cart knows about the shared variables. -/
def Knows (c : Cart) (s : State) : Prop :=
  match c with
  | .loadField v => v = s.stash
  | .storeStash v d => v = s.stash ∧ d = s.discsOnField
  | _ => True

end Cart

/-- The discs on the field that the cart has not yet counted in the stash. -/
def State.uncollected (s : State) : ℤ := if s.cart = .zeroField then 0 else s.discsOnField

/-- **The invariant**, with `S` discs at the start. -/
structure Inv (B n : ℕ) (S : ℤ) (s : State) : Prop where
  stashLock : tally n Frolfer.inStash s.frolfer = s.stashLock.toNat
  fieldLock : tally n Frolfer.inField s.frolfer + s.cart.inField = s.fieldLock.toNat
  handOff : s.stashEmpty + s.cart.busy + s.stashFull = tally n Frolfer.waiting s.frolfer
  stash_nonneg : 0 ≤ s.stash
  field_nonneg : 0 ≤ s.discsOnField
  frolfers : ∀ i < n, (s.frolfer i).Knows B s
  cart : s.cart.Knows s
  conserved : s.stash + s.uncollected + tally n (Frolfer.hand B) s.frolfer = S

section Invariant

variable {B n i j : ℕ} {S : ℤ} {s t : State}

/-- A frolfer that waits has the lock of the stash. -/
theorem Frolfer.inStash_of_waiting {f : Frolfer} (h : 0 < f.waiting) : f.inStash = 1 := by
  have hpc : f.pc = .await := by
    by_contra hne
    simp [waiting, hne] at h
  simp [inStash, hpc]

theorem Frolfer.Knows.congr {f : Frolfer} (h : f.Knows B s) (hstash : t.stash = s.stash)
    (hfield : t.discsOnField = s.discsOnField) : f.Knows B t := by
  simpa only [Knows, hstash, hfield] using h

theorem Cart.Knows.congr {c : Cart} (h : c.Knows s) (hstash : t.stash = s.stash)
    (hfield : t.discsOnField = s.discsOnField) : c.Knows t := by
  simpa only [Knows, hstash, hfield] using h

/-! ### Who excludes whom -/

/-- At most one frolfer is in the section of `stashLock`. -/
theorem Inv.stash_excl (h : Inv B n S s) (hi : i < n) (hj : j < n) (hne : i ≠ j) :
    (s.frolfer i).inStash + (s.frolfer j).inStash ≤ 1 := by
  have hle := add_le_tally Frolfer.inStash s.frolfer hi hj hne
  have hlock := h.stashLock
  have := s.stashLock.toNat_le
  omega

/-- At most one thread is in the section of `fieldLock`. -/
theorem Inv.field_excl (h : Inv B n S s) (hi : i < n) (hj : j < n) (hne : i ≠ j) :
    (s.frolfer i).inField + (s.frolfer j).inField ≤ 1 := by
  have hle := add_le_tally Frolfer.inField s.frolfer hi hj hne
  have hlock := h.fieldLock
  have := s.fieldLock.toNat_le
  omega

/-- A frolfer and the cart are not in the field at once. -/
theorem Inv.field_excl_cart (h : Inv B n S s) (hi : i < n) :
    (s.frolfer i).inField + s.cart.inField ≤ 1 := by
  have hle := le_tally Frolfer.inField s.frolfer hi
  have hlock := h.fieldLock
  have := s.fieldLock.toNat_le
  omega

/-- A frolfer at the stash has its lock. -/
theorem Inv.stashLock_held (h : Inv B n S s) (hi : i < n) (hin : (s.frolfer i).inStash = 1) :
    s.stashLock = true := by
  have hle := le_tally Frolfer.inStash s.frolfer hi
  have hlock := h.stashLock
  cases hl : s.stashLock
  · simp only [hl, Bool.toNat_false] at hlock
    omega
  · rfl

/-- A frolfer in the field has its lock. -/
theorem Inv.fieldLock_held (h : Inv B n S s) (hi : i < n) (hin : (s.frolfer i).inField = 1) :
    s.fieldLock = true := by
  have hle := le_tally Frolfer.inField s.frolfer hi
  have hlock := h.fieldLock
  cases hl : s.fieldLock
  · simp only [hl, Bool.toNat_false] at hlock
    omega
  · rfl

/-- **The hand-off:** while the cart is at work, a frolfer waits for it. -/
theorem Inv.exists_waiting (h : Inv B n S s) (hbusy : s.cart ≠ .idle) :
    ∃ k < n, (s.frolfer k).pc = .await ∧ (s.frolfer k).inStash = 1 := by
  have hpos : 0 < tally n Frolfer.waiting s.frolfer := by
    have := h.handOff
    have hone : s.cart.busy = 1 := if_neg hbusy
    omega
  obtain ⟨k, hk, hw⟩ := exists_of_tally_pos hpos
  refine ⟨k, hk, ?_, Frolfer.inStash_of_waiting hw⟩
  by_contra hne
  simp [hne] at hw

/-- A frolfer in the section of `stashLock` that does not wait has the stash for itself. -/
theorem Inv.cart_idle (h : Inv B n S s) (hi : i < n) (hin : (s.frolfer i).inStash = 1)
    (hpc : (s.frolfer i).pc ≠ .await) : s.cart = .idle := by
  by_contra hbusy
  obtain ⟨k, hk, hkpc, hkin⟩ := h.exists_waiting hbusy
  have hne : i ≠ k := by
    rintro rfl
    exact hpc hkpc
  have := h.stash_excl hi hk hne
  omega

/-! ### The steps of a frolfer -/

/-- **A frolfer moves:** the invariant is kept if the locks, the permits and the discs balance. -/
theorem Inv.move {f : Frolfer} (h : Inv B n S s) (hi : i < n) (hcart : t.cart = s.cart)
    (hf : t.frolfer = Function.update s.frolfer i f)
    (hsl : f.inStash + s.stashLock.toNat = (s.frolfer i).inStash + t.stashLock.toNat)
    (hfl : f.inField + s.fieldLock.toNat = (s.frolfer i).inField + t.fieldLock.toNat)
    (hho : (s.frolfer i).waiting + (t.stashEmpty + t.stashFull) =
      f.waiting + (s.stashEmpty + s.stashFull))
    (hstash : 0 ≤ t.stash) (hfield : 0 ≤ t.discsOnField) (hknows : f.Knows B t)
    (hothers : ∀ j < n, j ≠ i → (s.frolfer j).Knows B t) (hck : s.cart.Knows t)
    (hcons : t.stash + t.uncollected + f.hand B =
      s.stash + s.uncollected + (s.frolfer i).hand B) : Inv B n S t := by
  have h1 := tally_update Frolfer.inStash s.frolfer f hi
  have h2 := tally_update Frolfer.inField s.frolfer f hi
  have h3 := tally_update Frolfer.waiting s.frolfer f hi
  have h4 := tally_update (Frolfer.hand B) s.frolfer f hi
  obtain ⟨hsl₀, hfl₀, hho₀, -, -, -, -, hcons₀⟩ := h
  rw [← hf] at h1 h2 h3 h4
  refine ⟨by omega, by rw [hcart]; omega, by rw [hcart]; omega, hstash, hfield, fun j hj => ?_,
    hcart ▸ hck, by omega⟩
  rw [hf]
  by_cases hji : j = i
  · rw [hji, Function.update_self]
    exact hknows
  · rw [Function.update_of_ne hji]
    exact hothers j hj hji

/-- A frolfer moves without changing a shared variable. -/
theorem Inv.quiet {f : Frolfer} (h : Inv B n S s) (hi : i < n)
    (hsl : f.inStash = (s.frolfer i).inStash) (hfl : f.inField = (s.frolfer i).inField)
    (hho : f.waiting = (s.frolfer i).waiting) (hhand : f.hand B = (s.frolfer i).hand B)
    (hknows : f.Knows B s) : Inv B n S (s.setFrolfer i f) := by
  refine h.move hi rfl rfl (by rw [hsl]; rfl) (by rw [hfl]; rfl) (by rw [hho]; rfl) h.stash_nonneg
    h.field_nonneg (hknows.congr rfl rfl) (fun j hj _ => (h.frolfers j hj).congr rfl rfl)
    (h.cart.congr rfl rfl) ?_
  rw [hhand]
  rfl

/-- A frolfer takes or gives back locks or permits. -/
theorem Inv.sync {c : Pc} (h : Inv B n S s) (hi : i < n) (hcart : t.cart = s.cart)
    (hf : t.frolfer = (s.setPc i c).frolfer) (hstash : t.stash = s.stash)
    (hfield : t.discsOnField = s.discsOnField)
    (hsl : (⟨c, (s.frolfer i).bucket⟩ : Frolfer).inStash + s.stashLock.toNat =
      (s.frolfer i).inStash + t.stashLock.toNat)
    (hfl : (⟨c, (s.frolfer i).bucket⟩ : Frolfer).inField + s.fieldLock.toNat =
      (s.frolfer i).inField + t.fieldLock.toNat)
    (hho : (s.frolfer i).waiting + (t.stashEmpty + t.stashFull) =
      (⟨c, (s.frolfer i).bucket⟩ : Frolfer).waiting + (s.stashEmpty + s.stashFull))
    (hknows : (⟨c, (s.frolfer i).bucket⟩ : Frolfer).Knows B s)
    (hhand : (⟨c, (s.frolfer i).bucket⟩ : Frolfer).hand B = (s.frolfer i).hand B) :
    Inv B n S t := by
  refine h.move hi hcart hf hsl hfl hho (hstash ▸ h.stash_nonneg) (hfield ▸ h.field_nonneg)
    (hknows.congr hstash hfield) (fun j hj _ => (h.frolfers j hj).congr hstash hfield)
    (h.cart.congr hstash hfield) ?_
  rw [hhand, State.uncollected, State.uncollected, hcart, hstash, hfield]

/-- `STASH -= BUCKET_SIZE` is written: no other thread looks at the stash. -/
theorem Inv.store {v : ℤ} (h : Inv B n S s) (hi : i < n) (hpc : (s.frolfer i).pc = .store v) :
    Inv B n S { s.setPc i .fill with stash := v - B } := by
  have hknows := h.frolfers i hi
  simp only [Frolfer.Knows, hpc] at hknows
  obtain ⟨rfl, hle⟩ := hknows
  have hin : (s.frolfer i).inStash = 1 := by simp [hpc]
  have hidle : s.cart = .idle := h.cart_idle hi hin (by simp [hpc])
  refine h.move hi rfl rfl ?_ ?_ ?_ (Int.sub_nonneg.mpr hle) h.field_nonneg trivial ?_ ?_ ?_
  · simp [hpc]
  · simp [hpc]
  · simp [hpc]
  · intro j hj hji
    have hout : (s.frolfer j).inStash = 0 := by
      have := h.stash_excl hi hj hji.symm
      omega
    have hj := h.frolfers j hj
    cases hjpc : (s.frolfer j).pc <;>
      simp_all [Frolfer.Knows]
  · simp [hidle, Cart.Knows]
  · simp only [Frolfer.hand, Frolfer.held, hpc, State.uncollected, hidle, State.setPc,
      State.setFrolfer]
    simp
    omega

/-- `discs_on_field += 1` is written: no other thread looks at the field. -/
theorem Inv.storeField {k : ℕ} {v : ℤ} (h : Inv B n S s) (hi : i < n)
    (hpc : (s.frolfer i).pc = .storeField k v) :
    Inv B n S { s.setPc i (.thrown k) with discsOnField := v + 1 } := by
  have hknows := h.frolfers i hi
  simp only [Frolfer.Knows, hpc] at hknows
  obtain ⟨hk, rfl⟩ := hknows
  have hin : (s.frolfer i).inField = 1 := by simp [hpc]
  have hcart : s.cart.inField = 0 := by
    have := h.field_excl_cart hi
    omega
  have hfield := h.field_nonneg
  refine h.move hi rfl rfl ?_ ?_ ?_ h.stash_nonneg (by simp only; omega) hk ?_ ?_ ?_
  · simp [hpc]
  · simp [hpc]
  · simp [hpc]
  · intro j hj hji
    have hout : (s.frolfer j).inField = 0 := by
      have := h.field_excl hi hj hji.symm
      omega
    have hj := h.frolfers j hj
    cases hjpc : (s.frolfer j).pc <;>
      simp_all [Frolfer.Knows]
  · cases hc : s.cart <;> simp_all [Cart.Knows]
  · have hne : s.cart ≠ .zeroField := by
      intro hc
      simp [hc] at hcart
    simp only [Frolfer.hand, Frolfer.held, hpc, State.uncollected, hne, State.setPc,
      State.setFrolfer, if_false]
    simp
    omega

/-- **A step of a frolfer keeps the invariant.** -/
theorem Inv.frolferStep (h : Inv B n S s) (hi : i < n) (hstep : FrolferStep B i s t) :
    Inv B n S t := by
  have hknows := h.frolfers i hi
  cases hstep with
  | firstLow hpc _ | firstHigh hpc _ | secondLow hpc _ | secondHigh hpc _ | thirdLow hpc _
  | fill hpc | report hpc =>
    refine h.quiet hi ?_ ?_ ?_ ?_ trivial <;>
      simp [hpc]
  | thirdHigh hpc hle =>
    refine h.quiet hi ?_ ?_ ?_ ?_ hle <;>
      simp [hpc]
  | load hpc =>
    simp only [Frolfer.Knows, hpc] at hknows
    refine h.quiet hi ?_ ?_ ?_ ?_ ⟨rfl, hknows⟩ <;>
      simp [hpc]
  | loadField hpc =>
    simp only [Frolfer.Knows, hpc] at hknows
    refine h.quiet hi ?_ ?_ ?_ ?_ ⟨hknows, rfl⟩ <;>
      simp [hpc]
  | empty hpc hle =>
    refine h.quiet hi ?_ ?_ ?_ ?_ trivial <;>
      simp [hpc]
    omega
  | store hpc => exact h.store hi hpc
  | storeField hpc => exact h.storeField hi hpc
  | call hpc hfree =>
    refine h.sync (c := .first) hi rfl rfl rfl rfl ?_ ?_ ?_ trivial ?_ <;>
      simp [hpc, hfree]
  | signal hpc =>
    refine h.sync (c := .await) hi rfl rfl rfl rfl ?_ ?_ ?_ trivial ?_ <;>
      simp [hpc]
    omega
  | await hpc hfull =>
    refine h.sync (c := .second) hi rfl rfl rfl rfl ?_ ?_ ?_ trivial ?_ <;>
      simp [hpc]
    omega
  | giveUp hpc =>
    have hlock := h.stashLock_held hi (by simp [hpc])
    refine h.sync (c := .call) hi rfl rfl rfl rfl ?_ ?_ ?_ trivial ?_ <;>
      simp [hpc, hlock]
  | done hpc =>
    have hlock := h.stashLock_held hi (by simp [hpc])
    by_cases h0 : (s.frolfer i).bucket = 0
    · refine h.sync (c := .call) hi rfl (by rw [if_pos h0]) rfl rfl ?_ ?_ ?_ trivial ?_ <;>
        simp [hpc, hlock]
    · refine h.sync (c := .throw 0) hi rfl (by rw [if_neg h0]) rfl rfl ?_ ?_ ?_ trivial ?_ <;>
        simp [hpc, hlock]
  | throw hpc hlt hfree =>
    refine h.sync (c := .loadField _) hi rfl rfl rfl rfl ?_ ?_ ?_ hlt ?_ <;>
      simp [hpc, hfree]
  | thrown hpc =>
    have hlock := h.fieldLock_held hi (by simp [hpc])
    refine h.sync (c := .throw _) hi rfl rfl rfl rfl ?_ ?_ ?_ trivial ?_ <;>
      simp [hpc, hlock]

/-! ### The steps of the cart -/

/-- **The cart moves:** the invariant is kept if the lock, the permits and the discs balance. -/
theorem Inv.cartMove (h : Inv B n S s) (hf : t.frolfer = s.frolfer)
    (hsl : t.stashLock = s.stashLock)
    (hfl : t.cart.inField + s.fieldLock.toNat = s.cart.inField + t.fieldLock.toNat)
    (hho : t.stashEmpty + t.cart.busy + t.stashFull = s.stashEmpty + s.cart.busy + s.stashFull)
    (hstash : 0 ≤ t.stash) (hfield : 0 ≤ t.discsOnField)
    (hothers : ∀ i < n, (s.frolfer i).Knows B t) (hck : t.cart.Knows t)
    (hcons : t.stash + t.uncollected = s.stash + s.uncollected) : Inv B n S t := by
  obtain ⟨hsl₀, hfl₀, hho₀, -, -, -, -, hcons₀⟩ := h
  exact ⟨by rw [hf, hsl, hsl₀], by rw [hf]; omega, by rw [hf, hho, hho₀], hstash, hfield,
    fun i hi => hf ▸ hothers i hi, hck, by rw [hf, hcons, hcons₀]⟩

/-- The cart moves without writing the stash or the field. -/
theorem Inv.cartSync {c : Cart} (h : Inv B n S s) (hc : t.cart = c) (hf : t.frolfer = s.frolfer)
    (hsl : t.stashLock = s.stashLock) (hstash : t.stash = s.stash)
    (hfield : t.discsOnField = s.discsOnField)
    (hfl : c.inField + s.fieldLock.toNat = s.cart.inField + t.fieldLock.toNat)
    (hho : t.stashEmpty + c.busy + t.stashFull = s.stashEmpty + s.cart.busy + s.stashFull)
    (hne : s.cart ≠ .zeroField) (hne' : c ≠ .zeroField) (hck : c.Knows s) : Inv B n S t := by
  subst hc
  refine h.cartMove hf hsl hfl hho (hstash ▸ h.stash_nonneg) (hfield ▸ h.field_nonneg)
    (fun i hi => (h.frolfers i hi).congr hstash hfield) (hck.congr hstash hfield) ?_
  rw [State.uncollected, State.uncollected, if_neg hne, if_neg hne', hstash, hfield]

/-- The cart writes `STASH`: the only frolfer in the section of `stashLock` waits for it. -/
theorem Inv.storeStash {v d : ℤ} (h : Inv B n S s) (hc : s.cart = .storeStash v d) :
    Inv B n S { s with cart := .zeroField, stash := v + d } := by
  have hknows := h.cart
  simp only [Cart.Knows, hc] at hknows
  obtain ⟨rfl, rfl⟩ := hknows
  have hstash := h.stash_nonneg
  have hfield := h.field_nonneg
  refine h.cartMove rfl rfl (by simp [hc]) (by simp [hc])
    (Int.add_nonneg hstash hfield) hfield ?_ trivial (by simp [State.uncollected, hc])
  intro i hi
  have hi' := h.frolfers i hi
  -- a frolfer that looks at the stash would be in the section with the one that waits
  obtain ⟨k, hk, hkpc, hkin⟩ := h.exists_waiting (by simp [hc])
  by_cases hik : i = k
  · subst hik
    simp [Frolfer.Knows, hkpc]
  · have hout : (s.frolfer i).inStash = 0 := by
      have := h.stash_excl hi hk hik
      omega
    cases hpc : (s.frolfer i).pc <;> simp_all [Frolfer.Knows]

/-- The cart writes `discs_on_field`, in the section of `fieldLock`. -/
theorem Inv.zeroField (h : Inv B n S s) (hc : s.cart = .zeroField) :
    Inv B n S { s with cart := .report, discsOnField := 0 } := by
  refine h.cartMove rfl rfl (by simp [hc]) (by simp [hc]) h.stash_nonneg
    le_rfl ?_ trivial (by simp [State.uncollected, hc])
  intro i hi
  have hi' := h.frolfers i hi
  have hout : (s.frolfer i).inField = 0 := by
    have := h.field_excl_cart hi
    simp only [hc, Cart.inField] at this
    omega
  cases hpc : (s.frolfer i).pc <;> simp_all [Frolfer.Knows]

/-- **A step of the cart keeps the invariant.** -/
theorem Inv.cartStep (h : Inv B n S s) (hstep : CartStep s t) : Inv B n S t := by
  cases hstep with
  | idle hc hk =>
    refine h.cartSync rfl rfl rfl rfl rfl ?_ ?_ (by simp [hc]) (by simp) trivial
    · simp [hc]
    · simp [hc, hk]
  | enter hc hfree =>
    refine h.cartSync rfl rfl rfl rfl rfl ?_ ?_ (by simp [hc]) (by simp) trivial <;>
      simp [hc, hfree]
  | initialStash hc | discsCollected hc | report hc =>
    refine h.cartSync rfl rfl rfl rfl rfl ?_ ?_ (by simp [hc]) (by simp) trivial <;>
      simp [hc]
  | loadStash hc =>
    refine h.cartSync rfl rfl rfl rfl rfl ?_ ?_ (by simp [hc]) (by simp) rfl <;>
      simp [hc]
  | loadField hc =>
    have hknows := h.cart
    simp only [Cart.Knows, hc] at hknows
    refine h.cartSync rfl rfl rfl rfl rfl ?_ ?_ (by simp [hc]) (by simp) ⟨hknows, rfl⟩ <;>
      simp [hc]
  | storeStash hc => exact h.storeStash hc
  | zeroField hc => exact h.zeroField hc
  | leave hc =>
    have hlock : s.fieldLock = true := by
      have := h.fieldLock
      simp only [hc, Cart.inField] at this
      cases hl : s.fieldLock
      · simp [hl] at this
      · rfl
    refine h.cartSync rfl rfl rfl rfl rfl ?_ ?_ (by simp [hc]) (by simp) trivial <;>
      simp [hc, hlock]
  | signal hc =>
    refine h.cartSync rfl rfl rfl rfl rfl ?_ ?_ (by simp [hc]) (by simp) trivial
    · simp [hc]
    · simp only [hc, Cart.busy, reduceCtorEq, if_true, if_false]
      omega

/-- **One step keeps the invariant.** -/
theorem Inv.step {a : Thread} (h : Inv B n S s) (hstep : Step B n s a t) : Inv B n S t := by
  cases hstep with
  | cart hc => exact h.cartStep hc
  | frolfer hi hf => exact h.frolferStep hi hf

theorem inv_init (hS : 0 ≤ S) : Inv B n S (initState S) := by
  refine ⟨?_, ?_, ?_, hS, le_rfl, fun _ _ => trivial, trivial, ?_⟩ <;>
    simp [initState, tally, State.uncollected]

theorem inv_reachable (hS : 0 ≤ S) (hreach : (system B n S).Reachable s) : Inv B n S s := by
  refine hreach.invariant (I := Inv B n S) ?_ fun s a t h hstep => h.step hstep
  rintro _ rfl
  exact inv_init hS

/-- **Discs are conserved.** In every reachable state, the stash, the field and the buckets hold
the initial discs together, unless a frolfer is inside the section of `stashLock`, between its
writes of `STASH` and `bucket`, or the cart inside the section of `fieldLock`, between its writes
of `STASH` and `discs_on_field`; `STASH` is not negative; and if the next step of the cart changes
`STASH`, a frolfer holds `stashLock` and is between `stashEmpty.release()` and
`stashFull.acquire()`, and no other frolfer is in the section of `stashLock`. -/
theorem discs_conserved (hS : 0 ≤ S) (hreach : (system B n S).Reachable s) :
    ((s.stashLock = false ∨ ∀ i < n, (s.frolfer i).pc ≠ .fill) →
      (s.fieldLock = false ∨ s.cart ≠ .zeroField) →
      s.stash + s.discsOnField + tally n Frolfer.held s.frolfer = S) ∧
    0 ≤ s.stash ∧
    ∀ t, CartStep s t → t.stash ≠ s.stash →
      ∃ i < n, (s.frolfer i).pc = .await ∧ s.stashLock = true ∧
        ∀ j < n, j ≠ i → (s.frolfer j).inStash = 0 := by
  have h := inv_reachable hS hreach
  refine ⟨fun hstash hfield => ?_, h.stash_nonneg, fun t hstep hne => ?_⟩
  · have hfill : ∀ i < n, (s.frolfer i).pc ≠ .fill := by
      refine hstash.elim (fun hfree i hi hpc => ?_) id
      have := h.stashLock_held hi (by simp [hpc])
      simp [hfree] at this
    have hcart : s.cart ≠ .zeroField := by
      refine hfield.elim (fun hfree hc => ?_) id
      have := h.fieldLock
      simp [hfree, hc] at this
    have hheld : tally n (Frolfer.hand B) s.frolfer = tally n Frolfer.held s.frolfer :=
      Finset.sum_congr rfl fun i hi => by
        rw [Frolfer.hand, if_neg (hfill i (Finset.mem_range.mp hi)), Nat.add_zero]
    have hcons := h.conserved
    rwa [State.uncollected, if_neg hcart, hheld] at hcons
  · have hbusy : s.cart ≠ .idle := by
      intro hc
      cases hstep <;> simp_all
    obtain ⟨i, hi, hpc, hin⟩ := h.exists_waiting hbusy
    refine ⟨i, hi, hpc, h.stashLock_held hi hin, fun j hj hji => ?_⟩
    have := h.stash_excl hi hj hji.symm
    omega

/-- Conservation at work: one frolfer takes the whole stash of five discs. -/
theorem discs_conserved_bucket : ∃ s, (system 5 1 5).Reachable s ∧ s.stash = 0 ∧
    (s.frolfer 0).held = 5 ∧ s.stash + s.discsOnField + tally 1 Frolfer.held s.frolfer = 5 := by
  have h0 : (system 5 1 5).Reachable (initState 5) := .init rfl
  have h1 := h0.step (.frolfer (i := 0) (by decide) (.call rfl rfl))
  have h2 := h1.step (.frolfer (i := 0) (by decide) (.firstHigh rfl (by decide)))
  have h3 := h2.step (.frolfer (i := 0) (by decide) (.secondHigh rfl (by decide)))
  have h4 := h3.step (.frolfer (i := 0) (by decide) (.thirdHigh rfl (by decide)))
  have h5 := h4.step (.frolfer (i := 0) (by decide) (.load rfl))
  have h6 := h5.step (.frolfer (i := 0) (by decide) (.store rfl))
  have h7 := h6.step (.frolfer (i := 0) (by decide) (.fill rfl))
  have h8 := h7.step (.frolfer (i := 0) (by decide) (.report rfl))
  have h9 := h8.step (.frolfer (i := 0) (by decide) (.done rfl))
  exact ⟨_, h9, rfl, rfl, (discs_conserved (by decide) h9).1 (.inl rfl) (.inl rfl)⟩

end Invariant

end Xv6.DiscGolf
