import Mathlib

/-!
# Ring Buffers with Free-Running Counters

A ring buffer of `N` cells that counts what was put and what was taken, where the counters wrap
around at `M`. The cell of a count is its remainder modulo `N`, so the buffer works across the
wrap-around when `N` divides `M`; it can tell a full buffer from an empty one when `N < M`.

`RingBuffer.Holds r q` says that the buffer holds the queue `q`. The operations are those of the
queue.

## Main results

* `RingBuffer.Holds.isEmpty_iff`, `RingBuffer.Holds.isFull_iff`: the tests of the counters.
* `RingBuffer.Holds.put`, `RingBuffer.Holds.front`, `RingBuffer.Holds.advance`,
  `RingBuffer.Holds.unput`: the operations.
* `RingBuffer.Holds.segment_eq`: the queue, piece by piece, from the counters.
-/

/-- A ring buffer. -/
structure RingBuffer (α : Type*) where
  data : ℕ → α
  nread : ℕ
  nwrite : ℕ

namespace RingBuffer

variable {α : Type*} (N M : ℕ)

/-- Nothing has been put that was not taken. -/
def isEmpty (r : RingBuffer α) : Bool := r.nread = r.nwrite

/-- All cells are in use. -/
def isFull (r : RingBuffer α) : Bool := r.nwrite = (r.nread + N) % M

/-- Store `x` in the next cell. -/
def put (r : RingBuffer α) (x : α) : RingBuffer α :=
  { r with data := Function.update r.data (r.nwrite % N) x, nwrite := (r.nwrite + 1) % M }

/-- The oldest element. -/
def front (r : RingBuffer α) : α := r.data (r.nread % N)

/-- Give up the oldest element. -/
def advance (r : RingBuffer α) : RingBuffer α := { r with nread := (r.nread + 1) % M }

/-- Take back what was put last. -/
def unput (r : RingBuffer α) : RingBuffer α := { r with nwrite := (r.nwrite + (M - 1)) % M }

/-- The elements from the count `i` up to the count `j`. -/
def segment (data : ℕ → α) (i j : ℕ) : List α :=
  (List.range ((j + (M - i)) % M)).map fun k => data ((i + k) % N)

/-- The buffer holds the queue `q`. -/
structure Holds (r : RingBuffer α) (q : List α) : Prop where
  nread_lt : r.nread < M
  nwrite : r.nwrite = (r.nread + q.length) % M
  length_le : q.length ≤ N
  cell : ∀ i x, q[i]? = some x → r.data ((r.nread + i) % N) = x

variable {N M}

/-- Different distances from one point below a modulus lead to different remainders. -/
theorem add_mod_inj {a b c m : ℕ} (hb : b < m) (hc : c < m) :
    (a + b) % m = (a + c) % m ↔ b = c := by
  constructor
  · intro h
    have h' : b ≡ c [MOD m] := Nat.ModEq.add_left_cancel' a h
    exact h'.eq_of_lt_of_lt hb hc
  · rintro rfl
    rfl

/-- An empty buffer. -/
theorem holds_nil {r : RingBuffer α} (hM : r.nread < M) (h : r.nwrite = r.nread) :
    Holds N M r [] where
  nread_lt := hM
  nwrite := by rw [h, List.length_nil, Nat.add_zero, Nat.mod_eq_of_lt hM]
  length_le := Nat.zero_le N
  cell i x h := by simp at h

namespace Holds

variable {r : RingBuffer α} {q : List α} {x : α}

/-- The test for an empty buffer. -/
theorem isEmpty_iff (h : Holds N M r q) (hNM : N < M) : r.isEmpty = true ↔ q = [] := by
  have hlen : q.length < M := lt_of_le_of_lt h.length_le hNM
  have hpos : 0 < M := by omega
  have hread : r.nread = (r.nread + 0) % M := by rw [Nat.add_zero, Nat.mod_eq_of_lt h.nread_lt]
  rw [isEmpty, decide_eq_true_iff, h.nwrite]
  nth_rewrite 1 [hread]
  rw [add_mod_inj hpos hlen, eq_comm, List.length_eq_zero_iff]

theorem isFull_iff (h : Holds N M r q) (hNM : N < M) : r.isFull N M = true ↔ q.length = N := by
  have hlen : q.length < M := lt_of_le_of_lt h.length_le hNM
  rw [isFull, decide_eq_true_iff, h.nwrite, add_mod_inj hlen hNM]

/-- The distance of the counters is the length of the queue. -/
theorem sub_mod (h : Holds N M r q) (hNM : N < M) :
    (r.nwrite + (M - r.nread)) % M = q.length := by
  have hlen : q.length < M := lt_of_le_of_lt h.length_le hNM
  have hsum : r.nread + q.length + (M - r.nread) = q.length + M := by
    have := h.nread_lt
    omega
  rw [h.nwrite, Nat.mod_add_mod, hsum, Nat.add_mod_right, Nat.mod_eq_of_lt hlen]

/-- **Putting an element** appends it to the queue. -/
theorem put (h : Holds N M r q) (hdvd : N ∣ M) (hlt : q.length < N) (x : α) :
    Holds N M (r.put N M x) (q ++ [x]) where
  nread_lt := h.nread_lt
  nwrite := by
    rw [List.length_append, List.length_singleton, ← Nat.add_assoc]
    change (r.nwrite + 1) % M = _
    rw [h.nwrite, Nat.mod_add_mod]
    rfl
  length_le := by
    rw [List.length_append, List.length_singleton]
    exact hlt
  cell i y hy := by
    have hcell : r.nwrite % N = (r.nread + q.length) % N := by
      rw [h.nwrite, Nat.mod_mod_of_dvd _ hdvd]
    change Function.update r.data (r.nwrite % N) x ((r.nread + i) % N) = y
    rw [hcell]
    rcases lt_or_ge i q.length with hi | hi
    · -- an older element: its cell is not the one that is written
      have hne : (r.nread + i) % N ≠ (r.nread + q.length) % N := by
        rw [Ne, add_mod_inj (hi.trans hlt) hlt]
        exact hi.ne
      rw [Function.update_of_ne hne]
      exact h.cell i y (by rwa [List.getElem?_append_left hi] at hy)
    · rw [List.getElem?_append_right hi] at hy
      obtain ⟨hi', rfl⟩ : i - q.length = 0 ∧ x = y := by
        rcases Nat.eq_zero_or_pos (i - q.length) with h0 | h0
        · rw [h0] at hy
          exact ⟨h0, by simpa using hy⟩
        · rw [List.getElem?_eq_none (by simpa using Nat.succ_le_of_lt h0)] at hy
          cases hy
      rw [show i = q.length by omega, Function.update_self]

/-- The oldest element is the head of the queue. -/
theorem front (h : Holds N M r (x :: q)) : r.front N = x := h.cell 0 x rfl

/-- **Giving up the oldest element** takes it off the queue. -/
theorem advance (h : Holds N M r (x :: q)) (hdvd : N ∣ M) : Holds N M (r.advance M) q where
  nread_lt := Nat.mod_lt _ (lt_of_le_of_lt (Nat.zero_le _) h.nread_lt)
  nwrite := by
    have hlen : r.nread + (x :: q).length = r.nread + 1 + q.length := by
      rw [List.length_cons]
      omega
    change r.nwrite = ((r.nread + 1) % M + q.length) % M
    rw [h.nwrite, hlen, Nat.mod_add_mod]
  length_le := (Nat.le_succ _).trans h.length_le
  cell i y hy := by
    change r.data (((r.nread + 1) % M + i) % N) = y
    have hidx : ((r.nread + 1) % M + i) % N = (r.nread + (i + 1)) % N := by
      rw [Nat.add_mod, Nat.mod_mod_of_dvd _ hdvd, ← Nat.add_mod, Nat.add_assoc, Nat.add_comm 1 i]
    rw [hidx]
    exact h.cell (i + 1) y hy

/-- The count before the one of the next cell. -/
theorem nwrite_pred (h : Holds N M r (q ++ [x])) :
    (r.nwrite + (M - 1)) % M = (r.nread + q.length) % M := by
  have hpos : 0 < M := lt_of_le_of_lt (Nat.zero_le _) h.nread_lt
  have hsum : r.nread + (q ++ [x]).length + (M - 1) = r.nread + q.length + M := by
    rw [List.length_append, List.length_singleton]
    omega
  rw [h.nwrite, Nat.mod_add_mod, hsum, Nat.add_mod_right]

/-- The youngest element. -/
theorem last (h : Holds N M r (q ++ [x])) (hdvd : N ∣ M) :
    r.data ((r.nwrite + (M - 1)) % M % N) = x := by
  rw [h.nwrite_pred, Nat.mod_mod_of_dvd _ hdvd]
  exact h.cell q.length x (by simp)

/-- **Taking back the youngest element.** -/
theorem unput (h : Holds N M r (q ++ [x])) : Holds N M (r.unput M) q where
  nread_lt := h.nread_lt
  nwrite := h.nwrite_pred
  length_le := by
    have := h.length_le
    rw [List.length_append] at this
    omega
  cell i y hy := by
    refine h.cell i y ?_
    obtain ⟨hi, -⟩ := List.getElem?_eq_some_iff.mp hy
    rwa [List.getElem?_append_left hi]

/-- A piece of the queue. -/
theorem segment_eq {q₁ q₂ q₃ : List α} (h : Holds N M r (q₁ ++ q₂ ++ q₃)) (hdvd : N ∣ M)
    (hNM : N < M) :
    segment N M r.data ((r.nread + q₁.length) % M) ((r.nread + (q₁ ++ q₂).length) % M) = q₂ := by
  have hlen := h.length_le
  rw [List.length_append, List.length_append] at hlen
  have hdist : ((r.nread + (q₁ ++ q₂).length) % M + (M - (r.nread + q₁.length) % M)) % M =
      q₂.length := by
    have hlt : (r.nread + q₁.length) % M < M := Nat.mod_lt _ (by omega)
    have hmod : (r.nread + (q₁ ++ q₂).length) % M =
        ((r.nread + q₁.length) % M + q₂.length) % M := by
      rw [Nat.mod_add_mod, List.length_append, Nat.add_assoc]
    have hsum : (r.nread + q₁.length) % M + q₂.length + (M - (r.nread + q₁.length) % M) =
        q₂.length + M := by omega
    rw [hmod, Nat.mod_add_mod, hsum, Nat.add_mod_right, Nat.mod_eq_of_lt (by omega)]
  rw [segment, hdist]
  refine List.ext_getElem (by simp) fun k h1 h2 => ?_
  rw [List.getElem_map, List.getElem_range]
  have hidx : ((r.nread + q₁.length) % M + k) % N = (r.nread + (q₁.length + k)) % N := by
    rw [Nat.add_mod, Nat.mod_mod_of_dvd _ hdvd, ← Nat.add_mod, Nat.add_assoc]
  rw [hidx]
  refine h.cell _ _ ?_
  rw [List.append_assoc, List.getElem?_append_right (Nat.le_add_right _ _),
    Nat.add_sub_cancel_left, List.getElem?_append_left h2, List.getElem?_eq_getElem]

end Holds

end RingBuffer
