import Mathlib

/-!
# Singly Linked Queues

A queue of nodes linked through a `next` pointer each, with a pointer to its head. An element is
appended by walking along the pointers to the cell that holds the null pointer, and taken off at
the head. `LinkedQueue.Holds L q` says that the pointers lead through the elements `q`, each of
them once.

## Main results

* `LinkedQueue.Holds.append`: appending, which ends within as many rounds as there are elements.
* `LinkedQueue.Holds.pop`: taking off the head.
-/

/-- The pointers of a queue. -/
structure LinkedQueue (α : Type*) where
  head : Option α
  next : α → Option α

namespace LinkedQueue

variable {α : Type*}

/-- The pointer in a cell: that of the queue, or that of a node. -/
def cell (L : LinkedQueue α) : Option α → Option α
  | none => L.head
  | some a => L.next a

/-- The cell that holds the null pointer, within `k` rounds. -/
def findEnd (L : LinkedQueue α) : ℕ → Option α → Option (Option α)
  | 0, _ => none
  | k + 1, c =>
    match L.cell c with
    | none => some c
    | some a => L.findEnd k (some a)

/-- Take off the head `b`. -/
def pop (L : LinkedQueue α) (b : α) : LinkedQueue α := { L with head := L.next b }

section Ops

variable [DecidableEq α]

/-- Store a pointer in a cell. -/
def setCell (L : LinkedQueue α) (c v : Option α) : LinkedQueue α :=
  match c with
  | none => { L with head := v }
  | some a => { L with next := Function.update L.next a v }

/-- Append `b`, within `k` rounds. -/
def append (L : LinkedQueue α) (k : ℕ) (b : α) : Option (LinkedQueue α) :=
  let L := L.setCell (some b) none
  (L.findEnd k none).map fun c => L.setCell c (some b)

end Ops

/-- The pointers lead from `a` through the elements `q` to the null pointer. -/
def Path (next : α → Option α) : Option α → List α → Prop
  | a, [] => a = none
  | a, x :: q => a = some x ∧ Path next (next x) q

/-- **The queue holds `q`.** -/
structure Holds (L : LinkedQueue α) (q : List α) : Prop where
  nodup : q.Nodup
  path : Path L.next L.head q

variable {L : LinkedQueue α} {next next' : α → Option α} {a : Option α} {b x : α} {q : List α}

/-- A path depends on the links of its nodes. -/
theorem Path.congr (h : Path next a q) (heq : ∀ x ∈ q, next' x = next x) : Path next' a q := by
  induction q generalizing a with
  | nil => exact h
  | cons x q ih =>
    obtain ⟨ha, hq⟩ := h
    refine ⟨ha, ih ?_ fun y hy => heq y (List.mem_cons_of_mem x hy)⟩
    rwa [heq x List.mem_cons_self]

/-- The walk ends at the last element, or where it started if there is none. -/
theorem findEnd_eq {c : Option α} {k : ℕ} (h : Path L.next (L.cell c) q) (hk : q.length < k) :
    L.findEnd k c = some (q.getLast?.or c) := by
  induction q generalizing c k with
  | nil =>
    obtain ⟨k, rfl⟩ := Nat.exists_eq_add_one.mpr hk
    rw [findEnd, show L.cell c = none from h]
    rfl
  | cons x q ih =>
    obtain ⟨ha, hq⟩ := h
    obtain ⟨k, rfl⟩ := Nat.exists_eq_add_one.mpr (Nat.lt_of_le_of_lt (Nat.zero_le _) hk)
    rw [List.length_cons, Nat.add_lt_add_iff_right] at hk
    have hrest : L.findEnd k (some x) = some (q.getLast?.or (some x)) := ih hq hk
    rw [findEnd, ha]
    dsimp only
    rw [hrest]
    cases hl : q.getLast? with
    | none => simp [List.getLast?_eq_none_iff.mp hl]
    | some y => simp [List.getLast?_cons, hl]

/-- Linking a new last element to the old one. -/
theorem Path.snoc [DecidableEq α] (h : Path next a (q ++ [x])) (hx : x ∉ q) (hb : b ∉ q)
    (hxb : x ≠ b) (hnext : next b = none) :
    Path (Function.update next x (some b)) a (q ++ [x] ++ [b]) := by
  induction q generalizing a with
  | nil =>
    obtain ⟨ha, -⟩ := h
    refine ⟨ha, ?_, ?_⟩
    · rw [Function.update_self]
    · rwa [Function.update_of_ne hxb.symm]
  | cons y q ih =>
    obtain ⟨ha, hq⟩ := h
    obtain ⟨hxy, hxq⟩ := not_or.mp (List.mem_cons.not.mp hx)
    obtain ⟨-, hbq⟩ := not_or.mp (List.mem_cons.not.mp hb)
    refine ⟨ha, ?_⟩
    rw [Function.update_of_ne (Ne.symm hxy)]
    exact ih hq hxq hbq

theorem holds_nil (h : L.head = none) : L.Holds [] := ⟨List.nodup_nil, h⟩

namespace Holds

theorem head_eq (h : L.Holds q) : L.head = q.head? := by
  cases q with
  | nil => exact h.path
  | cons x q => exact h.path.1

/-- **Taking off the head.** -/
theorem pop (h : L.Holds (b :: q)) : (L.pop b).Holds q :=
  ⟨(List.nodup_cons.mp h.nodup).2, h.path.2⟩

/-- **Appending an element.** -/
theorem append [DecidableEq α] {k : ℕ} (h : L.Holds q) (hb : b ∉ q) (hk : q.length < k) :
    ∃ L', L.append k b = some L' ∧ L'.Holds (q ++ [b]) := by
  have hpath : Path (L.setCell (some b) none).next ((L.setCell (some b) none).cell none) q :=
    h.path.congr fun x hx => Function.update_of_ne (ne_of_mem_of_not_mem hx hb) _ _
  have hnull : (L.setCell (some b) none).next b = none := Function.update_self ..
  have hend := findEnd_eq hpath hk
  rw [Option.or_none] at hend
  refine ⟨_, by rw [LinkedQueue.append, hend]; rfl, ?_, ?_⟩
  · refine List.nodup_append.mpr ⟨h.nodup, List.nodup_singleton b, fun x hx y hy he => hb ?_⟩
    rwa [← List.mem_singleton.mp hy, ← he]
  · rcases List.eq_nil_or_concat q with rfl | ⟨q, x, rfl⟩
    · exact ⟨rfl, hnull⟩
    · rw [List.concat_eq_append] at *
      have hnodup := List.nodup_append.mp h.nodup
      obtain ⟨hbq, hbx⟩ : b ∉ q ∧ b ≠ x := by simpa [not_or] using hb
      rw [List.getLast?_concat]
      refine hpath.snoc (fun hx => ?_) hbq (Ne.symm hbx) hnull
      exact hnodup.2.2 x hx x (List.mem_singleton_self x) rfl

end Holds

end LinkedQueue
