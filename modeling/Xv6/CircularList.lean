import Mathlib

/-!
# Circular Doubly Linked Lists

Nodes linked in a circle through a `next` and a `prev` pointer each, with a head node that is no
element. The operations are assignments to single pointers, in the order in which a program makes
them; `Linked L xs` says that the pointers form the circle that passes through the elements `xs`.

## Main results

* `Linked.insertFront`, `Linked.unlink`: the operations keep the circle.
* `Linked.find_next`, `Linked.find_prev`: a search along the pointers is a search in the list, from
  the front or from the back.
-/

/-- The pointers of the nodes; `none` is the head node. -/
structure Links (α : Type*) where
  next : Option α → Option α
  prev : Option α → Option α

open Function (update update_of_ne update_self)

namespace Links

variable {α : Type*}

/-- The head node points to itself. -/
def empty : Links α := ⟨fun _ => none, fun _ => none⟩

section Ops

variable [DecidableEq α]

/-- `a->next = c`. -/
def setNext (L : Links α) (a c : Option α) : Links α :=
  { L with next := update L.next a c }

/-- `c->prev = a`. -/
def setPrev (L : Links α) (c a : Option α) : Links α :=
  { L with prev := update L.prev c a }

/-- Put node `b` after the head. -/
def insertFront (L : Links α) (b : α) : Links α :=
  let L := L.setNext (some b) (L.next none)
  let L := L.setPrev (some b) none
  let L := L.setPrev (L.next none) (some b)
  L.setNext none (some b)

/-- Take node `b` out. -/
def unlink (L : Links α) (b : α) : Links α :=
  let L := L.setPrev (L.next (some b)) (L.prev (some b))
  L.setNext (L.prev (some b)) (L.next (some b))

end Ops

/-- The first node with `P` along the pointers `step`, from node `a` up to the head, within `k`
nodes. -/
def find (step : Option α → Option α) (P : α → Bool) : ℕ → Option α → Option α
  | 0, _ => none
  | _ + 1, none => none
  | k + 1, some a => if P a then some a else find step P k (step (some a))

/-- The pointers lead from node `a` through the elements `xs` to node `c` and back. -/
def Seg (L : Links α) : Option α → List α → Option α → Prop
  | a, [], c => L.next a = c ∧ L.prev c = a
  | a, x :: xs, c => (L.next a = some x ∧ L.prev (some x) = a) ∧ L.Seg (some x) xs c

/-- **The pointers form a circle** through the head and the elements `xs`, each of them once. -/
structure Linked (L : Links α) (xs : List α) : Prop where
  nodup : xs.Nodup
  seg : L.Seg none xs none

variable {L L' : Links α} {a c : Option α} {b : α} {xs ys : List α}

theorem seg_append : L.Seg a (xs ++ b :: ys) c ↔ L.Seg a xs (some b) ∧ L.Seg (some b) ys c := by
  induction xs generalizing a with
  | nil => rfl
  | cons x xs ih => simp only [List.cons_append, Seg, ih, and_assoc]

/-- A segment is where its pointers are unchanged. -/
theorem Seg.congr (h : L.Seg a xs c) (ha : L'.next a = L.next a)
    (hn : ∀ x ∈ xs, L'.next (some x) = L.next (some x))
    (hp : ∀ x ∈ xs, L'.prev (some x) = L.prev (some x)) (hc : L'.prev c = L.prev c) :
    L'.Seg a xs c := by
  induction xs generalizing a with
  | nil => exact ⟨ha.trans h.1, hc.trans h.2⟩
  | cons x xs ih =>
    obtain ⟨⟨h1, h2⟩, h3⟩ := h
    refine ⟨⟨ha.trans h1, (hp x (by simp)).trans h2⟩, ih h3 (hn x (by simp)) ?_ ?_⟩
    · exact fun y hy => hn y (List.mem_cons_of_mem x hy)
    · exact fun y hy => hp y (List.mem_cons_of_mem x hy)

/-- The same segment, seen from its end. -/
theorem Seg.reverse (h : L.Seg a xs c) : Seg ⟨L.prev, L.next⟩ c xs.reverse a := by
  induction xs generalizing a with
  | nil => exact ⟨h.2, h.1⟩
  | cons x xs ih =>
    obtain ⟨⟨h1, h2⟩, h3⟩ := h
    rw [List.reverse_cons, seg_append]
    exact ⟨ih h3, h2, h1⟩

/-- The last node before the end of a segment. -/
theorem Seg.prev_end (h : L.Seg a xs c) : L.prev c = a ∨ ∃ x ∈ xs, L.prev c = some x := by
  induction xs generalizing a with
  | nil => exact Or.inl h.2
  | cons x xs ih =>
    rcases ih h.2 with he | ⟨y, hy, he⟩
    · exact Or.inr ⟨x, by simp, he⟩
    · exact Or.inr ⟨y, List.mem_cons_of_mem x hy, he⟩

/-- A segment up to node `b` becomes one up to node `c` when its last node is linked to `c`. -/
theorem Seg.relink (h : L.Seg a xs (some b)) (hnodup : xs.Nodup) (ha : ∀ x ∈ xs, a ≠ some x)
    (hn : ∀ x, x ≠ L.prev (some b) → L'.next x = L.next x)
    (hp : ∀ x ∈ xs, L'.prev (some x) = L.prev (some x))
    (hlast : L'.next (L.prev (some b)) = c) (hc : L'.prev c = L.prev (some b)) :
    L'.Seg a xs c := by
  induction xs generalizing a with
  | nil =>
    obtain ⟨-, h2⟩ := h
    rw [h2] at hlast hc
    exact ⟨hlast, hc⟩
  | cons x xs ih =>
    obtain ⟨⟨h1, h2⟩, h3⟩ := h
    obtain ⟨hx, hnodup⟩ := List.nodup_cons.mp hnodup
    have hxs (y : α) (hy : y ∈ xs) : some x ≠ some y := fun he => hx (Option.some.inj he ▸ hy)
    refine ⟨⟨?_, (hp x (by simp)).trans h2⟩,
      ih h3 hnodup hxs fun y hy => hp y (List.mem_cons_of_mem x hy)⟩
    rw [hn a, h1]
    rcases h3.prev_end with he | ⟨y, hy, he⟩
    · rw [he]
      exact ha x (by simp)
    · rw [he]
      exact ha y (List.mem_cons_of_mem x hy)

/-- A search along the pointers. -/
theorem Seg.find_next (h : L.Seg a xs none) (P : α → Bool) {k : ℕ} (hk : xs.length < k) :
    find L.next P k (L.next a) = xs.find? P := by
  induction xs generalizing a k with
  | nil =>
    rw [h.1]
    cases k <;> rfl
  | cons x xs ih =>
    obtain ⟨⟨h1, -⟩, h3⟩ := h
    obtain ⟨k, rfl⟩ : ∃ j, k = j + 1 := ⟨k - 1, by omega⟩
    rw [h1, find, List.find?_cons, ih h3 (by simpa using hk)]
    cases P x <;> rfl

theorem Linked.find_next (h : L.Linked xs) (P : α → Bool) {k : ℕ} (hk : xs.length < k) :
    find L.next P k (L.next none) = xs.find? P :=
  h.seg.find_next P hk

theorem Linked.find_prev (h : L.Linked xs) (P : α → Bool) {k : ℕ} (hk : xs.length < k) :
    find L.prev P k (L.prev none) = xs.reverse.find? P :=
  h.seg.reverse.find_next P (by simpa using hk)

theorem linked_empty : (empty : Links α).Linked [] := ⟨List.nodup_nil, rfl, rfl⟩

section Circle

variable [DecidableEq α]

/-- **A new node at the front.** -/
theorem Linked.insertFront (h : L.Linked xs) (hb : b ∉ xs) :
    (L.insertFront b).Linked (b :: xs) := by
  refine ⟨List.nodup_cons.mpr ⟨hb, h.nodup⟩, ?_⟩
  obtain ⟨hnodup, hseg⟩ := h
  cases xs with
  | nil =>
    obtain ⟨h1, h2⟩ := hseg
    simp [Links.insertFront, setNext, setPrev, Seg, h1]
  | cons x xs =>
    obtain ⟨⟨h1, h2⟩, h3⟩ := hseg
    obtain ⟨hx, -⟩ := List.nodup_cons.mp hnodup
    have hbx : b ≠ x := fun he => hb (by simp [he])
    refine ⟨⟨?_, ?_⟩, ⟨?_, ?_⟩, h3.congr ?_ (fun y hy => ?_) (fun y hy => ?_) ?_⟩
    · simp [Links.insertFront, setNext, setPrev]
    · simp [Links.insertFront, setNext, setPrev, h1, hbx]
    · simp [Links.insertFront, setNext, setPrev, h1]
    · simp [Links.insertFront, setNext, setPrev, h1]
    · simp [Links.insertFront, setNext, setPrev, hbx.symm]
    · have hyb : y ≠ b := fun he => hb (he ▸ List.mem_cons_of_mem x hy)
      simp [Links.insertFront, setNext, setPrev, hyb]
    · have hyb : y ≠ b := fun he => hb (he ▸ List.mem_cons_of_mem x hy)
      have hyx : y ≠ x := fun he => hx (he ▸ hy)
      simp [Links.insertFront, setNext, setPrev, h1, hyb, hyx]
    · simp [Links.insertFront, setNext, setPrev, h1]

theorem unlink_next : (L.unlink b).next =
    update L.next (L.prev (some b)) (L.next (some b)) := by
  by_cases hb : L.next (some b) = some b <;> simp [Links.unlink, setNext, setPrev, hb]
  rw [update_of_ne (Ne.symm hb)]

theorem unlink_prev : (L.unlink b).prev =
    update L.prev (L.next (some b)) (L.prev (some b)) := rfl

/-- **Taking out a node.** -/
theorem Linked.unlink (h : L.Linked (xs ++ b :: ys)) : (L.unlink b).Linked (xs ++ ys) := by
  obtain ⟨hnodup, hseg⟩ := h
  obtain ⟨hfront, hback⟩ := seg_append.mp hseg
  obtain ⟨hxs, hbys, hne⟩ := List.nodup_append.mp hnodup
  obtain ⟨hb, hys⟩ := List.nodup_cons.mp hbys
  have hne' (x : α) (hx : x ∈ xs) (y : α) (hy : y ∈ ys) : x ≠ y :=
    hne x hx y (List.mem_cons_of_mem b hy)
  -- the nodes of the front part keep their pointers, except that the last one skips `b`
  have hskip (hnx : ∀ x ∈ xs, some x ≠ L.next (some b)) :
      (L.unlink b).Seg none xs (L.next (some b)) := by
    refine hfront.relink hxs (fun x _ => by simp) (fun x hx => ?_) (fun x hx => ?_) ?_ ?_
    · rw [unlink_next, update_of_ne hx]
    · rw [unlink_prev, update_of_ne (hnx x hx)]
    · rw [unlink_next, update_self]
    · rw [unlink_prev, update_self]
  refine ⟨List.nodup_append.mpr ⟨hxs, hys, hne'⟩, ?_⟩
  cases ys with
  | nil =>
    rw [hback.1] at hskip
    rw [List.append_nil]
    exact hskip fun x _ => by simp
  | cons y ys =>
    obtain ⟨⟨h1, -⟩, h3⟩ := hback
    rw [h1] at hskip
    have hlast (z : α) (hz : z ∈ y :: ys) : some z ≠ L.prev (some b) := by
      rcases hfront.prev_end with he | ⟨x, hx, he⟩
      · simp [he]
      · rw [he]
        exact fun h => hne' x hx z hz (Option.some.inj h).symm
    obtain ⟨hy, -⟩ := List.nodup_cons.mp hys
    refine seg_append.mpr ⟨hskip fun x hx h => hne' x hx y (by simp) (Option.some.inj h),
      h3.congr ?_ (fun z hz => ?_) (fun z hz => ?_) ?_⟩
    · rw [unlink_next, update_of_ne (hlast y (by simp))]
    · rw [unlink_next, update_of_ne (hlast z (List.mem_cons_of_mem y hz))]
    · have hzy : some z ≠ some y := fun h => hy (Option.some.inj h ▸ hz)
      rw [unlink_prev, h1, update_of_ne hzy]
    · rw [unlink_prev, h1, update_of_ne (by simp)]

/-- **Moving a node to the front.** -/
theorem Linked.moveFront (h : L.Linked xs) (hb : b ∈ xs) :
    ∃ ys, ((L.unlink b).insertFront b).Linked ys ∧ ∀ x, x ∈ ys ↔ x ∈ xs := by
  obtain ⟨us, vs, rfl⟩ := List.append_of_mem hb
  have hnot : b ∉ us ++ vs := by
    have := h.nodup
    rw [List.nodup_middle] at this
    exact (List.nodup_cons.mp this).1
  refine ⟨_, h.unlink.insertFront hnot, fun x => ?_⟩
  simp only [List.mem_cons, List.mem_append]
  tauto

end Circle

end Links
