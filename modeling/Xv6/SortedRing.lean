import Mathlib

/-!
# Rings of Ordered Nodes

Nodes linked in a circle through one `next` pointer each, in the order of the nodes: each node
points to the next larger one, and the largest to the smallest. A search for the place of a new
element can start at any node.

## Main results

* `Ring.search`: a search along the pointers ends within one round.
* `Ring.place`: where the search for the place of an element stops, the element is to be inserted.
* `Ring.insert`, `Ring.remove`: a new node, and a node less.
-/

namespace SortedRing

variable {α : Type*}

/-- The pointers lead from `a` through the nodes `xs` to `c`. -/
def Path (next : α → α) : α → List α → α → Prop
  | a, [], c => next a = c
  | a, x :: xs, c => next a = x ∧ Path next x xs c

/-- **The pointers form a circle** through the nodes of the list, in this order. -/
def Ring (next : α → α) : List α → Prop
  | [] => False
  | b :: xs => Path next b xs b

/-- The first node `p` along the pointers with `P p (next p)`, within `k` nodes. -/
def search (next : α → α) (P : α → α → Bool) : ℕ → α → Option α
  | 0, _ => none
  | k + 1, p => if P p (next p) then some p else search next P k (next p)

variable {next next' : α → α} {a a' b c r x : α} {xs ys us vs : List α}

theorem path_append : Path next a (xs ++ b :: ys) c ↔ Path next a xs b ∧ Path next b ys c := by
  induction xs generalizing a with
  | nil => rfl
  | cons x xs ih => simp only [List.cons_append, Path, ih, and_assoc]

/-- A path is where its pointers are the same. -/
theorem Path.congr (h : Path next a xs c) (ha : next' a' = next a)
    (hxs : ∀ x ∈ xs, next' x = next x) : Path next' a' xs c := by
  induction xs generalizing a a' with
  | nil => exact ha.trans h
  | cons x xs ih =>
    obtain ⟨h1, h2⟩ := h
    exact ⟨ha.trans h1, ih h2 (hxs x List.mem_cons_self) fun y hy =>
      hxs y (List.mem_cons_of_mem x hy)⟩

/-- The circle, seen from another node. -/
theorem Ring.rotate (h : Ring next (us ++ r :: vs)) : Path next r (vs ++ us) r := by
  cases us with
  | nil =>
    rw [List.append_nil]
    exact h
  | cons b us =>
    obtain ⟨hus, hvs⟩ := path_append.mp h
    exact path_append.mpr ⟨hvs, hus⟩

theorem Ring.congr (h : Ring next xs) (heq : ∀ x ∈ xs, next' x = next x) : Ring next' xs := by
  match xs, h with
  | b :: xs, h =>
    exact Path.congr h (heq b List.mem_cons_self) fun x hx => heq x (List.mem_cons_of_mem b hx)

/-- Where a node points to. -/
theorem Ring.next_eq (h : Ring next (us ++ r :: vs)) :
    next r = (vs.head?.or us.head?).getD r := by
  have hpath := h.rotate
  cases vs with
  | cons v vs => exact hpath.1
  | nil =>
    cases us with
    | nil => exact hpath
    | cons u us => exact hpath.1

/-- A path back to its start passes every node at which the search may end. -/
theorem Path.search {P : α → α → Bool} {k : ℕ} (h : Path next a xs c) (hb : b ∈ a :: xs)
    (hP : P b (next b) = true) (hk : xs.length < k) :
    ∃ r ∈ a :: xs, search next P k a = some r ∧ P r (next r) = true := by
  induction xs generalizing a k with
  | nil =>
    obtain ⟨k, rfl⟩ : ∃ j, k = j + 1 := ⟨k - 1, by omega⟩
    obtain rfl := List.mem_singleton.mp hb
    exact ⟨b, hb, by rw [SortedRing.search, if_pos hP], hP⟩
  | cons x xs ih =>
    obtain ⟨k, rfl⟩ : ∃ j, k = j + 1 := ⟨k - 1, by omega⟩
    obtain ⟨hx, hxs⟩ := h
    by_cases ha : P a (next a) = true
    · exact ⟨a, List.mem_cons_self, by rw [SortedRing.search, if_pos ha], ha⟩
    · have hb' : b ∈ x :: xs := by
        refine (List.mem_cons.mp hb).resolve_left ?_
        rintro rfl
        exact ha hP
      obtain ⟨r, hr, hfind, hPr⟩ := ih hxs hb' (Nat.lt_of_succ_lt_succ hk)
      refine ⟨r, List.mem_cons_of_mem a hr, ?_, hPr⟩
      rw [SortedRing.search, if_neg ha, hx, hfind]

/-- More nodes to look at change nothing once the search has ended. -/
theorem search_mono {P : α → α → Bool} {k m : ℕ} (h : search next P k a = some r) (hkm : k ≤ m) :
    search next P m a = some r := by
  induction k generalizing a m with
  | zero => cases h
  | succ k ih =>
    obtain ⟨m, rfl⟩ : ∃ j, m = j + 1 := ⟨m - 1, by omega⟩
    rw [search] at h ⊢
    split_ifs at h ⊢ with hP
    · exact h
    · exact ih h (by omega)

/-- **A search ends within one round.** -/
theorem Ring.search {P : α → α → Bool} {k : ℕ} (h : Ring next xs) (ha : a ∈ xs) (hb : b ∈ xs)
    (hP : P b (next b) = true) (hk : xs.length ≤ k) :
    ∃ r ∈ xs, search next P k a = some r ∧ P r (next r) = true := by
  obtain ⟨us, vs, rfl⟩ := List.append_of_mem ha
  have hmem : ∀ y, y ∈ a :: (vs ++ us) ↔ y ∈ us ++ a :: vs := by
    intro y
    simp only [List.mem_cons, List.mem_append]
    tauto
  obtain ⟨r, hr, hfind⟩ := h.rotate.search ((hmem b).mpr hb) hP (k := k) (by
    rw [List.length_append, List.length_cons] at hk
    rw [List.length_append]
    omega)
  exact ⟨r, (hmem r).mp hr, hfind⟩

/-- **A new node behind `r`.** -/
theorem Ring.insert (h : Ring next (us ++ r :: vs)) (hr : next' r = x) (hx : next' x = next r)
    (heq : ∀ y ∈ us ++ vs, next' y = next y) : Ring next' (us ++ r :: x :: vs) := by
  have hvs : ∀ y ∈ vs, next' y = next y := fun y hy => heq y (List.mem_append_right us hy)
  cases us with
  | nil => exact ⟨hr, Path.congr h hx hvs⟩
  | cons b us =>
    obtain ⟨h1, h2⟩ := path_append.mp h
    refine path_append.mpr ⟨h1.congr (heq b (by simp)) fun y hy => heq y (by simp [hy]), hr, ?_⟩
    exact h2.congr hx hvs

/-- **The node behind `r` is taken out.** -/
theorem Ring.remove (h : Ring next (us ++ r :: x :: vs)) (hr : next' r = next x)
    (heq : ∀ y ∈ us ++ vs, next' y = next y) : Ring next' (us ++ r :: vs) := by
  have hvs : ∀ y ∈ vs, next' y = next y := fun y hy => heq y (List.mem_append_right us hy)
  cases us with
  | nil =>
    obtain ⟨-, h2⟩ := h
    exact Path.congr h2 hr hvs
  | cons b us =>
    obtain ⟨h1, -, h2⟩ := path_append.mp h
    refine path_append.mpr ⟨h1.congr (heq b (by simp)) fun y hy => heq y (by simp [hy]), ?_⟩
    exact h2.congr hr hvs

/-! ### The place of an element -/

section Order

variable [LinearOrder α]

/-- Whether `x` belongs between `p` and the node behind it, which is smaller than `p` if `p` is the
last one. -/
def between (x p n : α) : Bool := (p < x ∧ x < n) ∨ (n ≤ p ∧ (p < x ∨ x < n))

theorem between_iff {p n : α} :
    between x p n = true ↔ (p < x ∧ x < n) ∨ (n ≤ p ∧ (p < x ∨ x < n)) := decide_eq_true_iff

/-- The nodes below `x` and those above it. -/
theorem exists_split (hsort : (b :: xs).Pairwise (· < ·)) (hb : b < x) (hx : x ∉ xs) :
    ∃ us r vs, b :: xs = us ++ r :: vs ∧ r < x ∧ ∀ v ∈ vs, x < v := by
  induction xs generalizing b with
  | nil => exact ⟨[], b, [], rfl, hb, by simp⟩
  | cons y xs ih =>
    obtain ⟨-, hsort'⟩ := List.pairwise_cons.mp hsort
    obtain ⟨hxy, hx'⟩ := not_or.mp (List.mem_cons.not.mp hx)
    rcases lt_or_gt_of_ne hxy with hlt | hgt
    · refine ⟨[], b, y :: xs, rfl, hb, fun v hv => ?_⟩
      rcases List.mem_cons.mp hv with rfl | hv
      · exact hlt
      · exact hlt.trans ((List.pairwise_cons.mp hsort').1 v hv)
    · obtain ⟨us, r, vs, heq, hr, hvs⟩ := ih hsort' hgt hx'
      exact ⟨b :: us, r, vs, by rw [heq]; rfl, hr, hvs⟩

/-- The last node points to the first one. -/
theorem Ring.next_last (h : Ring next (us ++ [r])) (hsort : (us ++ [r]).Pairwise (· < ·)) :
    next r ≤ r ∧ ∃ ys, us ++ [r] = next r :: ys := by
  rw [h.next_eq]
  cases us with
  | nil => exact ⟨le_refl r, [], rfl⟩
  | cons u us => exact ⟨le_of_lt ((List.pairwise_append.mp hsort).2.2 u (by simp) r (by simp)),
      us ++ [r], rfl⟩

/-- There is a place for an element above the first node. -/
theorem Ring.exists_between (h : Ring next (b :: xs)) (hsort : (b :: xs).Pairwise (· < ·))
    (hb : b < x) (hx : x ∉ xs) : ∃ r ∈ b :: xs, between x r (next r) = true := by
  obtain ⟨us, r, vs, heq, hr, hvs⟩ := exists_split hsort hb hx
  refine ⟨r, heq ▸ List.mem_append_right us List.mem_cons_self, between_iff.mpr ?_⟩
  rw [heq] at h hsort
  cases vs with
  | nil => exact .inr ⟨(h.next_last hsort).1, .inl hr⟩
  | cons v vs =>
    have hnext : next r = v := h.next_eq
    rw [hnext]
    exact .inl ⟨hr, hvs v List.mem_cons_self⟩

/-- **Where an element belongs**, the nodes before are smaller and those behind larger. -/
theorem Ring.place (h : Ring next (us ++ r :: vs)) (hsort : (us ++ r :: vs).Pairwise (· < ·))
    (hx : ∀ y ∈ (us ++ r :: vs).head?, y < x) (hP : between x r (next r) = true) :
    (∀ u ∈ us, u < r) ∧ r < x ∧ ∀ v ∈ vs, x < v := by
  have hP := between_iff.mp hP
  refine ⟨fun u hu => (List.pairwise_append.mp hsort).2.2 u hu r (by simp), ?_⟩
  cases vs with
  | nil =>
    obtain ⟨hle, ys, hys⟩ := h.next_last hsort
    have hhead : next r < x := hx _ (by rw [hys]; rfl)
    refine ⟨?_, by simp⟩
    rcases hP with ⟨hlt, -⟩ | ⟨-, hlt | hlt⟩
    · exact hlt
    · exact hlt
    · exact absurd hhead (not_lt_of_gt hlt)
  | cons v vs =>
    obtain ⟨-, hsort', -⟩ := List.pairwise_append.mp hsort
    obtain ⟨hrv, hsort'⟩ := List.pairwise_cons.mp hsort'
    have hnext : next r = v := h.next_eq
    rw [hnext] at hP
    rcases hP with ⟨hlt, hgt⟩ | ⟨hle, -⟩
    · refine ⟨hlt, fun w hw => ?_⟩
      rcases List.mem_cons.mp hw with rfl | hw
      · exact hgt
      · exact hgt.trans ((List.pairwise_cons.mp hsort').1 w hw)
    · exact absurd (hrv v List.mem_cons_self) (not_lt_of_ge hle)

end Order

end SortedRing
