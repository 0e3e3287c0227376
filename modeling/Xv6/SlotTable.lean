import Mathlib

/-!
# Tables of Slots as Finite Maps

An array of `n` slots, each free or holding a key and a value, searched from the front. As long
as no key is in two slots, the table is a finite map: filling a free slot, or one new slot at
the end, adds a key, and freeing the slot of a key removes it.

The table is a function on slot numbers with a bound, of which nothing is said past the bound.

## Main results

* `Distinct.find_eq_some_iff`, `find_eq_none_iff`: what a search finds.
* `Distinct.update`: changing a slot.
* `Distinct.lookup_insert`, `Distinct.lookup_erase`: the lookups after filling or freeing one.
-/

namespace SlotTable

variable {κ ν : Type} {e e' : ℕ → Option (κ × ν)} {n n' j k : ℕ} {a b : κ} {v : ν}

/-- No key is in two slots. -/
def Distinct (e : ℕ → Option (κ × ν)) (n : ℕ) : Prop :=
  ∀ j < n, ∀ k < n, ∀ a v w, e j = some (a, v) → e k = some (a, w) → j = k

/-- The first free slot among `ks`, or else `last`. -/
def freeSlot (e : ℕ → Option (κ × ν)) (last : ℕ) : List ℕ → ℕ
  | [] => last
  | k :: ks => if e k = none then k else freeSlot e last ks

/-- A free slot, or the end of the table. -/
theorem freeSlot_spec (e : ℕ → Option (κ × ν)) (n : ℕ) :
    freeSlot e n (List.range n) ≤ n ∧
      (freeSlot e n (List.range n) < n → e (freeSlot e n (List.range n)) = none) := by
  have hmem (ks : List ℕ) : freeSlot e n ks = n ∨
      freeSlot e n ks ∈ ks ∧ e (freeSlot e n ks) = none := by
    induction ks with
    | nil => exact .inl rfl
    | cons k ks ih =>
      rw [freeSlot]
      split_ifs with hk
      · exact .inr ⟨List.mem_cons_self, hk⟩
      · exact ih.imp_right fun h => ⟨List.mem_cons_of_mem _ h.1, h.2⟩
  rcases hmem (List.range n) with h | ⟨h1, h2⟩
  · exact ⟨Nat.le_of_eq h, fun hlt => absurd h (Nat.ne_of_lt hlt)⟩
  · exact ⟨Nat.le_of_lt (List.mem_range.mp h1), fun _ => h2⟩

/-! ### Searching -/

section Search

variable [DecidableEq κ]

/-- The value in a slot, if its key is `a`. -/
def valueAt (a : κ) : Option (κ × ν) → Option ν
  | some (b, v) => if a = b then some v else none
  | none => none

/-- The value of a slot with this key. -/
theorem valueAt_eq_some_iff {x : Option (κ × ν)} : valueAt a x = some v ↔ x = some (a, v) := by
  rcases x with _ | ⟨b, w⟩
  · simp [valueAt]
  · simp only [valueAt, Option.ite_none_right_eq_some, Option.some.injEq, Prod.mk.injEq]
    exact ⟨fun ⟨h1, h2⟩ => ⟨h1.symm, h2⟩, fun ⟨h1, h2⟩ => ⟨h1.symm, h2⟩⟩

/-- The first of the slots `ks` with the key `a`, and the value in it. -/
def search (e : ℕ → Option (κ × ν)) (a : κ) : List ℕ → Option (ℕ × ν)
  | [] => none
  | k :: ks =>
    match valueAt a (e k) with
    | some v => some (k, v)
    | none => search e a ks

/-- The first of the slots below `n` with the key `a`, and the value in it. -/
def find (e : ℕ → Option (κ × ν)) (n : ℕ) (a : κ) : Option (ℕ × ν) := search e a (List.range n)

/-- The value of the key `a`. -/
def lookup (e : ℕ → Option (κ × ν)) (n : ℕ) (a : κ) : Option ν := (find e n a).map Prod.snd

/-- A search that finds nothing. -/
theorem search_eq_none_iff {ks : List ℕ} :
    search e a ks = none ↔ ∀ k ∈ ks, ∀ v, e k ≠ some (a, v) := by
  induction ks with
  | nil => simp [search]
  | cons k ks ih =>
    rw [search]
    cases hv : valueAt a (e k) with
    | some v =>
      have hk : e k = some (a, v) := valueAt_eq_some_iff.mp hv
      simp [hk]
    | none =>
      have hk (v : ν) : e k ≠ some (a, v) := fun h => by
        simp [valueAt_eq_some_iff.mpr h] at hv
      simp [ih, hk]

/-- A search that finds a slot. -/
theorem search_sound {ks : List ℕ} (h : search e a ks = some (k, v)) :
    k ∈ ks ∧ e k = some (a, v) := by
  induction ks with
  | nil => cases h
  | cons k' ks ih =>
    rw [search] at h
    cases hv : valueAt a (e k') with
    | some w =>
      rw [hv] at h
      obtain ⟨rfl, rfl⟩ : k' = k ∧ w = v := by simpa using h
      exact ⟨List.mem_cons_self, valueAt_eq_some_iff.mp hv⟩
    | none =>
      rw [hv] at h
      exact ⟨List.mem_cons_of_mem _ (ih h).1, (ih h).2⟩

/-- A search fails exactly if no slot has the key. -/
theorem find_eq_none_iff : find e n a = none ↔ ∀ k < n, ∀ v, e k ≠ some (a, v) := by
  simp [find, search_eq_none_iff]

theorem find_sound (h : find e n a = some (k, v)) : k < n ∧ e k = some (a, v) := by
  obtain ⟨hk, he⟩ := search_sound h
  exact ⟨List.mem_range.mp hk, he⟩

/-- A search finds the only slot with the key. -/
theorem Distinct.find_eq_some_iff (h : Distinct e n) :
    find e n a = some (k, v) ↔ k < n ∧ e k = some (a, v) := by
  refine ⟨find_sound, fun ⟨hk, he⟩ => ?_⟩
  rcases hf : find e n a with _ | ⟨k', v'⟩
  · exact absurd he (find_eq_none_iff.mp hf k hk v)
  · obtain ⟨hk', he'⟩ := find_sound hf
    obtain rfl := h k hk k' hk' a v v' he he'
    obtain rfl : v = v' := by simpa [he] using he'
    rfl

theorem lookup_eq_none_iff : lookup e n a = none ↔ ∀ k < n, ∀ v, e k ≠ some (a, v) := by
  rw [lookup, Option.map_eq_none_iff, find_eq_none_iff]

theorem Distinct.lookup_eq_some_iff (h : Distinct e n) :
    lookup e n a = some v ↔ ∃ k < n, e k = some (a, v) := by
  simp only [lookup, Option.map_eq_some_iff, Prod.exists, exists_eq_right, h.find_eq_some_iff]

/-- A search looks at nothing but its slots. -/
theorem search_congr {ks : List ℕ} (h : ∀ k ∈ ks, e' k = e k) : search e' a ks = search e a ks := by
  induction ks with
  | nil => rfl
  | cons k ks ih =>
    rw [List.forall_mem_cons] at h
    rw [search, search, h.1, ih h.2]

theorem find_congr (h : ∀ k < n, e' k = e k) : find e' n a = find e n a :=
  search_congr fun k hk => h k (List.mem_range.mp hk)

/-! ### Lookups determine each other -/

/-- Two tables with distinct keys that hold the same entries have the same lookups. -/
theorem lookup_congr (h : Distinct e n) (h' : Distinct e' n')
    (hiff : ∀ v, (∃ k < n, e k = some (a, v)) ↔ ∃ k < n', e' k = some (a, v)) :
    lookup e' n' a = lookup e n a := by
  ext v
  rw [h.lookup_eq_some_iff, h'.lookup_eq_some_iff, hiff]

end Search

/-! ### Changing a slot -/

/-- **Changing one slot, or adding one,** keeps the keys distinct, if its new key is in no other
slot. -/
theorem Distinct.update {x : Option (κ × ν)} (h : Distinct e n)
    (hold : ∀ k < n', k ≠ j → k < n) (he : ∀ k < n', e' k = if k = j then x else e k)
    (hnew : ∀ a v, x = some (a, v) → ∀ k < n, ∀ w, e k ≠ some (a, w)) : Distinct e' n' := by
  intro k hk l hl b w y hek hel
  rw [he k hk] at hek
  rw [he l hl] at hel
  split_ifs at hek hel with h1 h2 h2
  · exact h1.trans h2.symm
  · exact absurd hel (hnew b w hek l (hold l hl h2) y)
  · exact absurd hek (hnew b y hel k (hold k hk h1) w)
  · exact h k (hold k hk h1) l (hold l hl h2) b w y hek hel

variable [DecidableEq κ]

/-- **Filling a free slot, or a new one, with a new key:** it has its value, and the others have
the values they had. -/
theorem Distinct.lookup_insert (h : Distinct e n) (hj : j ≤ n) (hfree : j < n → e j = none)
    (hn : n' = max n (j + 1)) (he : ∀ k < n', e' k = if k = j then some (a, v) else e k)
    (hnew : lookup e n a = none) (b : κ) :
    lookup e' n' b = if b = a then some v else lookup e n b := by
  have h' : Distinct e' n' := by
    refine h.update (by omega) he ?_
    rintro _ _ ⟨⟩
    exact lookup_eq_none_iff.mp hnew
  split_ifs with hb
  · subst hb
    exact h'.lookup_eq_some_iff.mpr ⟨j, by omega, by rw [he j (by omega), if_pos rfl]⟩
  · refine lookup_congr h h' fun w => ⟨fun ⟨k, hk, hek⟩ => ⟨k, by omega, ?_⟩,
      fun ⟨k, hk, hek⟩ => ?_⟩
    · have hne : k ≠ j := by
        rintro rfl
        simp [hfree hk] at hek
      rw [he k (by omega), if_neg hne, hek]
    · rw [he k hk] at hek
      split_ifs at hek with hkj
      · obtain ⟨rfl, rfl⟩ : a = b ∧ v = w := by simpa using hek
        exact absurd rfl hb
      · exact ⟨k, by omega, hek⟩

/-- **Freeing the slot of a key:** it is gone, and the others have the values they had. -/
theorem Distinct.lookup_erase (h : Distinct e n) (hj : j < n) (hkey : e j = some (a, v))
    (he : ∀ k < n, e' k = if k = j then none else e k) (b : κ) :
    lookup e' n b = if b = a then none else lookup e n b := by
  split_ifs with hb
  · subst hb
    refine lookup_eq_none_iff.mpr fun k hk w hek => ?_
    rw [he k hk] at hek
    split_ifs at hek with hkj
    exact hkj (h k hk j hj b w v hek hkey)
  · have h' : Distinct e' n := h.update (fun k hk _ => hk) he (by simp)
    refine lookup_congr h h' fun w => ⟨fun ⟨k, hk, hek⟩ => ⟨k, hk, ?_⟩,
      fun ⟨k, hk, hek⟩ => ⟨k, hk, ?_⟩⟩
    · have hne : k ≠ j := by
        rintro rfl
        obtain ⟨rfl, rfl⟩ : a = b ∧ v = w := by simpa [hkey] using hek
        exact hb rfl
      rw [he k hk, if_neg hne, hek]
    · rw [he k hk] at hek
      split_ifs at hek
      exact hek

end SlotTable
