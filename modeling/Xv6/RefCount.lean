import Mathlib

/-!
# Counting References

A finite set of slots, each of which holds a reference to an object or nothing, and the number of
slots that refer to an object. Tables of objects with reference counts are right when the counts
are these numbers.

## Main results

* `RefCount.count_update`: how the numbers change when one slot does.
-/

namespace RefCount

variable {ι κ : Type*} [DecidableEq κ]

/-- The number of slots in `S` that hold `k`. -/
def count (S : Finset ι) (h : ι → Option κ) (k : κ) : ℕ := (S.filter fun i => h i = some k).card

variable {S : Finset ι} {h : ι → Option κ} {i : ι} {k : κ}

theorem count_eq_zero : count S h k = 0 ↔ ∀ i ∈ S, h i ≠ some k := by
  rw [count, Finset.card_eq_zero, Finset.filter_eq_empty_iff]

theorem count_pos (hi : i ∈ S) (hk : h i = some k) : 0 < count S h k := by
  rw [count, Finset.card_pos]
  exact ⟨i, Finset.mem_filter.mpr ⟨hi, hk⟩⟩

/-- **Changing one slot**: the object that it held loses a reference and the one that it gets
gains one. -/
theorem count_update [DecidableEq ι] (hi : i ∈ S) (v : Option κ) (k : κ) :
    count S (Function.update h i v) k + (if h i = some k then 1 else 0) =
      count S h k + if v = some k then 1 else 0 := by
  have hrest : ∑ j ∈ S.erase i, (if Function.update h i v j = some k then 1 else 0) =
      ∑ j ∈ S.erase i, if h j = some k then 1 else 0 := by
    refine Finset.sum_congr rfl fun j hj => ?_
    rw [Function.update_of_ne (Finset.ne_of_mem_erase hj)]
  simp only [count, Finset.card_filter]
  rw [← Finset.add_sum_erase S _ hi,
    ← Finset.add_sum_erase S (fun j => if h j = some k then 1 else 0) hi, hrest,
    Function.update_self]
  omega

end RefCount
