import Mathlib.Algebra.Order.BigOperators.Group.Finset
import Mathlib.Data.Nat.Cast.Order.Ring
import Xv6.Transition

/-!
# Pools of Threads

Threads `0, ..., n - 1`, each with a local state, that move one at a time over a shared state.
What they hold between them (locks, permits of semaphores, goods) is a tally: the sum over the
threads of what each local state contributes. A move changes one summand, so the invariants of
locks and semaphores are linear equations between tallies and shared variables.

A thread of which the next step is not defined is blocked, or has ended.

## Main results

* `tally_update`: how a move changes a tally.
* `le_tally`, `add_le_tally`, `exists_of_tally_pos`, `eq_one_of_tally_eq`: what a tally says
  about the threads.
-/

namespace Threads

open Finset

variable {L : Type*} {n i j : ℕ} {f : L → ℕ} {loc : ℕ → L}

/-- What the threads below `n` contribute to a count. -/
def tally (n : ℕ) (f : L → ℕ) (loc : ℕ → L) : ℕ := ∑ i ∈ range n, f (loc i)

/-- **A move of one thread** replaces its contribution. -/
theorem tally_update (f : L → ℕ) (loc : ℕ → L) (l : L) (hi : i < n) :
    tally n f (Function.update loc i l) + f (loc i) = tally n f loc + f l := by
  have hrest : ∑ k ∈ (range n).erase i, f (Function.update loc i l k) =
      ∑ k ∈ (range n).erase i, f (loc k) :=
    sum_congr rfl fun k hk => by rw [Function.update_of_ne (ne_of_mem_erase hk)]
  rw [tally, tally, ← add_sum_erase _ _ (mem_range.mpr hi), hrest,
    ← add_sum_erase (range n) (fun k => f (loc k)) (mem_range.mpr hi), Function.update_self]
  omega

theorem le_tally (f : L → ℕ) (loc : ℕ → L) (hi : i < n) : f (loc i) ≤ tally n f loc :=
  single_le_sum (f := fun k => f (loc k)) (fun _ _ => Nat.zero_le _) (mem_range.mpr hi)

/-- Two threads contribute separately. -/
theorem add_le_tally (f : L → ℕ) (loc : ℕ → L) (hi : i < n) (hj : j < n) (hne : i ≠ j) :
    f (loc i) + f (loc j) ≤ tally n f loc := by
  have hj' : j ∈ (range n).erase i := mem_erase.mpr ⟨hne.symm, mem_range.mpr hj⟩
  rw [tally, ← add_sum_erase _ _ (mem_range.mpr hi)]
  exact Nat.add_le_add_left
    (single_le_sum (f := fun k => f (loc k)) (fun _ _ => Nat.zero_le _) hj') _

theorem exists_of_tally_pos (h : 0 < tally n f loc) : ∃ i < n, 0 < f (loc i) := by
  obtain ⟨i, hi, hpos⟩ := exists_ne_zero_of_sum_ne_zero h.ne'
  exact ⟨i, mem_range.mp hi, Nat.pos_of_ne_zero hpos⟩

theorem tally_eq_zero_iff : tally n f loc = 0 ↔ ∀ i < n, f (loc i) = 0 := by
  simp [tally]

theorem tally_le_tally {g : L → ℕ} (h : ∀ l, f l ≤ g l) : tally n f loc ≤ tally n g loc :=
  sum_le_sum fun _ _ => h _

theorem tally_add (f g : L → ℕ) (loc : ℕ → L) :
    tally n (fun l => f l + g l) loc = tally n f loc + tally n g loc :=
  sum_add_distrib

/-- If every thread contributes as much as it can, each of them does. -/
theorem eq_one_of_tally_eq (hf : ∀ l, f l ≤ 1) (h : tally n f loc = n) (hi : i < n) :
    f (loc i) = 1 := by
  by_contra hne
  have hlt : f (loc i) < 1 := lt_of_le_of_ne (hf _) hne
  have hsum : tally n f loc < ∑ k ∈ range n, 1 :=
    sum_lt_sum (fun k _ => hf (loc k)) ⟨i, mem_range.mpr hi, hlt⟩
  simp [h] at hsum

end Threads
