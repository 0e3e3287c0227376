import Mathlib

/-!
# Tilings by Intervals

Intervals of natural numbers that are pairwise disjoint and together cover the same numbers as some
given regions. Two neighbours may be merged, an interval split, and a region added beyond the
others.

## Main results

* `Tiles.merge`, `Tiles.split`: two neighbours and the interval they make.
* `Tiles.grow`: one more region.
-/

/-- The numbers from `start` on, `len` of them. -/
structure Extent where
  start : ℕ
  len : ℕ

namespace Extent

/-- The end of an interval. -/
def stop (b : Extent) : ℕ := b.start + b.len

/-- The number `a` is in the interval. -/
def Has (b : Extent) (a : ℕ) : Prop := b.start ≤ a ∧ a < b.stop

/-- One interval ends before the other starts. -/
def Apart (b c : Extent) : Prop := b.stop ≤ c.start ∨ c.stop ≤ b.start

theorem Apart.symm {b c : Extent} (h : b.Apart c) : c.Apart b := Or.symm h

instance : Std.Symm Apart := ⟨fun _ _ h => h.symm⟩

/-- **The intervals `bs` are apart, not empty, and cover what the regions `gs` cover.** -/
structure Tiles (bs gs : List Extent) : Prop where
  apart : bs.Pairwise Apart
  pos : ∀ b ∈ bs, 0 < b.len
  cover : ∀ a, (∃ b ∈ bs, b.Has a) ↔ ∃ g ∈ gs, g.Has a

variable {bs cs gs : List Extent} {b g : Extent} {a m n : ℕ}

theorem tiles_nil : Tiles [] [] := ⟨.nil, nofun, fun _ => .rfl⟩

namespace Tiles

/-- The order of the intervals does not matter. -/
theorem perm (h : Tiles bs gs) (hp : bs.Perm cs) : Tiles cs gs where
  apart := h.apart.perm hp fun h => h.symm
  pos := fun b hb => h.pos b (hp.mem_iff.mpr hb)
  cover := fun a => by
    rw [← h.cover a]
    exact exists_congr fun b => and_congr_left fun _ => hp.mem_iff.symm

/-- The interval behind `b` starts where it ends, or later. -/
theorem stop_le (h : Tiles bs gs) {c : Extent} (hb : b ∈ bs) (hc : c ∈ bs)
    (hlt : b.start < c.start) : b.stop ≤ c.start := by
  have hne : b ≠ c := by
    rintro rfl
    exact Nat.lt_irrefl _ hlt
  rcases h.apart.forall hb hc hne with happ | happ
  · exact happ
  · rw [stop] at happ
    omega

/-- **Merging two neighbours.** -/
theorem merge (h : Tiles (⟨a, m⟩ :: ⟨a + m, n⟩ :: bs) gs) : Tiles (⟨a, m + n⟩ :: bs) gs := by
  obtain ⟨ha, happ⟩ := List.pairwise_cons.mp h.apart
  obtain ⟨hm, happ⟩ := List.pairwise_cons.mp happ
  refine ⟨List.pairwise_cons.mpr ⟨fun c hc => ?_, happ⟩, fun b hb => ?_, fun x => ?_⟩
  · have h1 := ha c (List.mem_cons_of_mem _ hc)
    have h2 := hm c hc
    have hc := h.pos c (List.mem_cons_of_mem _ (List.mem_cons_of_mem _ hc))
    simp only [Apart, stop] at h1 h2 ⊢
    omega
  · rcases List.mem_cons.mp hb with rfl | hb
    · exact Nat.lt_of_lt_of_le (h.pos ⟨a, m⟩ List.mem_cons_self) (Nat.le_add_right m n)
    · exact h.pos b (List.mem_cons_of_mem _ (List.mem_cons_of_mem _ hb))
  · rw [← h.cover x]
    simp only [List.exists_mem_cons_iff, Has, stop]
    rw [← or_assoc]
    refine or_congr_left ?_
    omega

/-- **Splitting an interval.** -/
theorem split (h : Tiles (⟨a, m + n⟩ :: bs) gs) (hm : 0 < m) (hn : 0 < n) :
    Tiles (⟨a, m⟩ :: ⟨a + m, n⟩ :: bs) gs := by
  obtain ⟨ha, happ⟩ := List.pairwise_cons.mp h.apart
  refine ⟨List.pairwise_cons.mpr ⟨fun c hc => ?_, List.pairwise_cons.mpr ⟨fun c hc => ?_, happ⟩⟩,
    fun b hb => ?_, fun x => ?_⟩
  · rcases List.mem_cons.mp hc with rfl | hc
    · exact .inl (Nat.le_refl _)
    · have h1 := ha c hc
      simp only [Apart, stop] at h1 ⊢
      omega
  · have h1 := ha c hc
    simp only [Apart, stop] at h1 ⊢
    omega
  · rcases List.mem_cons.mp hb with rfl | hb
    · exact hm
    rcases List.mem_cons.mp hb with rfl | hb
    · exact hn
    · exact h.pos b (List.mem_cons_of_mem _ hb)
  · rw [← h.cover x]
    simp only [List.exists_mem_cons_iff, Has, stop]
    rw [← or_assoc]
    refine or_congr_left ?_
    omega

/-- The tiles are inside the regions. -/
theorem stop_le_of_forall (h : Tiles bs gs) (htop : ∀ g ∈ gs, g.stop ≤ n) (hb : b ∈ bs) :
    b.stop ≤ n := by
  have hpos := h.pos b hb
  obtain ⟨g, hg, -, hlt⟩ := (h.cover (b.stop - 1)).mp ⟨b, hb, by rw [stop]; omega, by
    rw [stop]; omega⟩
  have hle := htop g hg
  omega

/-- The intervals start above what the regions start above. -/
theorem le_start_of_forall (h : Tiles bs gs) (hbot : ∀ g ∈ gs, n ≤ g.start) (hb : b ∈ bs) :
    n ≤ b.start := by
  have hpos := h.pos b hb
  obtain ⟨g, hg, hle, -⟩ := (h.cover b.start).mp ⟨b, hb, Nat.le_refl _, by rw [stop]; omega⟩
  exact Nat.le_trans (hbot g hg) hle

/-- **One more region** beyond the others. -/
theorem grow (h : Tiles bs gs) (htop : ∀ g ∈ gs, g.stop ≤ b.start) (hpos : 0 < b.len) :
    Tiles (b :: bs) (b :: gs) where
  apart := List.pairwise_cons.mpr ⟨fun _ hc => .inr (h.stop_le_of_forall htop hc), h.apart⟩
  pos := fun c hc => by
    rcases List.mem_cons.mp hc with rfl | hc
    · exact hpos
    · exact h.pos c hc
  cover := fun x => by
    simp only [List.exists_mem_cons_iff]
    exact or_congr_right (h.cover x)

end Tiles

end Extent
