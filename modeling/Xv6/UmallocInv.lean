import Xv6.Umalloc

/-!
# The Free List of the User Heap

The free list is a ring of blocks in the order of their addresses that starts with `base`, and the
blocks on it together with those of the program tile the memory obtained from `sbrk`. A block that
is given back goes between its neighbours on the ring: first it is linked to the block behind it,
or merged with it, and then to the block before it.

## Main results

* `FreeList.insert`: putting a block on the list.
* `FreeList.take`: taking a block, or the tail of one, off the list.
-/

open Transition SortedRing Extent
open Function (update update_of_ne update_self)

namespace Xv6.Umalloc

/-! ### Headers -/

namespace Heap

variable {h : Heap} {p q v : ℕ}

@[simp] theorem ptr_setPtr_self : (h.setPtr p v).ptr p = v := update_self ..

@[simp] theorem size_setSize_self : (h.setSize p v).size p = v := update_self ..

@[simp] theorem ptr_setSize_self : (h.setSize p v).ptr p = h.ptr p :=
  update_of_ne (by omega) _ _

@[simp] theorem size_setPtr_self : (h.setPtr p v).size p = h.size p :=
  update_of_ne (by omega) _ _

/-- Two headers that do not overlap. -/
def Sep (p q : ℕ) : Prop := p + 8 ≤ q ∨ q + 8 ≤ p

theorem Sep.symm (hs : Sep p q) : Sep q p := Or.symm hs

theorem Sep.ne (hs : Sep p q) : p ≠ q := by
  rintro rfl
  exact hs.elim (by omega) (by omega)

theorem ptr_setPtr (hs : Sep p q) : (h.setPtr p v).ptr q = h.ptr q :=
  update_of_ne hs.ne.symm _ _

theorem size_setPtr (hs : Sep p q) : (h.setPtr p v).size q = h.size q :=
  update_of_ne (by unfold Sep at hs; omega) _ _

theorem ptr_setSize (hs : Sep p q) : (h.setSize p v).ptr q = h.ptr q :=
  update_of_ne (by unfold Sep at hs; omega) _ _

theorem size_setSize (hs : Sep p q) : (h.setSize p v).size q = h.size q :=
  update_of_ne (by unfold Sep at hs; omega) _ _

/-- The block with its header at `a`. -/
def block (h : Heap) (a : ℕ) : Extent := ⟨a, 8 * h.size a⟩

end Heap

/-! ### Blocks -/

/-- **The blocks `zs` tile the memory obtained**, which is above `base`. -/
structure Blocks (h : Heap) (zs : List ℕ) : Prop where
  tiles : Tiles (zs.map h.block) h.got
  low : ∀ g ∈ h.got, h.base + 8 ≤ g.start
  base : h.size h.base = 0

namespace Blocks

variable {h h' : Heap} {zs ws : List ℕ} {x y : ℕ}

theorem pos (B : Blocks h zs) (hx : x ∈ zs) : 0 < h.size x := by
  have := B.tiles.pos _ (List.mem_map_of_mem hx)
  simp only [Heap.block] at this
  omega

theorem base_le (B : Blocks h zs) (hx : x ∈ zs) : h.base + 8 ≤ x :=
  B.tiles.le_start_of_forall B.low (List.mem_map_of_mem hx)

/-- Different blocks are apart. -/
theorem stop_le (B : Blocks h zs) (hx : x ∈ zs) (hy : y ∈ zs) (hlt : x < y) :
    x + 8 * h.size x ≤ y :=
  B.tiles.stop_le (List.mem_map_of_mem hx) (List.mem_map_of_mem hy) hlt

/-- The headers of different blocks do not overlap, nor do they overlap `base`. -/
theorem sep (B : Blocks h zs) (hx : x ∈ h.base :: zs) (hy : y ∈ h.base :: zs) (hne : x ≠ y) :
    Heap.Sep x y := by
  rcases List.mem_cons.mp hx with rfl | hx <;> rcases List.mem_cons.mp hy with rfl | hy
  · exact absurd rfl hne
  · exact .inl (B.base_le hy)
  · exact .inr (B.base_le hx)
  · have hpx := B.pos hx
    have hpy := B.pos hy
    rcases Nat.lt_or_gt_of_ne hne with hlt | hlt
    · have := B.stop_le hx hy hlt
      exact .inl (by omega)
    · have := B.stop_le hy hx hlt
      exact .inr (by omega)

/-- No block is twice in the list. -/
theorem nodup (B : Blocks h zs) : (h.base :: zs).Nodup := by
  refine List.nodup_cons.mpr ⟨fun hmem => ?_, ?_⟩
  · have := B.base_le hmem
    omega
  · have happ : zs.Pairwise fun a b => (h.block a).Apart (h.block b) :=
      List.pairwise_map.mp B.tiles.apart
    refine happ.imp_of_mem fun {a b} ha _ hap heq => ?_
    have hpos := B.pos ha
    subst heq
    simp only [Extent.Apart, Extent.stop, Heap.block] at hap
    omega

/-- The first block is apart from the others. -/
theorem sep_head (B : Blocks h (x :: zs)) (hy : y ∈ h.base :: zs) : Heap.Sep x y := by
  have hnodup := B.nodup
  rw [List.Perm.nodup_iff (List.Perm.swap x h.base zs), List.nodup_cons] at hnodup
  refine B.sep (by simp) ?_ fun heq => hnodup.1 (heq ▸ hy)
  simp only [List.mem_cons] at hy ⊢
  tauto

theorem perm (B : Blocks h zs) (hp : zs.Perm ws) : Blocks h ws :=
  ⟨B.tiles.perm (hp.map h.block), B.low, B.base⟩

theorem map_block_congr (hsize : ∀ a ∈ zs, h'.size a = h.size a) :
    zs.map h'.block = zs.map h.block :=
  List.map_congr_left fun a ha => by rw [Heap.block, Heap.block, hsize a ha]

/-- The blocks are the same where the sizes are. -/
theorem congr (B : Blocks h zs) (hbase : h'.base = h.base) (hgot : h'.got = h.got)
    (hsize : ∀ a ∈ h.base :: zs, h'.size a = h.size a) : Blocks h' zs where
  tiles := by
    have hmap := map_block_congr fun a ha => hsize a (List.mem_cons_of_mem _ ha)
    rw [hmap, hgot]
    exact B.tiles
  low := by
    rw [hbase, hgot]
    exact B.low
  base := by rw [hbase, hsize _ List.mem_cons_self, B.base]

/-- **Two adjacent blocks become one.** -/
theorem merge (B : Blocks h (x :: y :: zs)) (hadj : x + 8 * h.size x = y)
    (hbase : h'.base = h.base) (hgot : h'.got = h.got) (hx : h'.size x = h.size x + h.size y)
    (hsize : ∀ a ∈ h.base :: zs, h'.size a = h.size a) : Blocks h' (x :: zs) where
  tiles := by
    have hmap := map_block_congr fun a ha => hsize a (List.mem_cons_of_mem _ ha)
    have hblock : h'.block x = ⟨x, 8 * h.size x + 8 * h.size y⟩ := by
      rw [Heap.block, hx, Nat.mul_add]
    rw [List.map_cons, hmap, hgot, hblock]
    refine Tiles.merge ?_
    rw [hadj]
    exact B.tiles
  low := by
    rw [hbase, hgot]
    exact B.low
  base := by rw [hbase, hsize _ List.mem_cons_self, B.base]

/-- **One block becomes two.** -/
theorem split (B : Blocks h (x :: zs)) {m : ℕ} (hm : 0 < m) (hlt : m < h.size x)
    (hbase : h'.base = h.base) (hgot : h'.got = h.got) (hx : h'.size x = m)
    (hy : h'.size (x + 8 * m) = h.size x - m)
    (hsize : ∀ a ∈ h.base :: zs, h'.size a = h.size a) : Blocks h' (x :: (x + 8 * m) :: zs) where
  tiles := by
    have hmap := map_block_congr fun a ha => hsize a (List.mem_cons_of_mem _ ha)
    have hblock : h.block x = ⟨x, 8 * m + 8 * (h.size x - m)⟩ := by
      rw [Heap.block, ← Nat.mul_add, Nat.add_sub_of_le (Nat.le_of_lt hlt)]
    have htiles := B.tiles
    rw [List.map_cons, hblock] at htiles
    rw [List.map_cons, List.map_cons, hmap, hgot, Heap.block, Heap.block, hx, hy]
    exact htiles.split (by omega) (by omega)
  low := by
    rw [hbase, hgot]
    exact B.low
  base := by rw [hbase, hsize _ List.mem_cons_self, B.base]

end Blocks

/-! ### The list -/

/-- **The free list** of the nodes `base :: xs`: a circle in the order of the addresses, of blocks
that are not adjacent; and with it the blocks `ys` the program has. -/
structure FreeList (h : Heap) (xs ys : List ℕ) : Prop where
  ring : Ring h.ptr (h.base :: xs)
  gaps : (h.base :: xs).Pairwise fun a b => a + 8 * h.size a < b
  blocks : Blocks h (xs ++ ys)

/-- The block `bp`, linked to the block behind it, is to be put behind the node `p`. -/
structure Linked (h : Heap) (xs us : List ℕ) (p : ℕ) (vs : List ℕ) (bp : ℕ) (ys : List ℕ) :
    Prop where
  split : h.base :: xs = us ++ p :: vs
  ring : Ring (update h.ptr p (h.ptr bp)) (us ++ p :: vs)
  gaps : (us ++ p :: vs).Pairwise fun a b => a + 8 * h.size a < b
  below : p < bp
  above : ∀ v ∈ vs, bp + 8 * h.size bp < v
  blocks : Blocks h (bp :: (xs ++ ys))

section FreeList

variable {h h' : Heap} {xs ys us vs : List ℕ} {a b p bp v x y : ℕ}

theorem FreeList.sorted (H : FreeList h xs ys) : (h.base :: xs).Pairwise (· < ·) :=
  H.gaps.imp fun {a b} hab => by omega

/-- The free list is where the headers are the same. -/
theorem FreeList.congr (H : FreeList h xs ys) (hbase : h'.base = h.base) (hgot : h'.got = h.got)
    (hptr : ∀ a ∈ h.base :: xs, h'.ptr a = h.ptr a)
    (hsize : ∀ a ∈ h.base :: (xs ++ ys), h'.size a = h.size a) : FreeList h' xs ys where
  ring := by
    rw [hbase]
    exact H.ring.congr hptr
  gaps := by
    rw [hbase]
    refine H.gaps.imp_of_mem fun {a b} ha _ hab => ?_
    rwa [hsize a (by simp only [List.mem_cons, List.mem_append] at ha ⊢; tauto)]
  blocks := H.blocks.congr hbase hgot hsize

/-- A block put behind another one. -/
theorem tail_insert_perm (us vs : List ℕ) (p x : ℕ) :
    (us ++ p :: x :: vs).tail.Perm (x :: (us ++ p :: vs).tail) := by
  cases us with
  | nil => exact .refl _
  | cons u us =>
    simp only [List.cons_append, List.tail_cons]
    rw [List.append_cons us p (x :: vs), List.append_cons us p vs]
    exact List.perm_middle

/-- The list after a block has been taken out. -/
theorem cons_tail_eq (hsplit : b :: xs = us ++ p :: v :: vs) :
    b :: (us ++ p :: vs).tail = us ++ p :: vs := by
  cases us with
  | nil | cons u us =>
    obtain ⟨rfl, -⟩ := List.cons.inj hsplit
    rfl

/-- The nodes other than `p`. -/
theorem ne_of_gaps (hgaps : (us ++ p :: vs).Pairwise fun a b => a + 8 * h.size a < b)
    (hy : y ∈ us ++ vs) : y ≠ p := by
  obtain ⟨-, h2, h3⟩ := List.pairwise_append.mp hgaps
  rintro rfl
  rcases List.mem_append.mp hy with hy | hy
  · have := h3 y hy y List.mem_cons_self
    omega
  · have := (List.pairwise_cons.mp h2).1 y hy
    omega

theorem gap_of_cons (hgaps : (us ++ p :: v :: vs).Pairwise fun a b => a + 8 * h.size a < b)
    (hx : x ∈ vs) : v + 8 * h.size v < x :=
  (List.pairwise_cons.mp (List.pairwise_cons.mp (List.pairwise_append.mp hgaps).2.1).2).1 x hx

@[simp] theorem linkUp_base : (h.linkUp bp p).base = h.base := by
  unfold Heap.linkUp
  split <;> rfl

@[simp] theorem linkUp_got : (h.linkUp bp p).got = h.got := by
  unfold Heap.linkUp
  split <;> rfl

/-- The block behind is adjacent: `bp` swallows it. -/
theorem FreeList.linkUp_merge (H : FreeList h xs (bp :: ys))
    (hsplit : h.base :: xs = us ++ p :: v :: vs) (hp : p < bp) (hm : bp + 8 * h.size bp = v) :
    Linked (h.linkUp bp p) (us ++ p :: vs).tail us p vs bp ys := by
  have hring := H.ring
  have hgaps := H.gaps
  have B := H.blocks.perm List.perm_middle
  have hxs : xs = (us ++ p :: v :: vs).tail := by rw [← hsplit]; rfl
  rw [hsplit] at hring hgaps
  have hsep : ∀ a ∈ us ++ p :: v :: vs, Heap.Sep bp a := fun a ha => B.sep_head (by
    rw [← hsplit] at ha
    simp only [List.mem_cons, List.mem_append] at ha ⊢
    tauto)
  have hsub : (us ++ p :: vs).Sublist (us ++ p :: v :: vs) :=
    List.Sublist.append_left (.cons_cons p (List.sublist_cons_self v vs)) us
  have hv : h.ptr p = v := hring.next_eq
  have hup : h.linkUp bp p = (h.setSize bp (h.size bp + h.size v)).setPtr bp (h.ptr v) := by
    rw [Heap.linkUp, hv, if_pos hm]
    simp only [Heap.ptr_setSize (hsep p (by simp)), hv, Heap.ptr_setSize (hsep v (by simp))]
  have hsize : ∀ a, Heap.Sep bp a → (h.linkUp bp p).size a = h.size a := fun a ha => by
    rw [hup, Heap.size_setPtr ha, Heap.size_setSize ha]
  have hbsize : (h.linkUp bp p).size bp = h.size bp + h.size v := by
    rw [hup, Heap.size_setPtr_self, Heap.size_setSize_self]
  refine ⟨?_, ?_, ?_, hp, ?_, ?_⟩
  · rw [linkUp_base]
    exact cons_tail_eq hsplit
  · refine hring.remove ?_ fun y hy => ?_
    · rw [update_self, hup, Heap.ptr_setPtr_self]
    · have hy' : y ∈ us ++ p :: v :: vs := by
        simp only [List.mem_append, List.mem_cons] at hy ⊢
        tauto
      rw [update_of_ne (ne_of_gaps (hgaps.sublist hsub) hy), hup,
        Heap.ptr_setPtr (hsep y hy'), Heap.ptr_setSize (hsep y hy')]
  · refine (hgaps.sublist hsub).imp_of_mem fun {a b} ha _ hab => ?_
    rwa [hsize a (hsep a (hsub.mem ha))]
  · intro w hw
    have hvw := gap_of_cons hgaps hw
    rw [hbsize]
    omega
  · have hperm : (bp :: (xs ++ ys)).Perm (bp :: v :: ((us ++ p :: vs).tail ++ ys)) := by
      rw [hxs]
      exact ((tail_insert_perm us vs p v).append_right ys).cons bp
    refine (B.perm hperm).merge hm linkUp_base linkUp_got hbsize fun a ha => hsize a ?_
    refine B.sep_head ?_
    rw [hxs]
    rcases List.mem_cons.mp ha with rfl | ha
    · exact List.mem_cons_self
    · refine List.mem_cons_of_mem _ ?_
      rcases List.mem_append.mp ha with ha | ha
      · exact List.mem_append_left _ (hsub.tail.mem ha)
      · exact List.mem_append_right _ ha

/-- The block behind is not adjacent: `bp` is linked to it. -/
theorem FreeList.linkUp_link (H : FreeList h xs (bp :: ys))
    (hsplit : h.base :: xs = us ++ p :: vs) (hp : p < bp) (hvs : ∀ v ∈ vs, bp < v)
    (hm : bp + 8 * h.size bp ≠ h.ptr p) : Linked (h.linkUp bp p) xs us p vs bp ys := by
  have hring := H.ring
  have hgaps := H.gaps
  have B := H.blocks.perm List.perm_middle
  rw [hsplit] at hring hgaps
  have hsep : ∀ a ∈ us ++ p :: vs, Heap.Sep bp a := fun a ha => B.sep_head (by
    rw [← hsplit] at ha
    simp only [List.mem_cons, List.mem_append] at ha ⊢
    tauto)
  have hup : h.linkUp bp p = h.setPtr bp (h.ptr p) := by rw [Heap.linkUp, if_neg hm]
  rw [hup]
  refine ⟨hsplit, ?_, ?_, hp, ?_, ?_⟩
  · refine hring.congr fun y hy => ?_
    by_cases hyp : y = p
    · rw [hyp, update_self, Heap.ptr_setPtr_self]
    · rw [update_of_ne hyp, Heap.ptr_setPtr (hsep y hy)]
  · refine hgaps.imp_of_mem fun {a b} ha _ hab => ?_
    rwa [Heap.size_setPtr (hsep a ha)]
  · intro w hw
    rw [Heap.size_setPtr_self]
    match vs, hw with
    | v :: vs, hw =>
      have hv : h.ptr p = v := hring.next_eq
      have hvmem : v ∈ bp :: (xs ++ ys) := by
        have hxs : xs = (us ++ p :: v :: vs).tail := by rw [← hsplit]; rfl
        rw [hxs]
        refine List.mem_cons_of_mem _ (List.mem_append_left _ ?_)
        cases us <;> simp
      have hle := B.stop_le List.mem_cons_self hvmem (hvs v List.mem_cons_self)
      rcases List.mem_cons.mp hw with rfl | hw
      · omega
      · have hvw := gap_of_cons hgaps hw
        omega
  · refine B.congr rfl rfl fun a ha => ?_
    by_cases hab : a = bp
    · rw [hab, Heap.size_setPtr_self]
    · refine Heap.size_setPtr (B.sep_head ?_)
      simp only [List.mem_cons] at ha ⊢
      tauto

/-- **The first half**: `bp` and the block behind it. -/
theorem FreeList.linkUp (H : FreeList h xs (bp :: ys)) (hsplit : h.base :: xs = us ++ p :: vs)
    (hp : p < bp) (hvs : ∀ v ∈ vs, bp < v) :
    ∃ xs' vs', Linked (h.linkUp bp p) xs' us p vs' bp ys ∧ xs'.length ≤ xs.length := by
  by_cases hm : bp + 8 * h.size bp = h.ptr p
  · have hring := H.ring
    have hsort := H.sorted
    rw [hsplit] at hring hsort
    -- the node behind is larger, so `p` is not the last one
    cases vs with
    | nil =>
      have hle := (hring.next_last hsort).1
      omega
    | cons v vs =>
      have hv : h.ptr p = v := hring.next_eq
      refine ⟨_, vs, H.linkUp_merge hsplit hp (hm.trans hv), ?_⟩
      have hlen := congrArg List.length hsplit
      simp only [List.length_tail, List.length_append, List.length_cons] at hlen ⊢
      omega
  · exact ⟨xs, vs, H.linkUp_link hsplit hp hvs hm, Nat.le_refl _⟩

@[simp] theorem linkDown_base : (h.linkDown bp p).base = h.base := by
  unfold Heap.linkDown
  split <;> rfl

@[simp] theorem linkDown_got : (h.linkDown bp p).got = h.got := by
  unfold Heap.linkDown
  split <;> rfl

/-- A node that is adjacent to `bp` is a block: `base` has no units. -/
theorem Linked.mem_of_adjacent (L : Linked h xs us p vs bp ys) (hm : p + 8 * h.size p = bp) :
    p ∈ xs := by
  have hp : p ∈ h.base :: xs := by
    rw [L.split]
    simp
  refine (List.mem_cons.mp hp).resolve_left ?_
  rintro rfl
  have hbelow := L.below
  rw [L.blocks.base] at hm
  omega

/-- The block before is adjacent: it swallows `bp`. -/
theorem Linked.linkDown_merge (L : Linked h xs us p vs bp ys) (hm : p + 8 * h.size p = bp) :
    FreeList (h.linkDown bp p) xs ys := by
  have hring := L.ring
  rw [← L.split] at hring
  obtain ⟨xs₁, xs₂, rfl⟩ := List.append_of_mem (L.mem_of_adjacent hm)
  have hperm : (bp :: (xs₁ ++ p :: xs₂ ++ ys)).Perm (p :: bp :: (xs₁ ++ xs₂ ++ ys)) := by
    refine .trans (.cons bp ?_) (.swap p bp _)
    rw [List.append_assoc, List.append_assoc]
    exact List.perm_middle
  have B := L.blocks.perm hperm
  have hsep : ∀ a ∈ h.base :: bp :: (xs₁ ++ xs₂ ++ ys), Heap.Sep p a := fun a ha => B.sep_head ha
  have hdown : h.linkDown bp p = (h.setSize p (h.size p + h.size bp)).setPtr p (h.ptr bp) := by
    rw [Heap.linkDown, if_pos hm]
    simp only [Heap.ptr_setSize (hsep bp (by simp))]
  have hpsize : (h.linkDown bp p).size p = h.size p + h.size bp := by
    rw [hdown, Heap.size_setPtr_self, Heap.size_setSize_self]
  have hsize : ∀ a, Heap.Sep p a → (h.linkDown bp p).size a = h.size a := fun a ha => by
    rw [hdown, Heap.size_setPtr ha, Heap.size_setSize ha]
  have hother : ∀ a ∈ h.base :: (xs₁ ++ p :: xs₂), a = p ∨ Heap.Sep p a := by
    intro a ha
    refine or_iff_not_imp_left.mpr fun hap => hsep a ?_
    simp only [List.mem_cons, List.mem_append] at ha ⊢
    tauto
  refine ⟨?_, ?_, ?_⟩
  · rw [linkDown_base]
    refine hring.congr fun y hy => ?_
    rcases hother y hy with rfl | hs
    · rw [update_self, hdown, Heap.ptr_setPtr_self]
    · rw [update_of_ne hs.ne.symm, hdown, Heap.ptr_setPtr hs, Heap.ptr_setSize hs]
  · have hsame : ∀ a ∈ us ++ vs, (h.linkDown bp p).size a = h.size a := fun a ha => by
      refine hsize a ((hother a ?_).resolve_left (ne_of_gaps L.gaps ha))
      rw [L.split]
      simp only [List.mem_append, List.mem_cons] at ha ⊢
      tauto
    obtain ⟨hus, hpvs, hcross⟩ := List.pairwise_append.mp L.gaps
    rw [linkDown_base, L.split]
    refine List.pairwise_append.mpr ⟨?_, List.pairwise_cons.mpr ⟨fun v hv => ?_, ?_⟩, ?_⟩
    · refine hus.imp_of_mem fun {a b} ha _ hab => ?_
      rwa [hsame a (List.mem_append_left _ ha)]
    · have := L.above v hv
      rw [hpsize]
      omega
    · refine (List.pairwise_cons.mp hpvs).2.imp_of_mem fun {a b} ha _ hab => ?_
      rwa [hsame a (List.mem_append_right _ ha)]
    · intro a ha b hb
      rw [hsame a (List.mem_append_left _ ha)]
      exact hcross a ha b hb
  · refine .perm ?_ (List.perm_middle.symm.append_right ys)
    exact B.merge hm linkDown_base linkDown_got hpsize fun a ha => hsize a (hsep a (by
      simp only [List.mem_cons, List.mem_append] at ha ⊢
      tauto))

/-- The block before is not adjacent: it is linked to `bp`. -/
theorem Linked.linkDown_link (L : Linked h xs us p vs bp ys) (hm : p + 8 * h.size p ≠ bp) :
    FreeList (h.linkDown bp p) (us ++ p :: bp :: vs).tail ys := by
  have hgaps := L.gaps
  have hring := L.ring
  have hbelow := L.below
  have B := L.blocks
  have hdown : h.linkDown bp p = h.setPtr p bp := by rw [Heap.linkDown, if_neg hm]
  have hnode : ∀ a ∈ us ++ p :: vs, a ∈ h.base :: (xs ++ ys) := by
    intro a ha
    rw [← L.split] at ha
    simp only [List.mem_cons, List.mem_append] at ha ⊢
    tauto
  have hpb : Heap.Sep p bp := (B.sep_head (hnode p (by simp))).symm
  have hbase : h.base :: (us ++ p :: bp :: vs).tail = us ++ p :: bp :: vs := by
    have hsplit := L.split
    cases us with
    | nil | cons u us =>
      obtain ⟨rfl, -⟩ := List.cons.inj hsplit
      rfl
  -- only a pointer is changed, so the sizes are the same
  have hsize : ∀ a ∈ h.base :: bp :: (xs ++ ys), (h.setPtr p bp).size a = h.size a := by
    intro a ha
    by_cases hap : a = p
    · rw [hap, Heap.size_setPtr_self]
    · refine Heap.size_setPtr (B.sep ?_ ha (Ne.symm hap))
      have := hnode p (by simp)
      simp only [List.mem_cons] at this ⊢
      tauto
  rw [hdown]
  refine ⟨?_, ?_, ?_⟩
  · change Ring (h.setPtr p bp).ptr (h.base :: _)
    rw [hbase]
    refine hring.insert Heap.ptr_setPtr_self ?_ fun y hy => ?_
    · rw [Heap.ptr_setPtr hpb, update_self]
    · have hyp := ne_of_gaps hgaps hy
      have hy' : y ∈ us ++ p :: vs := by
        simp only [List.mem_append, List.mem_cons] at hy ⊢
        tauto
      rw [update_of_ne hyp, Heap.ptr_setPtr]
      refine B.sep ?_ ?_ (Ne.symm hyp)
      · have := hnode p (by simp)
        simp only [List.mem_cons] at this ⊢
        tauto
      · have := hnode y hy'
        simp only [List.mem_cons] at this ⊢
        tauto
  · change (h.base :: _).Pairwise fun a b => a + 8 * (h.setPtr p bp).size a < b
    rw [hbase]
    have hsame : ∀ a ∈ us ++ p :: vs, (h.setPtr p bp).size a = h.size a := fun a ha => by
      have := hnode a ha
      refine hsize a ?_
      simp only [List.mem_cons] at this ⊢
      tauto
    obtain ⟨hus, hpvs, hcross⟩ := List.pairwise_append.mp hgaps
    obtain ⟨hpv, hvs⟩ := List.pairwise_cons.mp hpvs
    have hpbp : p + 8 * h.size p < bp := by
      rcases List.mem_cons.mp (hnode p (by simp)) with hp | hp
      · rw [hp, B.base]
        omega
      · have := B.stop_le (List.mem_cons_of_mem _ hp) List.mem_cons_self hbelow
        omega
    refine List.pairwise_append.mpr ⟨?_, List.pairwise_cons.mpr ⟨fun v hv => ?_,
      List.pairwise_cons.mpr ⟨fun v hv => ?_, ?_⟩⟩, ?_⟩
    · refine hus.imp_of_mem fun {a b} ha _ hab => ?_
      rwa [hsame a (List.mem_append_left _ ha)]
    · rw [hsame p (by simp)]
      rcases List.mem_cons.mp hv with rfl | hv
      · exact hpbp
      · exact hpv v hv
    · rw [hsize bp (by simp)]
      exact L.above v hv
    · refine hvs.imp_of_mem fun {a b} ha _ hab => ?_
      rwa [hsame a (by simp [ha])]
    · intro a ha b hb
      have hap := hcross a ha p List.mem_cons_self
      rw [hsame a (List.mem_append_left _ ha)]
      rcases List.mem_cons.mp hb with rfl | hb
      · exact hap
      rcases List.mem_cons.mp hb with rfl | hb
      · omega
      · exact hcross a ha b (List.mem_cons_of_mem _ hb)
  · have hxs : xs = (us ++ p :: vs).tail := by rw [← L.split]; rfl
    have hB : Blocks (h.setPtr p bp) (bp :: (xs ++ ys)) := B.congr rfl rfl hsize
    refine hB.perm ?_
    rw [hxs]
    exact ((tail_insert_perm us vs p bp).append_right ys).symm

/-- The block grows, if it changes. -/
theorem size_le_linkUp : h.size bp ≤ (h.linkUp bp p).size bp := by
  unfold Heap.linkUp
  split
  · rw [Heap.size_setPtr_self, Heap.size_setSize_self]
    exact Nat.le_add_right ..
  · rw [Heap.size_setPtr_self]

/-- The sizes of the other blocks stay. -/
theorem size_linkUp (ha : Heap.Sep bp a) : (h.linkUp bp p).size a = h.size a := by
  unfold Heap.linkUp
  split
  · rw [Heap.size_setPtr ha, Heap.size_setSize ha]
  · rw [Heap.size_setPtr ha]

/-- The sizes of the other blocks stay. -/
theorem size_linkDown (ha : Heap.Sep p a) : (h.linkDown bp p).size a = h.size a := by
  unfold Heap.linkDown
  split
  · rw [Heap.size_setPtr ha, Heap.size_setSize ha]
  · rw [Heap.size_setPtr ha]

/-- **Putting the block `bp` on the list**, behind the node `p`. The list grows by one node at most,
and one of its blocks is at least as large as `bp`. -/
theorem FreeList.insert (H : FreeList h xs (bp :: ys)) (hsplit : h.base :: xs = us ++ p :: vs)
    (hp : p < bp) (hvs : ∀ v ∈ vs, bp < v) :
    ∃ xs', FreeList ((h.linkUp bp p).linkDown bp p) xs' ys ∧ p ∈ h.base :: xs' ∧
      xs'.length ≤ xs.length + 1 ∧
      ∃ x ∈ xs', h.size bp ≤ ((h.linkUp bp p).linkDown bp p).size x := by
  obtain ⟨xs₁, vs₁, L, hlen⟩ := H.linkUp hsplit hp hvs
  have hsplit₁ := L.split
  rw [linkUp_base] at hsplit₁
  have hle : h.size bp ≤ (h.linkUp bp p).size bp := size_le_linkUp
  by_cases hm : p + 8 * (h.linkUp bp p).size p = bp
  · refine ⟨xs₁, L.linkDown_merge hm, hsplit₁ ▸ (by simp), by omega, p, L.mem_of_adjacent hm, ?_⟩
    rw [Heap.linkDown, if_pos hm, Heap.size_setPtr_self, Heap.size_setSize_self]
    omega
  · have hbp : Heap.Sep p bp := (L.blocks.sep_head (by
      have : p ∈ h.base :: xs₁ := hsplit₁ ▸ (by simp)
      rw [linkUp_base]
      simp only [List.mem_cons, List.mem_append] at this ⊢
      tauto)).symm
    refine ⟨_, L.linkDown_link hm, ?_, ?_, bp, ?_, ?_⟩
    · cases us with
      | nil =>
        obtain ⟨rfl, -⟩ := List.cons.inj hsplit
        simp
      | cons u us => simp
    · have hlen₁ := congrArg List.length hsplit₁
      simp only [List.length_tail, List.length_append, List.length_cons] at hlen₁ ⊢
      omega
    · cases us <;> simp
    · rw [size_linkDown hbp]
      exact hle

/-! ### Taking a block off the list -/

/-- A block on the list is behind the node that points to it. -/
theorem FreeList.split_at (H : FreeList h xs ys) (hprev : a ∈ h.base :: xs)
    (hp : 0 < h.size (h.ptr a)) :
    ∃ us vs, h.base :: xs = us ++ a :: h.ptr a :: vs := by
  obtain ⟨us, vs, hsplit⟩ := List.append_of_mem hprev
  have hring := H.ring
  rw [hsplit] at hring
  have hnext := hring.next_eq
  cases vs with
  | cons v vs => exact ⟨us, vs, by rw [hsplit, show h.ptr a = v from hnext]⟩
  | nil =>
    -- the last node points to `base`, which has no units
    have hbase : h.ptr a = h.base := by
      have hhead := congrArg List.head? hsplit
      cases us with
      | nil | cons u us => exact hnext.trans (Option.some.inj hhead).symm
    rw [hbase, H.blocks.base] at hp
    omega

/-- **Taking a whole block.** -/
theorem FreeList.take_whole (H : FreeList h xs ys) (hsplit : h.base :: xs = us ++ a :: p :: vs) :
    FreeList (h.setPtr a (h.ptr p)) (us ++ a :: vs).tail (p :: ys) := by
  have hring := H.ring
  have hgaps := H.gaps
  have hxs : xs = (us ++ a :: p :: vs).tail := by rw [← hsplit]; rfl
  rw [hsplit] at hring hgaps
  have hsub : (us ++ a :: vs).Sublist (us ++ a :: p :: vs) :=
    List.Sublist.append_left (.cons_cons a (List.sublist_cons_self p vs)) us
  have hnode : ∀ x ∈ us ++ a :: p :: vs, x ∈ h.base :: (xs ++ ys) := by
    intro x hx
    rw [← hsplit] at hx
    simp only [List.mem_cons, List.mem_append] at hx ⊢
    tauto
  have hsize : ∀ x ∈ h.base :: (xs ++ ys), (h.setPtr a (h.ptr p)).size x = h.size x := by
    intro x hx
    by_cases hxa : x = a
    · rw [hxa, Heap.size_setPtr_self]
    · exact Heap.size_setPtr (H.blocks.sep (hnode a (by simp)) hx (Ne.symm hxa))
  refine ⟨?_, ?_, ?_⟩
  · change Ring _ (h.base :: _)
    rw [cons_tail_eq hsplit]
    refine hring.remove Heap.ptr_setPtr_self fun y hy => ?_
    have hya := ne_of_gaps (hgaps.sublist hsub) hy
    refine Heap.ptr_setPtr (H.blocks.sep (hnode a (by simp)) (hnode y ?_) (Ne.symm hya))
    simp only [List.mem_append, List.mem_cons] at hy ⊢
    tauto
  · change (h.base :: _).Pairwise _
    rw [cons_tail_eq hsplit]
    refine (hgaps.sublist hsub).imp_of_mem fun {x y} hx _ hxy => ?_
    rwa [hsize x (hnode x (hsub.mem hx))]
  · have hB : Blocks (h.setPtr a (h.ptr p)) (xs ++ ys) := H.blocks.congr rfl rfl hsize
    refine hB.perm (.trans ?_ List.perm_middle.symm)
    rw [hxs]
    exact (tail_insert_perm us vs a p).append_right ys

/-- **Taking the tail of a block.** -/
theorem FreeList.take_tail {n : ℕ} (H : FreeList h xs ys) (hp : p ∈ xs) (hn : 0 < n)
    (hlt : n < h.size p) :
    FreeList ((h.setSize p (h.size p - n)).setSize (p + 8 * (h.size p - n)) n) xs
      ((p + 8 * (h.size p - n)) :: ys) := by
  obtain ⟨m, hm⟩ : ∃ m, m = h.size p - n := ⟨_, rfl⟩
  rw [← hm]
  set q := p + 8 * m with hq
  obtain ⟨xs₁, xs₂, rfl⟩ := List.append_of_mem hp
  have hperm : (xs₁ ++ p :: xs₂ ++ ys).Perm (p :: (xs₁ ++ xs₂ ++ ys)) := by
    rw [List.append_assoc, List.append_assoc]
    exact List.perm_middle
  have B := H.blocks.perm hperm
  have hpq : Heap.Sep q p := .inr (by omega)
  -- the new header is inside the block, so it overlaps no other
  have hsep : ∀ x ∈ h.base :: (xs₁ ++ xs₂ ++ ys), Heap.Sep p x ∧ Heap.Sep q x := by
    intro x hx
    refine ⟨B.sep_head hx, ?_⟩
    have hbp := B.base_le List.mem_cons_self
    rcases List.mem_cons.mp hx with rfl | hx
    · exact .inr (by omega)
    · have hpx := B.sep_head (List.mem_cons_of_mem _ hx)
      rcases Nat.lt_or_gt_of_ne hpx.ne with hlt' | hlt'
      · have := B.stop_le List.mem_cons_self (List.mem_cons_of_mem p hx) hlt'
        exact .inl (by omega)
      · have := B.stop_le (List.mem_cons_of_mem p hx) List.mem_cons_self hlt'
        exact .inr (by omega)
  set h₁ := (h.setSize p m).setSize q n with hh₁
  have hpsize : h₁.size p = m := by rw [hh₁, Heap.size_setSize hpq, Heap.size_setSize_self]
  have hqsize : h₁.size q = h.size p - m := by
    rw [hh₁, Heap.size_setSize_self]
    omega
  have hsize : ∀ x ∈ h.base :: (xs₁ ++ xs₂ ++ ys), h₁.size x = h.size x := fun x hx => by
    rw [hh₁, Heap.size_setSize (hsep x hx).2, Heap.size_setSize (hsep x hx).1]
  have hother : ∀ x ∈ h.base :: (xs₁ ++ p :: xs₂), x = p ∨ x ∈ h.base :: (xs₁ ++ xs₂ ++ ys) := by
    intro x hx
    simp only [List.mem_cons, List.mem_append] at hx ⊢
    tauto
  refine ⟨?_, ?_, ?_⟩
  · refine H.ring.congr fun x hx => ?_
    rcases hother x hx with rfl | hx
    · rw [hh₁, Heap.ptr_setSize hpq, Heap.ptr_setSize_self]
    · rw [hh₁, Heap.ptr_setSize (hsep x hx).2, Heap.ptr_setSize (hsep x hx).1]
  · refine H.gaps.imp_of_mem fun {x y} hx _ hxy => ?_
    rcases hother x hx with rfl | hx
    · rw [hpsize]
      omega
    · rwa [hsize x hx]
  · have hB : Blocks h₁ (p :: q :: (xs₁ ++ xs₂ ++ ys)) :=
      B.split (by omega) (by omega) rfl rfl hpsize hqsize hsize
    refine hB.perm (.trans (.swap q p _) ?_)
    exact .trans (.cons q hperm.symm) List.perm_middle.symm

end FreeList

end Xv6.Umalloc
