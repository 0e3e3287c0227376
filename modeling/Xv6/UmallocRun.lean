import Xv6.UmallocInv

/-!
# Runs of the User Heap

What `free`, `morecore` and `malloc` do with the free list, and from it what holds in every state of
a run. `malloc` looks for a block from `freep` on; if it comes back to where it started, it asks for
more memory, and the second round finds a block. So each call is over after two rounds at most.

## Main results

* `free_spec`, `mallocLoop_spec`: what the two functions do with the free list; both return.
* `heap_correct`: **the heap is correct** in every state of every run.
-/

open Transition SortedRing Extent

namespace Xv6.Umalloc

section Calls

variable {h : Heap} {xs ys : List ℕ} {bp k n p : ℕ} {gap : Option ℕ}

/-- The loop of `free` looks for the place of the block. -/
theorem freeLoop_eq_search (h : Heap) (bp k p : ℕ) :
    h.freeLoop bp k p = search h.ptr (between bp) k p := by
  induction k generalizing p with
  | zero => rfl
  | succ k ih =>
    rw [Heap.freeLoop, search, ih]
    by_cases h1 : bp > p ∧ bp < h.ptr p
    · rw [if_pos h1, if_pos (between_iff.mpr (.inl h1))]
    · rw [if_neg h1]
      by_cases h2 : p ≥ h.ptr p ∧ (bp > p ∨ bp < h.ptr p)
      · rw [if_pos h2, if_pos (between_iff.mpr (.inr h2))]
      · rw [if_neg h2, if_neg fun hb => (between_iff.mp hb).elim h1 h2]

/-- What `free` and `malloc` leave as it is. -/
structure Same (h h' : Heap) (ys : List ℕ) : Prop where
  base : h'.base = h.base
  live : h'.live = h.live
  size : ∀ y ∈ ys, h'.size y = h.size y

/-- **`free` puts the block on the list.** It returns when the fuel is enough for one round. -/
theorem free_spec (H : FreeList h xs (bp :: ys)) (hf : h.freep ∈ h.base :: xs)
    (hk : xs.length + 1 ≤ k) :
    ∃ h' xs', h.free k (bp + 8) = some h' ∧ FreeList h' xs' ys ∧ h'.freep ∈ h'.base :: xs' ∧
      Same h h' ys ∧ h'.top = h.top ∧ h'.got = h.got ∧ xs'.length ≤ xs.length + 1 ∧
      ∃ x ∈ xs', h.size bp ≤ h'.size x := by
  have B := H.blocks.perm List.perm_middle
  have hbase : h.base < bp := by
    have := B.base_le List.mem_cons_self
    omega
  have hnew : bp ∉ xs := fun hmem =>
    (B.sep_head (List.mem_cons_of_mem _ (List.mem_append_left _ hmem))).ne rfl
  obtain ⟨q, hq, hbetween⟩ := H.ring.exists_between H.sorted hbase hnew
  obtain ⟨r, hr, hsearch, hr'⟩ := H.ring.search hf hq hbetween (k := k) hk
  obtain ⟨us, vs, hsplit⟩ := List.append_of_mem hr
  have hring := H.ring
  have hsort := H.sorted
  rw [hsplit] at hring hsort
  have hhead : ∀ y ∈ (us ++ r :: vs).head?, y < bp := by
    rw [← hsplit]
    rintro y ⟨⟩
    exact hbase
  obtain ⟨-, hlow, hhigh⟩ := hring.place hsort hhead hr'
  obtain ⟨xs', H', hmem, hlen, hx⟩ := H.insert hsplit hlow hhigh
  have hsize : ∀ y ∈ ys, ((h.linkUp bp r).linkDown bp r).size y = h.size y := by
    intro y hy
    have hby := B.sep_head (List.mem_cons_of_mem _ (List.mem_append_right _ hy))
    have hry : Heap.Sep r y := by
      refine B.sep ?_ ?_ ?_
      · simp only [List.mem_cons, List.mem_append] at hr ⊢
        tauto
      · simp [hy]
      · rintro rfl
        have hnodup := B.nodup
        simp only [List.nodup_cons, List.nodup_append, List.mem_cons, List.mem_append] at hnodup hr
        rcases hr with rfl | hr
        · exact hnodup.1 (.inr (.inr hy))
        · exact hnodup.2.2.2.2 _ hr _ hy rfl
    rw [size_linkDown hry, size_linkUp hby]
  have hfree : h.free k (bp + 8) =
      some { (h.linkUp bp r).linkDown bp r with freep := r } := by
    rw [Heap.free, Nat.add_sub_cancel, freeLoop_eq_search, hsearch]
    rfl
  obtain ⟨m, hm⟩ : ∃ m, (h.linkUp bp r).linkDown bp r = { h with mem := m } := by
    unfold Heap.linkDown Heap.linkUp
    split <;> split <;> exact ⟨_, rfl⟩
  rw [hm] at hfree H' hsize hx
  exact ⟨_, xs', hfree, H'.congr rfl rfl (fun _ _ => rfl) fun _ _ => rfl, hmem,
    ⟨rfl, rfl, hsize⟩, rfl, rfl, hlen, hx⟩

variable {a m : ℕ}

/-- The loop of `malloc` finds a block if there is one that is large enough. -/
theorem mallocLoop_found {l : List ℕ} (hpath : Path h.ptr p l h.freep) (hl : h.freep ∉ l)
    (ha : a ∈ p :: l) (hsize : n ≤ h.size (h.ptr a)) (hk : l.length < k) :
    ∃ b ∈ p :: l, n ≤ h.size (h.ptr b) ∧
      Heap.mallocLoop n gap k h p (h.ptr p) = some (h.takeBlock n b (h.ptr b)) := by
  induction l generalizing p k with
  | nil =>
    obtain ⟨k, rfl⟩ : ∃ j, k = j + 1 := ⟨k - 1, by omega⟩
    obtain rfl := List.mem_singleton.mp ha
    exact ⟨a, ha, hsize, by rw [Heap.mallocLoop, if_pos hsize]⟩
  | cons x l ih =>
    obtain ⟨k, rfl⟩ : ∃ j, k = j + 1 := ⟨k - 1, by omega⟩
    obtain ⟨hx, hpath⟩ := hpath
    obtain ⟨hxf, hl⟩ := not_or.mp (List.mem_cons.not.mp hl)
    by_cases hp : n ≤ h.size (h.ptr p)
    · exact ⟨p, List.mem_cons_self, hp, by rw [Heap.mallocLoop, if_pos hp]⟩
    · have ha' : a ∈ x :: l := by
        refine (List.mem_cons.mp ha).resolve_left ?_
        rintro rfl
        exact hp hsize
      obtain ⟨b, hb, hbsize, hloop⟩ := ih hpath hl ha' (Nat.lt_of_succ_lt_succ hk)
      refine ⟨b, List.mem_cons_of_mem _ hb, hbsize, ?_⟩
      rw [Heap.mallocLoop, if_neg hp, hx, if_neg (Ne.symm hxf), hloop]

/-- If there is none, it asks for more memory after one round. -/
theorem mallocLoop_full {l : List ℕ} (hpath : Path h.ptr p l h.freep) (hl : h.freep ∉ l)
    (hsize : ∀ a ∈ p :: l, h.size (h.ptr a) < n) :
    Heap.mallocLoop n gap (k + 1 + l.length) h p (h.ptr p) =
      match h.morecore k n gap with
      | none => none
      | some none => some (0, h)
      | some (some h) => Heap.mallocLoop n gap k h h.freep (h.ptr h.freep) := by
  induction l generalizing p with
  | nil =>
    have hp := hsize p List.mem_cons_self
    rw [List.length_nil, Nat.add_zero, Heap.mallocLoop, if_neg (by omega)]
    exact if_pos hpath
  | cons x l ih =>
    obtain ⟨hx, hpath⟩ := hpath
    obtain ⟨hxf, hl⟩ := not_or.mp (List.mem_cons.not.mp hl)
    have hp := hsize p List.mem_cons_self
    rw [List.length_cons, ← Nat.add_assoc, Heap.mallocLoop, if_neg (by omega), hx,
      if_neg (Ne.symm hxf)]
    exact ih hpath hl fun a ha => hsize a (List.mem_cons_of_mem _ ha)

/-- The ring, seen from `freep`. -/
theorem FreeList.rotate (H : FreeList h xs ys) (hf : h.freep ∈ h.base :: xs) :
    ∃ l, Path h.ptr h.freep l h.freep ∧ h.freep ∉ l ∧ l.length = xs.length ∧
      ∀ a, a ∈ h.freep :: l ↔ a ∈ h.base :: xs := by
  obtain ⟨us, vs, hsplit⟩ := List.append_of_mem hf
  have hring := H.ring
  have hnodup : (h.base :: xs).Nodup := H.sorted.imp fun {a b} hab => Nat.ne_of_lt hab
  rw [hsplit] at hring hnodup
  refine ⟨vs ++ us, hring.rotate, ?_, ?_, fun a => ?_⟩
  · rw [List.nodup_middle, List.nodup_cons] at hnodup
    exact fun hmem => hnodup.1 (List.mem_append.mpr (List.mem_append.mp hmem).symm)
  · have := congrArg List.length hsplit
    simp only [List.length_cons, List.length_append] at this ⊢
    omega
  · rw [hsplit]
    simp only [List.mem_cons, List.mem_append]
    tauto

/-- Each node is behind one. -/
theorem FreeList.exists_prev (H : FreeList h xs ys) (hx : p ∈ xs) :
    ∃ a ∈ h.base :: xs, h.ptr a = p := by
  obtain ⟨us, vs, rfl⟩ := List.append_of_mem hx
  obtain ⟨hus, -⟩ := path_append.mp H.ring
  cases us using List.reverseRecOn with
  | nil => exact ⟨h.base, List.mem_cons_self, hus⟩
  | append_singleton us u =>
    obtain ⟨-, hu⟩ := path_append.mp hus
    exact ⟨u, by simp, hu⟩

/-- **Taking a block**, of which the units asked for are given away. -/
theorem takeBlock_spec (H : FreeList h xs ys) (ha : a ∈ h.base :: xs) (hn : 0 < n)
    (hle : n ≤ h.size (h.ptr a)) :
    ∃ q h' xs', h.takeBlock n a (h.ptr a) = (q + 8, h') ∧ FreeList h' xs' (q :: ys) ∧
      h'.freep ∈ h'.base :: xs' ∧ Same h h' ys ∧ h'.top = h.top ∧ h'.got = h.got ∧
      h'.size q = n := by
  obtain ⟨us, vs, hsplit⟩ := H.split_at ha (Nat.lt_of_lt_of_le hn hle)
  have hp : h.ptr a ∈ xs := by
    have hmem : h.ptr a ∈ (us ++ a :: h.ptr a :: vs).tail := by cases us <;> simp
    rwa [← hsplit] at hmem
  by_cases heq : h.size (h.ptr a) = n
  · have H' := H.take_whole hsplit
    have hsize : ∀ x ∈ h.ptr a :: ys, (h.setPtr a (h.ptr (h.ptr a))).size x = h.size x := by
      intro x hx
      by_cases hxa : x = a
      · rw [hxa, Heap.size_setPtr_self]
      · refine Heap.size_setPtr (H.blocks.sep ?_ ?_ (Ne.symm hxa))
        · simp only [List.mem_cons, List.mem_append] at ha ⊢
          tauto
        · simp only [List.mem_cons, List.mem_append] at hx ⊢
          rcases hx with rfl | hx
          · exact .inr (.inl hp)
          · exact .inr (.inr hx)
    refine ⟨h.ptr a, { h.setPtr a (h.ptr (h.ptr a)) with freep := a }, _, ?_,
      H'.congr rfl rfl (fun _ _ => rfl) fun _ _ => rfl, ?_,
      ⟨rfl, rfl, fun y hy => hsize y (List.mem_cons_of_mem _ hy)⟩, rfl, rfl, ?_⟩
    · rw [Heap.takeBlock, if_pos heq]
    · change a ∈ h.base :: _
      rw [cons_tail_eq hsplit]
      simp
    · exact (hsize _ List.mem_cons_self).trans heq
  · have H' := H.take_tail hp hn (Nat.lt_of_le_of_ne hle (Ne.symm heq))
    set m := h.size (h.ptr a) - n with hm
    set q := h.ptr a + 8 * m with hq
    have hsame : ∀ y ∈ ys, ((h.setSize (h.ptr a) m).setSize q n).size y = h.size y := by
      intro y hy
      have hnodup := H.blocks.nodup
      have hpy : Heap.Sep (h.ptr a) y := by
        refine H.blocks.sep (by simp [hp]) (by simp [hy]) ?_
        rintro rfl
        simp only [List.nodup_cons, List.nodup_append] at hnodup
        exact hnodup.2.2.2 _ hp _ hy rfl
      have hqy : Heap.Sep q y :=
        (H'.blocks.perm List.perm_middle).sep_head (List.mem_cons_of_mem _ (by simp [hy]))
      rw [Heap.size_setSize hqy, Heap.size_setSize hpy]
    refine ⟨q, { (h.setSize (h.ptr a) m).setSize q n with freep := a }, xs, ?_,
      H'.congr rfl rfl (fun _ _ => rfl) fun _ _ => rfl, ha, ⟨rfl, rfl, hsame⟩, rfl, rfl, ?_⟩
    · rw [Heap.takeBlock, if_neg heq]
      simp only [Heap.size_setSize_self]
      rfl
    · exact Heap.size_setSize_self

/-- The memory obtained ends at `top`. -/
structure Bounded (h : Heap) : Prop where
  got : ∀ g ∈ h.got, g.stop ≤ h.top
  base : h.base + 8 ≤ h.top

/-- **More memory** goes on the list as one block. -/
theorem morecore_spec {g : ℕ} (H : FreeList h xs ys) (hb : Bounded h)
    (hf : h.freep ∈ h.base :: xs) (hn : n * 8 < 2 ^ 31) (hk : xs.length + 1 ≤ k) :
    ∃ h' xs', h.morecore k n (some g) = some (some h') ∧ FreeList h' xs' ys ∧
      h'.freep ∈ h'.base :: xs' ∧ Same h h' ys ∧ Bounded h' ∧ xs'.length ≤ xs.length + 1 ∧
      ∃ x ∈ xs', n ≤ h'.size x := by
  obtain ⟨nu, hnu⟩ : ∃ nu, nu = if n < 4096 then 4096 else n := ⟨_, rfl⟩
  have hnle : n ≤ nu ∧ 0 < nu ∧ nu * 8 < 2 ^ 31 := by
    rw [hnu]
    split <;> omega
  obtain ⟨p, hp⟩ : ∃ p, p = h.top + 8 * g := ⟨_, rfl⟩
  set h₁ : Heap := ({ h with top := p + nu * 8, got := ⟨p, nu * 8⟩ :: h.got } : Heap).setSize p nu
    with hh₁
  -- the new block is above all others
  have hbelow : ∀ x ∈ h.base :: (xs ++ ys), x + 8 ≤ p := by
    intro x hx
    rcases List.mem_cons.mp hx with rfl | hx
    · have := hb.base
      omega
    · have hpos := H.blocks.pos hx
      have hstop := H.blocks.tiles.stop_le_of_forall hb.got (List.mem_map_of_mem hx)
      simp only [Extent.stop, Heap.block] at hstop
      omega
  have hsize : ∀ x ∈ h.base :: (xs ++ ys), h₁.size x = h.size x := fun x hx =>
    (Heap.size_setSize (.inr (hbelow x hx))).trans rfl
  have hpsize : h₁.size p = nu := Heap.size_setSize_self
  have hmap : (xs ++ ys).map h₁.block = (xs ++ ys).map h.block := List.map_congr_left fun x hx => by
    rw [Heap.block, Heap.block, hsize x (List.mem_cons_of_mem _ hx)]
  have B : Blocks h₁ (p :: (xs ++ ys)) := by
    refine ⟨?_, ?_, ?_⟩
    · rw [List.map_cons, hmap, Heap.block, hpsize, Nat.mul_comm 8 nu]
      refine H.blocks.tiles.grow (fun x hx => ?_) (by simp only; omega)
      have := hb.got x hx
      simp only
      omega
    · intro x hx
      rcases List.mem_cons.mp hx with rfl | hx
      · have := hb.base
        change h.base + 8 ≤ p
        omega
      · exact H.blocks.low x hx
    · exact (hsize _ List.mem_cons_self).trans H.blocks.base
  have H₁ : FreeList h₁ xs (p :: ys) := by
    refine ⟨?_, ?_, B.perm List.perm_middle.symm⟩
    · refine H.ring.congr fun x hx => ?_
      refine (Heap.ptr_setSize (.inr (hbelow x ?_))).trans rfl
      simp only [List.mem_cons, List.mem_append] at hx ⊢
      tauto
    · refine H.gaps.imp_of_mem fun {x y} hx _ hxy => ?_
      rwa [hsize x (by simp only [List.mem_cons, List.mem_append] at hx ⊢; tauto)]
  obtain ⟨h', xs', hfree, H', hf', hsame, htop, hgot, hlen, x, hx, hxle⟩ := free_spec H₁ hf hk
  refine ⟨h', xs', ?_, H', hf', ⟨hsame.base, hsame.live, fun y hy => ?_⟩, ⟨?_, ?_⟩, hlen, x, hx, ?_⟩
  · have hmod : nu * 8 % 2 ^ 32 = nu * 8 := Nat.mod_eq_of_lt (by omega)
    simp only [Heap.morecore, ← hnu, hmod, Heap.sbrk, if_pos hnle.2.2, ← hp]
    rw [← hh₁, hfree]
    rfl
  · rw [hsame.size y hy, hsize y (by simp [hy])]
  · rw [htop, hgot]
    intro y hy
    rcases List.mem_cons.mp hy with rfl | hy
    · exact Nat.le_refl _
    · have := hb.got y hy
      change y.stop ≤ p + nu * 8
      omega
  · rw [htop, hsame.base]
    have := hb.base
    change h.base + 8 ≤ p + nu * 8
    omega
  · rw [hpsize] at hxle
    omega

/-- **`malloc`'s loop** returns 0 and changes nothing if no block is large enough and `sbrk` fails,
and else a block of the units asked for. -/
theorem mallocLoop_spec (gap : Option ℕ) (H : FreeList h xs ys) (hb : Bounded h)
    (hf : h.freep ∈ h.base :: xs)
    (hpos : 0 < n) (hn : n * 8 < 2 ^ 31) (hk : 2 * xs.length + 4 ≤ k) :
    ∃ r h', Heap.mallocLoop n gap k h h.freep (h.ptr h.freep) = some (r, h') ∧
      (((∀ a ∈ h.base :: xs, h.size (h.ptr a) < n) ∧ gap = none ∧ r = 0 ∧ h' = h) ∨
        ((∃ a ∈ h.base :: xs, n ≤ h.size (h.ptr a)) ∨ gap.isSome = true) ∧
        ∃ q xs', r = q + 8 ∧ FreeList h' xs' (q :: ys) ∧
          h'.freep ∈ h'.base :: xs' ∧ Same h h' ys ∧ Bounded h' ∧ h'.size q = n) := by
  obtain ⟨l, hpath, hl, hlen, hmem⟩ := H.rotate hf
  -- a block that is large enough is found within one round
  have hfound : ∀ {h : Heap} {xs l : List ℕ} {k a : ℕ}, FreeList h xs ys → Bounded h →
      Path h.ptr h.freep l h.freep → h.freep ∉ l → (∀ a, a ∈ h.freep :: l ↔ a ∈ h.base :: xs) →
      a ∈ h.base :: xs → n ≤ h.size (h.ptr a) → l.length < k →
      ∃ q h' xs', Heap.mallocLoop n gap k h h.freep (h.ptr h.freep) = some (q + 8, h') ∧
        FreeList h' xs' (q :: ys) ∧ h'.freep ∈ h'.base :: xs' ∧ Same h h' ys ∧ Bounded h' ∧
        h'.size q = n := by
    intro h xs l k a H hb hpath hl hmem ha hsize hk
    obtain ⟨b, hb', hle, hloop⟩ := mallocLoop_found hpath hl ((hmem a).mpr ha) hsize hk
    obtain ⟨q, h', xs', htake, H', hf', hsame, htop, hgot, hq⟩ :=
      takeBlock_spec H ((hmem b).mp hb') hpos hle
    exact ⟨q, h', xs', by rw [hloop, htake], H', hf', hsame,
      ⟨by rw [htop, hgot]; exact hb.got, by rw [htop, hsame.base]; exact hb.base⟩, hq⟩
  by_cases hex : ∃ a ∈ h.base :: xs, n ≤ h.size (h.ptr a)
  · obtain ⟨a, ha, hsize⟩ := hex
    obtain ⟨q, h', xs', hloop, hrest⟩ := hfound (k := k) H hb hpath hl hmem ha hsize (by omega)
    exact ⟨q + 8, h', hloop, .inr ⟨.inl ⟨a, ha, hsize⟩, q, xs', rfl, hrest⟩⟩
  · have hnone : ∀ a ∈ h.freep :: l, h.size (h.ptr a) < n := fun a ha => by
      by_contra hle
      exact hex ⟨a, (hmem a).mp ha, by omega⟩
    obtain ⟨j, rfl⟩ : ∃ j, k = j + 1 + l.length := ⟨k - 1 - l.length, by omega⟩
    rw [mallocLoop_full hpath hl hnone]
    cases gap with
    | none =>
      exact ⟨0, h, rfl, .inl ⟨fun a ha => hnone a ((hmem a).mpr ha), rfl, rfl, rfl⟩⟩
    | some g =>
      obtain ⟨h₁, xs₁, hmore, H₁, hf₁, hsame₁, hb₁, hlen₁, x, hx, hxle⟩ :=
        morecore_spec (g := g) H hb hf hn (k := j) (by omega)
      obtain ⟨l₁, hpath₁, hl₁, hlenl, hmem₁⟩ := H₁.rotate hf₁
      obtain ⟨a, ha, rfl⟩ := H₁.exists_prev hx
      obtain ⟨q, h', xs', hloop, H', hf', hsame, hb', hq⟩ :=
        hfound (k := j) H₁ hb₁ hpath₁ hl₁ hmem₁ ha hxle (by omega)
      rw [hmore]
      refine ⟨q + 8, h', hloop, .inr ⟨.inr rfl, q, xs', rfl, H', hf',
        ⟨?_, ?_, fun y hy => ?_⟩, hb', hq⟩⟩
      · rw [hsame.base, hsame₁.base]
      · rw [hsame.live, hsame₁.live]
      · rw [hsame.size y hy, hsame₁.size y hy]

/-! More fuel gives the same results. -/

/-- More fuel does not change the result of `free`. -/
theorem free_mono {ap : ℕ} {h' : Heap} (hfree : h.free k ap = some h') (hkm : k ≤ m) :
    h.free m ap = some h' := by
  simp only [Heap.free, Option.map_eq_some_iff] at hfree ⊢
  obtain ⟨r, hr, rfl⟩ := hfree
  rw [freeLoop_eq_search] at hr
  exact ⟨r, by rw [freeLoop_eq_search]; exact search_mono hr hkm, rfl⟩

/-- More fuel does not change the result of `morecore`. -/
theorem morecore_mono {r : Option Heap} (hmore : h.morecore k n gap = some r) (hkm : k ≤ m) :
    h.morecore m n gap = some r := by
  unfold Heap.morecore at hmore ⊢
  dsimp only at hmore ⊢
  split at hmore
  · exact hmore
  · obtain ⟨h', hfree, rfl⟩ := Option.map_eq_some_iff.mp hmore
    rw [free_mono hfree hkm]
    rfl

/-- More fuel does not change the result of the loop of `malloc`. -/
theorem mallocLoop_mono {r : ℕ × Heap} (hloop : Heap.mallocLoop n gap k h a p = some r)
    (hkm : k ≤ m) : Heap.mallocLoop n gap m h a p = some r := by
  induction k generalizing h a p m with
  | zero => cases hloop
  | succ k ih =>
    obtain ⟨m, rfl⟩ : ∃ j, m = j + 1 := ⟨m - 1, by omega⟩
    have hkm : k ≤ m := by omega
    rw [Heap.mallocLoop] at hloop ⊢
    by_cases hsize : h.size p ≥ n
    · rwa [if_pos hsize] at hloop ⊢
    rw [if_neg hsize] at hloop ⊢
    by_cases hp : p = h.freep
    · rw [if_pos hp] at hloop ⊢
      cases hmore : h.morecore k n gap with
      | none =>
        rw [hmore] at hloop
        cases hloop
      | some x =>
        rw [morecore_mono hmore hkm]
        rw [hmore] at hloop
        cases x with
        | none => exact hloop
        | some h' => exact ih hloop hkm
    · rw [if_neg hp] at hloop ⊢
      exact ih hloop hkm

end Calls

/-! ### Runs -/

/-- The headers of the blocks that the program has. -/
def Heap.lives (h : Heap) : List ℕ := h.live.map fun b => b.1 - 8

/-- **The heap with the free blocks `xs`**: the free list and the program's blocks, each of which
holds the bytes asked for. -/
structure Inv (h : Heap) (xs : List ℕ) : Prop where
  list : FreeList h xs h.lives
  freep : h.freep ∈ h.base :: xs
  bounded : Bounded h
  base : 0 < h.base
  fits : ∀ b ∈ h.live, 8 ≤ b.1 ∧ b.2 + 8 ≤ 8 * h.size (b.1 - 8)

/-- The heap before the first call of `malloc`. -/
structure Unused (h : Heap) : Prop where
  freep : h.freep = 0
  got : h.got = []
  live : h.live = []
  bounded : Bounded h
  base : 0 < h.base

section Runs

variable {h h' : Heap} {xs : List ℕ}

/-- The first call of `malloc` makes a list of `base` alone. -/
theorem Unused.initBase (hu : Unused h) : Inv h.initBase [] := by
  have hinit : h.initBase =
      { (h.setPtr h.base h.base).setSize h.base 0 with freep := h.base } := by
    rw [Heap.initBase, if_pos hu.freep]
  have hlives : h.initBase.lives = [] := by
    rw [hinit]
    exact congrArg (List.map _) hu.live
  rw [hinit] at hlives ⊢
  have hgot : h.got = [] := hu.got
  refine ⟨⟨?_, List.pairwise_singleton _ _, ⟨?_, ?_, ?_⟩⟩, List.mem_cons_self,
    ⟨hu.bounded.got, hu.bounded.base⟩, hu.base, ?_⟩
  · exact Heap.ptr_setSize_self.trans Heap.ptr_setPtr_self
  · rw [hlives]
    change Tiles [] h.got
    rw [hgot]
    exact tiles_nil
  · change ∀ g ∈ h.got, _
    rw [hgot]
    nofun
  · exact Heap.size_setSize_self
  · change ∀ b ∈ h.live, _
    rw [hu.live]
    nofun

/-- The list is set up once. -/
theorem Inv.initBase (hi : Inv h xs) : h.initBase = h := by
  rw [Heap.initBase, if_neg]
  intro hz
  have hf := hi.freep
  rw [hz] at hf
  have hbase := hi.base
  rcases List.mem_cons.mp hf with h0 | h0
  · omega
  · have := hi.list.blocks.base_le (List.mem_append_left _ h0)
    omega

variable {nbytes k : ℕ} {b : ℕ × ℕ}

/-- The units for a request hold the bytes and the header. -/
theorem nunits_spec (hn : nbytes ≤ 2 ^ 31 - 16) :
    0 < Heap.nunits nbytes ∧ Heap.nunits nbytes * 8 < 2 ^ 31 ∧
      nbytes + 8 ≤ 8 * Heap.nunits nbytes := by
  have hmod : (nbytes + 8 - 1) % 2 ^ 32 = nbytes + 7 := Nat.mod_eq_of_lt (by omega)
  rw [Heap.nunits, hmod]
  omega

/-- **`malloc` keeps the heap.** -/
theorem Inv.malloc {gap : Option ℕ} (hi : Inv h xs) (hn : nbytes ≤ 2 ^ 31 - 16)
    (hk : 2 * xs.length + 4 ≤ k) : ∃ r g xs', h.malloc k nbytes gap = some (r, g) ∧
      Inv (g.give r nbytes) xs' := by
  obtain ⟨hpos, hlt, hle⟩ := nunits_spec hn
  obtain ⟨r, g, hloop, hres⟩ :=
    mallocLoop_spec gap hi.list hi.bounded hi.freep hpos hlt hk
  have hmalloc : h.malloc k nbytes gap = some (r, g) := by rw [Heap.malloc, hi.initBase, hloop]
  rcases hres with ⟨-, -, rfl, rfl⟩ | ⟨-, q, xs', rfl, H, hf, hsame, hb, hq⟩
  · exact ⟨0, g, xs, hmalloc, hi⟩
  · have hbase : g.base = h.base := hsame.base
    have hlives : (g.give (q + 8) nbytes).lives = q :: h.lives := by
      rw [Heap.give, if_neg (Nat.succ_ne_zero _)]
      change (q + 8 - 8) :: g.live.map _ = _
      rw [Nat.add_sub_cancel, hsame.live]
      rfl
    have hgive : g.give (q + 8) nbytes = { g with live := (q + 8, nbytes) :: g.live } :=
      if_neg (Nat.succ_ne_zero _)
    refine ⟨q + 8, g, xs', hmalloc, ?_⟩
    rw [hgive] at hlives ⊢
    refine ⟨?_, hf, ⟨hb.got, hb.base⟩, Nat.lt_of_lt_of_eq hi.base hbase.symm, ?_⟩
    · rw [hlives]
      exact H.congr rfl rfl (fun _ _ => rfl) fun _ _ => rfl
    · intro b hbmem
      rcases List.mem_cons.mp hbmem with rfl | hbmem
      · change 8 ≤ q + 8 ∧ nbytes + 8 ≤ 8 * g.size (q + 8 - 8)
        rw [Nat.add_sub_cancel, hq]
        exact ⟨by omega, hle⟩
      · rw [hsame.live] at hbmem
        have hfits := hi.fits b hbmem
        refine ⟨hfits.1, ?_⟩
        change b.2 + 8 ≤ 8 * g.size (b.1 - 8)
        rw [hsame.size _ (List.mem_map_of_mem hbmem)]
        exact hfits.2

theorem FreeList.perm_right {ys zs : List ℕ} (H : FreeList h xs ys) (hp : ys.Perm zs) :
    FreeList h xs zs := ⟨H.ring, H.gaps, H.blocks.perm (hp.append_left xs)⟩

/-- A block of the program, and the others. -/
theorem Inv.lives_perm (hi : Inv h xs) (hb : b ∈ h.live) :
    h.lives.Perm ((b.1 - 8) :: (h.forget b.1).lives) := by
  obtain ⟨l₁, l₂, hsplit⟩ := List.append_of_mem hb
  have hnodup : h.lives.Nodup :=
    (List.nodup_append.mp (List.nodup_cons.mp hi.list.blocks.nodup).2).2.1
  have hlives : h.lives = l₁.map (fun b => b.1 - 8) ++ (b.1 - 8) :: l₂.map (fun b => b.1 - 8) := by
    rw [Heap.lives, hsplit, List.map_append, List.map_cons]
  rw [hlives, List.nodup_middle, List.nodup_cons] at hnodup
  have hother : ∀ c ∈ l₁ ++ l₂, decide (c.1 ≠ b.1) = true := by
    intro c hc
    refine decide_eq_true fun heq => hnodup.1 ?_
    rw [← List.map_append, ← heq]
    exact List.mem_map_of_mem hc
  have hforget : (h.forget b.1).live = l₁ ++ l₂ := by
    rw [Heap.forget]
    change h.live.filter _ = _
    rw [hsplit, List.filter_append, List.filter_cons_of_neg (by simp),
      List.filter_eq_self.mpr fun c hc => hother c (List.mem_append_left _ hc),
      List.filter_eq_self.mpr fun c hc => hother c (List.mem_append_right _ hc)]
  rw [hlives, Heap.lives, hforget, List.map_append]
  exact List.perm_middle

/-- **`free` keeps the heap.** -/
theorem Inv.free (hi : Inv h xs) (hb : b ∈ h.live) (hk : xs.length + 1 ≤ k) :
    ∃ g xs', h.free k b.1 = some g ∧ Inv (g.forget b.1) xs' := by
  have hfits := hi.fits b hb
  have H := hi.list.perm_right (hi.lives_perm hb)
  obtain ⟨g, xs', hfree, H', hf, hsame, htop, hgot, -⟩ := free_spec H hi.freep hk
  rw [Nat.sub_add_cancel hfits.1] at hfree
  have hlive : (g.forget b.1).live = (h.forget b.1).live := by
    simp only [Heap.forget, hsame.live]
  have hlives : (g.forget b.1).lives = (h.forget b.1).lives := by rw [Heap.lives, hlive]; rfl
  refine ⟨g, xs', hfree, ?_, hf, ⟨?_, ?_⟩, ?_, fun c hc => ?_⟩
  · rw [hlives]
    exact H'.congr rfl rfl (fun _ _ => rfl) fun _ _ => rfl
  · change ∀ x ∈ g.got, x.stop ≤ g.top
    rw [htop, hgot]
    exact hi.bounded.got
  · change g.base + 8 ≤ g.top
    rw [htop, hsame.base]
    exact hi.bounded.base
  · exact Nat.lt_of_lt_of_eq hi.base hsame.base.symm
  · rw [hlive] at hc
    have hc' : c ∈ h.live := List.mem_of_mem_filter hc
    refine ⟨(hi.fits c hc').1, ?_⟩
    change c.2 + 8 ≤ 8 * g.size (c.1 - 8)
    rw [hsame.size _ (List.mem_map_of_mem hc)]
    exact (hi.fits c hc').2

/-- The headers are in no block's bytes. -/
theorem Inv.header_outside (hi : Inv h xs) {x i : ℕ} (hx : x ∈ h.base :: (xs ++ h.lives))
    (hi4 : i ≤ 4) (hb : b ∈ h.live) : ¬ (b.1 ≤ x + i ∧ x + i < b.1 + b.2) := by
  have B := hi.list.blocks
  have hfits := hi.fits b hb
  have hbmem : b.1 - 8 ∈ xs ++ h.lives := List.mem_append_right _ (List.mem_map_of_mem hb)
  by_cases hxb : x = b.1 - 8
  · omega
  rcases List.mem_cons.mp hx with rfl | hx
  · have := B.base_le hbmem
    omega
  rcases Nat.lt_or_gt_of_ne hxb with hlt | hlt
  · have hsep := B.sep (List.mem_cons_of_mem _ hx) (List.mem_cons_of_mem _ hbmem) hxb
    simp only [Heap.Sep] at hsep
    omega
  · have := B.stop_le hbmem hx hlt
    omega

/-- **Writing into the blocks keeps the heap.** -/
theorem Inv.store {mem : ℕ → ℕ} (hi : Inv h xs)
    (hmem : ∀ a, (∀ b ∈ h.live, ¬ (b.1 ≤ a ∧ a < b.1 + b.2)) → mem a = h.mem a) :
    Inv { h with mem } xs := by
  have hheader : ∀ x ∈ h.base :: (xs ++ h.lives), ∀ i ≤ 4, mem (x + i) = h.mem (x + i) :=
    fun x hx i hi4 => hmem _ fun b hb => hi.header_outside hx hi4 hb
  have hsize : ∀ x ∈ h.base :: (xs ++ h.lives), ({ h with mem } : Heap).size x = h.size x :=
    fun x hx => hheader x hx 4 (Nat.le_refl 4)
  refine ⟨hi.list.congr rfl rfl (fun x hx => ?_) hsize, hi.freep, ⟨hi.bounded.got, hi.bounded.base⟩,
    hi.base, fun b hb => ⟨(hi.fits b hb).1, ?_⟩⟩
  · refine hheader x ?_ 0 (Nat.zero_le 4)
    simp only [List.mem_cons, List.mem_append] at hx ⊢
    tauto
  · rw [hsize _ (List.mem_cons_of_mem _ (List.mem_append_right _ (List.mem_map_of_mem hb)))]
    exact (hi.fits b hb).2

/-- The heap in every state of a run. -/
theorem reachable_inv (hr : system.Reachable h) : Unused h ∨ ∃ xs, Inv h xs := by
  refine hr.invariant (I := fun h => Unused h ∨ ∃ xs, Inv h xs) ?_ ?_
  · rintro h ⟨hf, hbase, htop, -, hgot, hlive⟩
    exact .inl ⟨hf, hgot, hlive, ⟨by rw [hgot]; nofun, htop⟩, hbase⟩
  · rintro h c h' hinv hstep
    cases c with
    | malloc nbytes gap =>
      obtain ⟨hn, fuel, r, g, hmalloc, rfl⟩ := hstep
      -- the list is there once `malloc` has started
      obtain ⟨xs, hi, hsame⟩ : ∃ xs, Inv h.initBase xs ∧ h.initBase.initBase = h.initBase := by
        rcases hinv with hu | ⟨xs, hi⟩
        · exact ⟨[], hu.initBase, hu.initBase.initBase⟩
        · exact ⟨xs, by rw [hi.initBase]; exact hi, by rw [hi.initBase, hi.initBase]⟩
      have hmalloc' := mallocLoop_mono hmalloc (Nat.le_max_left fuel (2 * xs.length + 4))
      obtain ⟨r', g', xs', hres, hi'⟩ :=
        hi.malloc hn.le (Nat.le_max_right fuel (2 * xs.length + 4))
      rw [Heap.malloc, hsame, hmalloc'] at hres
      cases hres
      exact .inr ⟨xs', hi'⟩
    | free ap =>
      obtain ⟨⟨nbytes, hb⟩, fuel, g, hfree, rfl⟩ := hstep
      rcases hinv with hu | ⟨xs, hi⟩
      · rw [hu.live] at hb
        cases hb
      · have hfree' := free_mono hfree (Nat.le_max_left fuel (xs.length + 1))
        obtain ⟨g', xs', hres, hi'⟩ := hi.free hb (Nat.le_max_right fuel (xs.length + 1))
        rw [hfree'] at hres
        cases hres
        exact .inr ⟨xs', hi'⟩
    | store mem =>
      obtain ⟨rfl, hmem⟩ := hstep
      rcases hinv with hu | ⟨xs, hi⟩
      · exact .inl ⟨hu.freep, hu.got, hu.live, ⟨hu.bounded.got, hu.bounded.base⟩, hu.base⟩
      · exact .inr ⟨xs, hi.store hmem⟩

/-- **The user heap is correct.** In every state of every run `malloc` has not been called yet, or
the free list is a circle in the order of the addresses, with `base` first, of blocks that are
neither adjacent nor overlap; the free blocks and those of the program are disjoint and cover the
memory obtained; and a block of the program holds the bytes asked for. Every call returns. -/
theorem heap_correct (hr : system.Reachable h) :
    ((h.freep = 0 ∧ h.got = [] ∧ h.live = []) ∨
      ∃ xs, Ring h.ptr (h.base :: xs) ∧ h.freep ∈ h.base :: xs ∧
        ((h.base :: xs).Pairwise fun a b => a + 8 * h.size a < b) ∧
        Tiles ((xs ++ h.live.map fun b : ℕ × ℕ => b.1 - 8).map h.block) h.got ∧
        ∀ b ∈ h.live, ∀ a, b.1 ≤ a → a < b.1 + b.2 → (h.block (b.1 - 8)).Has a) ∧
    (∀ nbytes gap, nbytes < 2 ^ 31 - 16 → ∃ n, ∀ fuel ≥ n, (h.malloc fuel nbytes gap).isSome) ∧
    ∀ b ∈ h.live, ∃ n, ∀ fuel ≥ n, (h.free fuel b.1).isSome := by
  rcases reachable_inv hr with hu | ⟨xs, hi⟩
  · refine ⟨.inl ⟨hu.freep, hu.got, hu.live⟩, fun nbytes gap hn => ⟨4, fun fuel hfuel => ?_⟩, ?_⟩
    · obtain ⟨r, g, -, hmalloc, -⟩ := hu.initBase.malloc hn.le hfuel
      rw [Heap.malloc, hu.initBase.initBase] at hmalloc
      exact Option.isSome_iff_exists.mpr ⟨_, hmalloc⟩
    · rw [hu.live]
      nofun
  · refine ⟨.inr ⟨xs, hi.list.ring, hi.freep, hi.list.gaps, hi.list.blocks.tiles, ?_⟩, ?_, ?_⟩
    · intro b hb a hle hlt
      have hfits := hi.fits b hb
      simp only [Extent.Has, Extent.stop, Heap.block]
      omega
    · intro nbytes gap hn
      refine ⟨2 * xs.length + 4, fun fuel hfuel => ?_⟩
      obtain ⟨r, g, -, hmalloc, -⟩ := hi.malloc hn.le hfuel
      exact Option.isSome_iff_exists.mpr ⟨_, hmalloc⟩
    · intro b hb
      refine ⟨xs.length + 1, fun fuel hfuel => ?_⟩
      obtain ⟨g, -, hfree, -⟩ := hi.free hb hfuel
      exact Option.isSome_iff_exists.mpr ⟨_, hfree⟩

/-- A process without a heap. -/
def noHeap : Heap := ⟨fun _ => 0, 3000, 0, 4096, [], []⟩

/-- The first block of 100 bytes can be freed. -/
theorem heap_correct_first : ∃ h b, system.Reachable h ∧ b ∈ h.live ∧ b.2 = 100 ∧
    ∃ n, ∀ fuel ≥ n, (h.free fuel b.1).isSome := by
  have hcall : (noHeap.malloc 10 100 (some 0)).map (fun x => x.1) = some (4096 + 8 * 4082 + 8) := by
    decide +kernel
  obtain ⟨⟨r, g⟩, hmalloc, rfl⟩ := Option.map_eq_some_iff.mp hcall
  have hinit : system.Reachable noHeap :=
    .init ⟨rfl, by decide, by decide, by decide, rfl, rfl⟩
  have hr : system.Reachable (g.give (4096 + 8 * 4082 + 8) 100) :=
    hinit.step (l := .malloc 100 (some 0)) ⟨by decide, 10, _, g, hmalloc, rfl⟩
  exact ⟨_, (4096 + 8 * 4082 + 8, 100), hr, List.mem_cons_self, rfl,
    (heap_correct hr).2.2 _ List.mem_cons_self⟩

end Runs

end Xv6.Umalloc
