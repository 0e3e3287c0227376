import Mathlib.Data.Finset.Card
import Xv6.BlockOwner

/-!
# Growing a File

What `bmap` does to the state when blocks are missing: it allocates the missing positions of a
path one after the other, from the inode down. `Ext s t ip N D` says that `t` comes from `s` by
allocating the positions `N` of the inode of cache entry `ip` and writing the data blocks at the
positions `D`: it has the ownership invariant, the frame for all other blocks and inodes, which
free blocks were taken and which sectors were logged. These relations compose (`Ext.trans`), so
the loops above `bmap` never look at a single allocation.

## Main results

* `CanGrow.own_grow`, `Ext.grow`: one allocation.
* `wp_bmap`: **`bmap` allocates exactly the missing positions of its path**, and fails only if
  there are fewer free data blocks than that.
-/

namespace Xv6

/-- The state after one missing pointer has been allocated the block `b`: an entry of `addrs`,
or an entry of an indirect block. -/
def Sys.grow (s : Sys) (ip r : ℕ) (js : List ℕ) (b : ℕ) : Sys :=
  match js with
  | [] => (s.allocBlock b).setDin ip ((s.icache ip).din.setAddr r b)
  | j :: js =>
    let blk := s.ptr ⟨(s.icache ip).inum, r, js⟩
    (s.allocBlock b).logPut blk (((s.allocBlock b).disk blk).setWord j b)

/-- The pointer at the end of the path is missing, those above it are not, and `b` is a free
block of the data area. -/
structure CanGrow (s : Sys) (ip r : ℕ) (js : List ℕ) (b : ℕ) : Prop where
  own : Own s
  held : s.Held ip
  pos : ValidPos r js
  unset : s.ptr ⟨(s.icache ip).inum, r, js⟩ = 0
  parent : js ≠ [] → s.ptr ⟨(s.icache ip).inum, r, js.tail⟩ ≠ 0
  unused : s.used b = false
  lt : b < s.log.start

section Grow

variable {s : Sys} {ip r b x : ℕ} {js : List ℕ}

@[simp] theorem grow_start : (s.grow ip r js b).log.start = s.log.start := by
  cases js <;> rfl

@[simp] theorem grow_size : (s.grow ip r js b).log.size = s.log.size := by
  cases js <;> rfl

@[simp] theorem grow_busy : (s.grow ip r js b).log.busy = s.log.busy := by
  cases js <;> rfl

/-- The blocks in the log after a new block. -/
theorem mem_grow_lh : x ∈ (s.grow ip r js b).log.lh ↔
    x ∈ s.log.lh ∨ x = b ∨ x = BBLOCK b s.sb.ninodes ∨
      (js ≠ [] ∧ x = s.ptr ⟨(s.icache ip).inum, r, js.tail⟩) := by
  cases js with
  | nil =>
    have := Sys.mem_allocBlock_lh (s := s) (b := b) (x := x)
    simp only [Sys.grow, Sys.setDin_log, this]
    tauto
  | cons j js =>
    simp only [Sys.grow, Sys.mem_logPut_lh, Sys.mem_allocBlock_lh, List.tail_cons]
    simp only [ne_eq, reduceCtorEq, not_false_eq_true, true_and]
    tauto

/-- The sectors that an allocation changes are the new block, its bitmap block and the indirect
block that gets the pointer. -/
theorem disk_grow_of_ne (hx : x ≤ s.log.start) (hxb : x ≠ b) (hxm : x ≠ BBLOCK b s.sb.ninodes)
    (hxp : js ≠ [] → x ≠ s.ptr ⟨(s.icache ip).inum, r, js.tail⟩) :
    (s.grow ip r js b).disk x = s.disk x := by
  have halloc : (s.allocBlock b).disk x = s.disk x := by
    rw [Sys.disk_allocBlock hx, if_neg hxb, if_neg hxm]
  cases js with
  | nil => exact halloc
  | cons j js =>
    have hne := hxp (by simp)
    simp only [Sys.grow, List.tail_cons] at hne ⊢
    rw [Sys.disk_logPut (by simpa using hx), if_neg hne, halloc]

namespace CanGrow

variable (g : CanGrow s ip r js b)
include g

theorem metaEnd_le : s.sb.metaEnd ≤ b := g.own.metaEnd_le g.unused

theorem lt_size : b < s.sb.size := lt_of_lt_of_le g.lt g.own.start_le

theorem bblock_lt : BBLOCK b s.sb.ninodes < s.sb.metaEnd :=
  Superblock.bblock_lt_metaEnd g.lt_size

/-- The indirect block that gets the new pointer is neither the new block nor metadata. -/
theorem parent_range (hne : js ≠ []) :
    s.sb.metaEnd ≤ s.ptr ⟨(s.icache ip).inum, r, js.tail⟩ ∧
      s.ptr ⟨(s.icache ip).inum, r, js.tail⟩ < s.log.start ∧
      s.ptr ⟨(s.icache ip).inum, r, js.tail⟩ ≠ b := by
  obtain ⟨j, js, rfl⟩ := List.exists_cons_of_ne_nil hne
  have hvp : Pos.Valid s.sb.ninodes ⟨(s.icache ip).inum, r, js⟩ :=
    ⟨g.own.inum_lt ip g.held, g.pos.tail⟩
  have hp := g.parent hne
  exact ⟨(g.own.range _ hvp hp).1, (g.own.range _ hvp hp).2,
    g.own.ptr_ne_free g.unused hvp hp⟩

/-- The new block is zeroed. -/
theorem disk_self : (s.grow ip r js b).disk b = Block.zero := by
  have halloc : (s.allocBlock b).disk b = Block.zero := by
    rw [Sys.disk_allocBlock g.lt.le, if_pos rfl]
  cases js with
  | nil => exact halloc
  | cons j js =>
    have hne := (g.parent_range (by simp)).2.2
    simp only [Sys.grow, List.tail_cons] at hne ⊢
    rw [Sys.disk_logPut (by simpa using g.lt.le), if_neg hne.symm, halloc]

/-- The new block is in the entry of its parent. -/
theorem disk_parent {j : ℕ} {js' : List ℕ} (hjs : js = j :: js') :
    (s.grow ip r js b).disk (s.ptr ⟨(s.icache ip).inum, r, js'⟩) =
      (s.disk (s.ptr ⟨(s.icache ip).inum, r, js'⟩)).setWord j b := by
  subst hjs
  obtain ⟨h1, h2, h3⟩ := g.parent_range (by simp)
  have hm := g.bblock_lt
  simp only [List.tail_cons] at h1 h2 h3
  simp only [Sys.grow]
  rw [Sys.disk_logPut (by simpa using h2.le), if_pos rfl, Sys.disk_allocBlock h2.le,
    if_neg h3, if_neg (by omega)]

/-- The superblock is not written to. -/
theorem sb_eq : (s.grow ip r js b).sb = s.sb := by
  have h3 := g.own.three_lt_start
  have hge := g.metaEnd_le
  rw [Superblock.metaEnd_eq] at hge
  refine Sys.sb_eq_of_disk (disk_grow_of_ne (by omega) (by omega) ?_ fun hne => ?_)
  · rw [bblock_eq]
    omega
  · have := (g.parent_range hne).1
    rw [Superblock.metaEnd_eq] at this
    omega

/-- An allocation marks the new block and changes no other bit. -/
theorem used_eq (hx : x < s.sb.size) :
    (s.grow ip r js b).used x = if x = b then true else s.used x := by
  rw [← Sys.used_allocBlock g.own.toLayout g.metaEnd_le hx]
  have hsb := Sys.sb_allocBlock g.own.toLayout g.metaEnd_le
  refine Sys.used_congr (g.sb_eq.trans hsb.symm) ?_ (by rwa [hsb])
  rw [hsb]
  intro y hy
  have hle := g.own.meta_le
  cases js with
  | nil => rfl
  | cons j js =>
    have := (g.parent_range (by simp)).1
    simp only [Sys.grow, List.tail_cons] at this ⊢
    rw [Sys.disk_logPut (by rw [Sys.allocBlock_start]; omega), if_neg (by omega)]

/-- The new entry of `addrs` is a 32-bit number. -/
theorem fits : ((s.icache ip).din.setAddr r b).Fits := by
  have hfit := g.own.fits ip g.held
  refine ⟨hfit.size, fun k => ?_⟩
  have hlt := g.lt_size
  have hsize : s.sb.size < 2 ^ 32 := Block.word_lt _ _
  rw [Dinode.addr_setAddr _ g.pos.root]
  split_ifs
  · omega
  · exact hfit.addr k

/-- The log stays well formed. -/
theorem logOk : LogOk (s.grow ip r js b) := by
  have hm := g.bblock_lt
  have hme := g.own.meta_le
  have halloc : LogOk (s.allocBlock b) := (g.own.toLogOk.logPut (by omega) _).logPut g.lt _
  cases js with
  | nil => exact { halloc with }
  | cons j js => exact halloc.logPut (g.parent_range (by simp)).2.1 _

/-- The inode cache stays well formed. -/
theorem cacheOk : (s.grow ip r js b).CacheOk := by
  have hsb := g.sb_eq
  cases js with
  | nil =>
    have halloc : (s.allocBlock b).CacheOk :=
      g.own.toCacheOk.congr rfl (Sys.sb_allocBlock g.own.toLayout g.metaEnd_le)
    exact halloc.setDin g.fits
  | cons j js => exact g.own.toCacheOk.congr rfl hsb

/-- Blocks that are not metadata, not new and get no new pointer stay as they are. -/
theorem disk_eq (hx : x < s.log.start) (hxm : s.sb.metaEnd ≤ x) (hxb : x ≠ b)
    (hxp : js ≠ [] → x ≠ s.ptr ⟨(s.icache ip).inum, r, js.tail⟩) :
    (s.grow ip r js b).disk x = s.disk x := by
  have hm := g.bblock_lt
  exact disk_grow_of_ne hx.le hxb (by omega) hxp

/-- The inode gets the new entry of `addrs`, if that is where the pointer is. -/
theorem dinode_eq {i : ℕ} (hi : i < s.sb.ninodes) :
    (s.grow ip r js b).dinode i =
      if i = (s.icache ip).inum ∧ js = [] then (s.icache ip).din.setAddr r b
      else s.dinode i := by
  have hblk := iblock_lt_bblock hi b
  have hm := g.bblock_lt
  have hge := g.metaEnd_le
  have hme := g.own.meta_le
  have halloc : (s.allocBlock b).dinode i = s.dinode i := by
    refine Sys.dinode_congr_disk rfl ?_
    rw [Sys.disk_allocBlock (by omega), if_neg (by omega), if_neg (by omega)]
  cases js with
  | nil =>
    have huniq : (s.allocBlock b).Uniq := g.own.uniq
    have hheld : (s.allocBlock b).Held ip := { g.held with }
    simp only [Sys.grow, and_true]
    rw [Sys.dinode_setDin huniq hheld, halloc]
    rfl
  | cons j js =>
    simp only [reduceCtorEq, and_false, if_false]
    refine Sys.dinode_congr_disk rfl (disk_grow_of_ne (by omega) (by omega) (by omega) ?_)
    intro hne
    have := (g.parent_range hne).1
    omega

/-- **An allocation by `bmap` sets one pointer.** -/
theorem ptr_eq {q : Pos} (hq : q.Valid s.sb.ninodes) :
    (s.grow ip r js b).ptr q =
      if q = ⟨(s.icache ip).inum, r, js⟩ then b else s.ptr q := by
  refine ptr_alloc g.unset (fun hne => g.parent hne) (g.own.ne_zero g.unused) g.disk_self
    ?_ ?_ hq
  · intro i hi k hk
    rw [g.dinode_eq hi]
    by_cases hc : i = (s.icache ip).inum ∧ js = []
    · obtain ⟨rfl, rfl⟩ := hc
      rw [if_pos ⟨rfl, rfl⟩, Dinode.addr_setAddr _ g.pos.root,
        Sys.dinode_of_held g.own.uniq g.held]
      simp
    · rw [if_neg hc, if_neg]
      simp only [Pos.mk.injEq]
      tauto
  · intro q hq hnl hne j hj
    have hr := g.own.range q hq hne
    have hqb := g.own.ptr_ne_free g.unused hq hne
    by_cases hc : Pos.mk q.inum q.root (j :: q.path) = ⟨(s.icache ip).inum, r, js⟩
    · simp only [Pos.mk.injEq] at hc
      obtain ⟨h1, h2, h3⟩ := hc
      have hqe : q = ⟨(s.icache ip).inum, r, q.path⟩ := by rw [← h1, ← h2]
      rw [if_pos (by simp [h1, h2, h3]), hqe, g.disk_parent h3.symm,
        Block.word_setWord _ hj, if_pos rfl]
      have hsize : s.sb.size < 2 ^ 32 := Block.word_lt _ _
      have := g.lt_size
      omega
    · rw [if_neg hc]
      by_cases hqp : js ≠ [] ∧ s.ptr q = s.ptr ⟨(s.icache ip).inum, r, js.tail⟩
      · obtain ⟨hjs, hp⟩ := hqp
        obtain ⟨k, js, rfl⟩ := List.exists_cons_of_ne_nil hjs
        have hvp : Pos.Valid s.sb.ninodes ⟨(s.icache ip).inum, r, js⟩ :=
          ⟨g.own.inum_lt ip g.held, g.pos.tail⟩
        have hqe := g.own.inj q _ hq hvp hne hp
        subst hqe
        rw [g.disk_parent rfl, Block.word_setWord_of_ne]
        rintro rfl
        exact hc rfl
      · rw [g.disk_eq hr.2 hr.1 hqb fun hjs hp => hqp ⟨hjs, hp⟩]

/-- **One allocation keeps the invariant.** -/
theorem own_grow : Own (s.grow ip r js b) :=
  g.own.alloc g.sb_eq grow_start g.cacheOk g.logOk g.unused g.lt (fun _ hx => g.used_eq hx)
    fun _ hq => g.ptr_eq hq

end CanGrow

end Grow

/-! ### Extending a file -/

/-- `t` comes from `s` by allocating the missing positions `N` of the inode of cache entry `ip`
and writing the data blocks at the positions `D`. -/
structure Ext (s t : Sys) (ip : ℕ) (N D : Finset Pos) : Prop where
  own : Own t
  sb : t.sb = s.sb
  start : t.log.start = s.log.start
  size : t.log.size = s.log.size
  busy : t.log.busy = s.log.busy
  entry : ∀ a, t.icache a = { s.icache a with din := (t.icache a).din }
  other : ∀ a, a ≠ ip → (t.icache a).din = (s.icache a).din
  fields : ∃ addrs, (t.icache ip).din = { (s.icache ip).din with addrs := addrs }
  inodes : ∀ i < s.sb.ninodes, i ≠ (s.icache ip).inum → t.dinode i = s.dinode i
  new : ∀ q ∈ N, q.Valid s.sb.ninodes ∧ q.inum = (s.icache ip).inum ∧ s.ptr q = 0 ∧ t.ptr q ≠ 0
  old : ∀ q : Pos, q.Valid s.sb.ninodes → q ∉ N → t.ptr q = s.ptr q
  free : ∃ l, s.free = l ++ t.free ∧ ∀ b, b ∈ l ↔ ∃ q ∈ N, t.ptr q = b
  lh : ∀ x, x ∈ t.log.lh ↔ x ∈ s.log.lh ∨
    (∃ q ∈ N, x = t.ptr q ∨ x = BBLOCK (t.ptr q) s.sb.ninodes ∨
      (q.path ≠ [] ∧ x = t.ptr q.parent)) ∨
    ∃ q ∈ D, x = t.ptr q
  written : ∀ q ∈ D, q.Valid s.sb.ninodes ∧ q.Leaf ∧ t.ptr q ≠ 0
  kept : ∀ q : Pos, q.Valid s.sb.ninodes → q.Leaf → q ∉ D → s.ptr q ≠ 0 →
    t.disk (s.ptr q) = s.disk (s.ptr q)
  zeroed : ∀ q ∈ N, q.Leaf → q ∉ D → t.disk (t.ptr q) = Block.zero

namespace Ext

variable {s t u : Sys} {ip : ℕ} {N N' D D' : Finset Pos}

/-- Nothing has been allocated yet. -/
theorem refl (h : Own s) (ip : ℕ) : Ext s s ip ∅ ∅ where
  own := h
  sb := rfl
  start := rfl
  size := rfl
  busy := rfl
  entry _ := rfl
  other _ _ := rfl
  fields := ⟨_, rfl⟩
  inodes _ _ _ := rfl
  new _ hq := absurd hq (Finset.notMem_empty _)
  old _ _ _ := rfl
  free := ⟨[], rfl, by simp⟩
  lh := by simp
  written _ hq := absurd hq (Finset.notMem_empty _)
  kept _ _ _ _ _ := rfl
  zeroed _ hq := absurd hq (Finset.notMem_empty _)

theorem inum (e : Ext s t ip N D) (a : ℕ) : (t.icache a).inum = (s.icache a).inum := by
  rw [e.entry a]

theorem held (e : Ext s t ip N D) {a : ℕ} (ha : s.Held a) : t.Held a := by
  refine ⟨ha.lt, ?_, ?_⟩ <;> rw [e.entry a]
  · exact ha.ref
  · exact ha.valid

theorem size_eq (e : Ext s t ip N D) : (t.icache ip).din.size = (s.icache ip).din.size := by
  obtain ⟨addrs, hf⟩ := e.fields
  rw [hf]

/-- Pointers that are set stay. -/
theorem ptr_of_ne_zero (e : Ext s t ip N D) {q : Pos} (hq : q.Valid s.sb.ninodes)
    (hne : s.ptr q ≠ 0) : t.ptr q = s.ptr q :=
  e.old q hq fun hN => hne (e.new q hN).2.2.1

/-- As many free blocks are taken as positions are allocated. -/
theorem length_free (e : Ext s t ip N D) : s.free.length = N.card + t.free.length := by
  obtain ⟨l, hl, hmem⟩ := e.free
  have hnd : l.Nodup := (List.nodup_append.mp (hl ▸ s.nodup_free)).1
  have himg : l.toFinset = N.image t.ptr := by
    ext b
    rw [List.mem_toFinset, hmem, Finset.mem_image]
  have hinj : Set.InjOn t.ptr N := by
    intro q hq q' hq' he
    have hv := (e.new q hq).1
    have hv' := (e.new q' hq').1
    rw [← e.sb] at hv hv'
    exact e.own.inj q q' hv hv' (e.new q hq).2.2.2 he
  rw [hl, List.length_append, ← List.toFinset_card_of_nodup hnd, himg,
    Finset.card_image_of_injOn hinj]

theorem exists_mem_union {P : Pos → Prop} :
    (∃ q ∈ N ∪ N', P q) ↔ (∃ q ∈ N, P q) ∨ ∃ q ∈ N', P q := by
  simp only [Finset.mem_union, or_and_right, exists_or]

theorem or_or_shuffle {a b c b' c' : Prop} :
    (a ∨ b ∨ c) ∨ b' ∨ c' ↔ a ∨ (b ∨ b') ∨ c ∨ c' := by
  tauto

/-- **Extensions compose.** -/
theorem trans (e : Ext s t ip N D) (e' : Ext t u ip N' D') :
    Ext s u ip (N ∪ N') (D ∪ D') := by
  have hval : ∀ {q : Pos}, q.Valid s.sb.ninodes ↔ q.Valid t.sb.ninodes := by
    rw [e.sb]
  have hkeep : ∀ q : Pos, q.Valid s.sb.ninodes → t.ptr q ≠ 0 → u.ptr q = t.ptr q :=
    fun q hq hne => e'.ptr_of_ne_zero (hval.mp hq) hne
  have hparent : ∀ q ∈ N, q.path ≠ [] → u.ptr q.parent = t.ptr q.parent := by
    intro q hq hne
    obtain ⟨hv, -, -, hp⟩ := e.new q hq
    obtain ⟨i, r, js⟩ := q
    obtain ⟨j, js, rfl⟩ := List.exists_cons_of_ne_nil hne
    exact hkeep _ ⟨hv.inum, hv.pos.tail⟩ (tree_ne_zero_tail hp)
  have hdisj : ∀ q ∈ N', q ∉ N := fun q hq' hq => (e.new q hq).2.2.2 (e'.new q hq').2.2.1
  have hnew : ∀ q ∈ N', s.ptr q = 0 := by
    intro q hq
    obtain ⟨hv, -, h0, -⟩ := e'.new q hq
    rw [← e.old q (hval.mpr hv) (hdisj q hq)]
    exact h0
  refine ⟨e'.own, e'.sb.trans e.sb, e'.start.trans e.start, e'.size.trans e.size,
    e'.busy.trans e.busy, fun a => ?_, fun a ha => (e'.other a ha).trans (e.other a ha), ?_,
    fun i hi hne => ?_, fun q hq => ?_, fun q hq hn => ?_, ?_, fun x => ?_, fun q hq => ?_,
    fun q hq hleaf hd hne => ?_, fun q hq hleaf hd => ?_⟩
  · rw [e'.entry a, e.entry a]
  · obtain ⟨f, hf⟩ := e.fields
    obtain ⟨f', hf'⟩ := e'.fields
    exact ⟨f', by rw [hf', hf]⟩
  · rw [e'.inodes i (by rwa [e.sb]) (by rwa [e.inum]), e.inodes i hi hne]
  · rcases Finset.mem_union.mp hq with hq | hq
    · obtain ⟨hv, hi, h0, hp⟩ := e.new q hq
      exact ⟨hv, hi, h0, by rwa [hkeep q hv hp]⟩
    · obtain ⟨hv, hi, -, hp⟩ := e'.new q hq
      exact ⟨hval.mpr hv, hi.trans (e.inum ip), hnew q hq, hp⟩
  · rw [Finset.mem_union, not_or] at hn
    rw [e'.old q (hval.mp hq) hn.2, e.old q hq hn.1]
  · obtain ⟨l, hl, hm⟩ := e.free
    obtain ⟨l', hl', hm'⟩ := e'.free
    refine ⟨l ++ l', by rw [hl, hl', List.append_assoc], fun b => ?_⟩
    have hN : (∃ q ∈ N, t.ptr q = b) ↔ ∃ q ∈ N, u.ptr q = b := by
      refine exists_congr fun q => and_congr_right fun hq => ?_
      rw [hkeep q (e.new q hq).1 (e.new q hq).2.2.2]
    rw [List.mem_append, hm, hm', hN, exists_mem_union]
  · have hN : (∃ q ∈ N, x = t.ptr q ∨ x = BBLOCK (t.ptr q) s.sb.ninodes ∨
          (q.path ≠ [] ∧ x = t.ptr q.parent)) ↔
        ∃ q ∈ N, x = u.ptr q ∨ x = BBLOCK (u.ptr q) s.sb.ninodes ∨
          (q.path ≠ [] ∧ x = u.ptr q.parent) := by
      refine exists_congr fun q => and_congr_right fun hq => ?_
      rw [hkeep q (e.new q hq).1 (e.new q hq).2.2.2]
      refine or_congr_right (or_congr_right (and_congr_right fun hne => ?_))
      rw [hparent q hq hne]
    have hD : (∃ q ∈ D, x = t.ptr q) ↔ ∃ q ∈ D, x = u.ptr q := by
      refine exists_congr fun q => and_congr_right fun hq => ?_
      rw [hkeep q (e.written q hq).1 (e.written q hq).2.2]
    rw [e'.lh x, e.lh x, hN, hD, e.sb, exists_mem_union, exists_mem_union]
    exact or_or_shuffle
  · rcases Finset.mem_union.mp hq with hq | hq
    · obtain ⟨hv, hl, hp⟩ := e.written q hq
      exact ⟨hv, hl, by rwa [hkeep q hv hp]⟩
    · obtain ⟨hv, hl, hp⟩ := e'.written q hq
      exact ⟨hval.mpr hv, hl, hp⟩
  · rw [Finset.mem_union, not_or] at hd
    have hp := e.ptr_of_ne_zero hq hne
    rw [← e.kept q hq hleaf hd.1 hne, ← hp,
      e'.kept q (hval.mp hq) hleaf hd.2 (by rwa [hp])]
  · rw [Finset.mem_union, not_or] at hd
    rcases Finset.mem_union.mp hq with hq | hq
    · obtain ⟨hv, -, -, hp⟩ := e.new q hq
      rw [hkeep q hv hp, e'.kept q (hval.mp hv) hleaf hd.2 hp]
      exact e.zeroed q hq hleaf hd.1
    · exact e'.zeroed q hq hleaf hd.2

/-- One allocation is an extension. -/
theorem grow {r b : ℕ} {js l : List ℕ} (g : CanGrow s ip r js b) (hfree : s.free = b :: l) :
    Ext s (s.grow ip r js b) ip {⟨(s.icache ip).inum, r, js⟩} ∅ := by
  have hv : Pos.Valid s.sb.ninodes ⟨(s.icache ip).inum, r, js⟩ :=
    ⟨g.own.inum_lt ip g.held, g.pos⟩
  have hself : (s.grow ip r js b).ptr ⟨(s.icache ip).inum, r, js⟩ = b := by
    rw [g.ptr_eq hv, if_pos rfl]
  have hother : ∀ q : Pos, q.Valid s.sb.ninodes → q ≠ ⟨(s.icache ip).inum, r, js⟩ →
      (s.grow ip r js b).ptr q = s.ptr q := fun q hq hne => by rw [g.ptr_eq hq, if_neg hne]
  refine ⟨g.own_grow, g.sb_eq, grow_start, grow_size, grow_busy, fun a => ?_, fun a ha => ?_, ?_,
    fun i hi hne => ?_, fun q hq => ?_, fun q hq hn => hother q hq (by simpa using hn), ?_,
    fun x => ?_, fun q hq => absurd hq (Finset.notMem_empty _), fun q hq hleaf _ hne => ?_,
    fun q hq _ _ => ?_⟩
  · cases js with
    | nil => simp [Sys.grow, Sys.setDin_icache]
    | cons j js => rfl
  · cases js with
    | nil => simp [Sys.grow, ha]
    | cons j js => rfl
  · cases js with
    | nil => exact ⟨_, by simp [Sys.grow]; rfl⟩
    | cons j js => exact ⟨_, rfl⟩
  · rw [g.dinode_eq hi, if_neg fun hc => hne hc.1]
  · rw [Finset.mem_singleton] at hq
    subst hq
    exact ⟨hv, rfl, g.unset, by rw [hself]; exact g.own.ne_zero g.unused⟩
  · refine ⟨[b], ?_, fun x => ?_⟩
    · have hl := Sys.free_allocBlock g.own.toLayout g.metaEnd_le hfree
      rw [hfree, List.singleton_append, List.cons.injEq]
      refine ⟨rfl, hl.symm.trans ?_⟩
      rw [Sys.free, Sys.free, grow_start, Sys.allocBlock_start]
      refine List.filter_congr fun y hy => ?_
      have hy' : y < s.sb.size := lt_of_lt_of_le (List.mem_range.mp hy) g.own.start_le
      rw [g.used_eq hy', Sys.used_allocBlock g.own.toLayout g.metaEnd_le hy']
    · simp [hself, eq_comm]
  · rw [mem_grow_lh]
    simp only [Finset.mem_singleton, exists_eq_left, hself, Pos.parent, Finset.notMem_empty,
      false_and, exists_false, or_false]
    refine or_congr_right (or_congr_right (or_congr_right (and_congr_right fun hne => ?_)))
    rw [hother]
    · obtain ⟨j, js, rfl⟩ := List.exists_cons_of_ne_nil hne
      exact ⟨hv.inum, hv.pos.tail⟩
    · obtain ⟨j, js, rfl⟩ := List.exists_cons_of_ne_nil hne
      simp
  · have hr := g.own.range q hq hne
    refine g.disk_eq hr.2 hr.1 (g.own.ptr_ne_free g.unused hq hne) fun hjs hp => ?_
    -- the indirect block above the new pointer is not a data block
    obtain ⟨j, js, rfl⟩ := List.exists_cons_of_ne_nil hjs
    have hvp : Pos.Valid s.sb.ninodes ⟨(s.icache ip).inum, r, js⟩ := ⟨hv.inum, hv.pos.tail⟩
    have hd : (j :: js).length ≤ depth r := g.pos.depth
    rw [g.own.inj q _ hq hvp hne hp] at hleaf
    have hl : js.length = depth r := hleaf
    rw [List.length_cons] at hd
    omega
  · rw [Finset.mem_singleton] at hq
    rw [hq, hself, g.disk_self]

/-- Writing a data block is an extension. -/
theorem put (h : Own s) {q : Pos} (hq : q.Valid s.sb.ninodes) (hleaf : q.Leaf)
    (hne : s.ptr q ≠ 0) (data : Block) (ip : ℕ) :
    Ext s (s.logPut (s.ptr q) data) ip ∅ {q} := by
  obtain ⟨hge, hlt⟩ := h.range q hq hne
  have hdisk : ∀ x ≤ s.log.start, x ≠ s.ptr q →
      (s.logPut (s.ptr q) data).disk x = s.disk x := by
    intro x hx hxe
    rw [Sys.disk_logPut hx, if_neg hxe]
  have hsb : (s.logPut (s.ptr q) data).sb = s.sb := by
    rw [Superblock.metaEnd_eq] at hge
    exact Sys.sb_eq_of_disk (hdisk 1 (by omega) (by omega))
  have hdin : ∀ i < s.sb.ninodes, (s.logPut (s.ptr q) data).dinode i = s.dinode i := by
    intro i hi
    have h1 := iblock_lt_bblock hi 0
    have h2 : BBLOCK 0 s.sb.ninodes < s.sb.metaEnd :=
      Superblock.bblock_lt_metaEnd (by have := h.start_le; omega)
    exact Sys.dinode_congr_disk rfl (hdisk _ (by omega) (by omega))
  have hptr : ∀ q' : Pos, q'.Valid s.sb.ninodes →
      (s.logPut (s.ptr q) data).ptr q' = s.ptr q' := by
    intro q' hq'
    refine ptr_congr (fun i hi r _ => by rw [hdin i hi]) (fun q'' hq'' hnl hne'' => ?_) hq'
    refine hdisk _ (h.range q'' hq'' hne'').2.le fun he => hnl ?_
    rwa [h.inj q'' q hq'' hq hne'' he]
  have hused : ∀ x < s.sb.size, (s.logPut (s.ptr q) data).used x = s.used x := fun x hx =>
    Sys.used_congr hsb (fun y hy => hdisk y (by omega) (by omega)) hx
  have hown : Own (s.logPut (s.ptr q) data) :=
    h.congr hsb rfl (h.toCacheOk.congr rfl hsb) (h.toLogOk.logPut hlt _) hused hptr
  refine ⟨hown, hsb, rfl, rfl, rfl, fun _ => rfl, fun _ _ => rfl, ⟨_, rfl⟩,
    fun i hi _ => hdin i hi, fun q' hq' => absurd hq' (Finset.notMem_empty _),
    fun q' hq' _ => hptr q' hq', ⟨[], ?_, by simp⟩, fun x => ?_, fun q' hq' => ?_,
    fun q' hq' hl hd hne' => ?_, fun q' hq' => absurd hq' (Finset.notMem_empty _)⟩
  · rw [List.nil_append, Sys.free, Sys.free, Sys.logPut_start]
    refine List.filter_congr fun x hx => ?_
    rw [hused x (lt_of_lt_of_le (List.mem_range.mp hx) h.start_le)]
  · rw [Sys.mem_logPut_lh]
    simp [hptr q hq, or_comm]
  · rw [Finset.mem_singleton] at hq'
    subst hq'
    exact ⟨hq, hleaf, by rwa [hptr q' hq]⟩
  · refine hdisk _ (h.range q' hq' hne').2.le fun he => hd ?_
    rw [Finset.mem_singleton]
    exact h.inj q' q hq' hq hne' he

end Ext

/-! ### `bmap` -/

/-- The positions on a path, from the inode down. -/
def positions (i r : ℕ) : List ℕ → Finset Pos
  | [] => {⟨i, r, []⟩}
  | j :: js => positions i r js ∪ {⟨i, r, j :: js⟩}

/-- The positions among `Q` that have no block. -/
def Sys.missing (s : Sys) (Q : Finset Pos) : Finset Pos := Q.filter (s.ptr · = 0)

/-- The positions on the way to a valid one are valid. -/
theorem valid_of_mem_positions {n i r : ℕ} {js : List ℕ} (hi : i < n) (hv : ValidPos r js) :
    ∀ q ∈ positions i r js, q.Valid n := by
  induction js with
  | nil =>
    intro q hq
    rw [positions, Finset.mem_singleton] at hq
    exact hq ▸ ⟨hi, hv⟩
  | cons j js ih =>
    intro q hq
    rcases Finset.mem_union.mp hq with hq | hq
    · exact ih hv.tail q hq
    · rw [Finset.mem_singleton] at hq
      exact hq ▸ ⟨hi, hv⟩

section Missing

variable {s t : Sys} {ip : ℕ} {Q Q' D : Finset Pos}
  (e : Ext s t ip (s.missing Q) D) (hQ' : ∀ q ∈ Q', q.Valid s.sb.ninodes)
include e hQ'

/-- What is missing after the positions `Q` have been allocated. -/
theorem Ext.missing_union : s.missing (Q ∪ Q') = s.missing Q ∪ t.missing Q' := by
  ext q
  simp only [Sys.missing, Finset.mem_filter, Finset.mem_union]
  constructor
  · rintro ⟨hq | hq, h0⟩
    · exact Or.inl ⟨hq, h0⟩
    · by_cases hQ : q ∈ Q
      · exact Or.inl ⟨hQ, h0⟩
      · refine Or.inr ⟨hq, ?_⟩
        rw [e.old q (hQ' q hq) (by simp [Sys.missing, hQ])]
        exact h0
  · rintro (⟨hq, h0⟩ | ⟨hq, h0⟩)
    · exact ⟨Or.inl hq, h0⟩
    · refine ⟨Or.inr hq, ?_⟩
      rw [← e.old q (hQ' q hq) fun hm => (e.new q hm).2.2.2 h0]
      exact h0

/-- What is missing is missing before or after. -/
theorem Ext.card_missing_union :
    (s.missing (Q ∪ Q')).card = (s.missing Q).card + (t.missing Q').card := by
  rw [e.missing_union hQ', Finset.card_union_of_disjoint]
  rw [Finset.disjoint_left]
  intro q hq hq'
  exact (e.new q hq).2.2.2 (Finset.mem_filter.mp hq').2

/-- Running out of blocks later is running out of blocks. -/
theorem Ext.free_lt (hlt : t.free.length < (t.missing Q').card) :
    s.free.length < (s.missing (Q ∪ Q')).card := by
  rw [e.card_missing_union hQ', e.length_free]
  omega

end Missing

section Bmap

variable {p : ℕ} {s : Sys} {ip r : ℕ} {js : List ℕ}

/-- The postcondition of a walk to the end of a path: the missing positions among `Q` have been
allocated, and the block at the end is returned. -/
def Walked (s : Sys) (ip r : ℕ) (js : List ℕ) (Q : Finset Pos) (b : ℕ) (t : Sys) : Prop :=
  Ext s t ip (s.missing Q) ∅ ∧ b = t.ptr ⟨(s.icache ip).inum, r, js⟩ ∧ b ≠ 0

/-- There are fewer free data blocks than missing positions. -/
def NoRoom (s : Sys) (Q : Finset Pos) : Prop := s.free.length < (s.missing Q).card

/-- A pointer that is set is found. -/
theorem walked_of_ne_zero (h : Own s) (hne : s.ptr ⟨(s.icache ip).inum, r, js⟩ ≠ 0) :
    Walked s ip r js {⟨(s.icache ip).inum, r, js⟩} (s.ptr ⟨(s.icache ip).inum, r, js⟩) s := by
  have hm : s.missing {⟨(s.icache ip).inum, r, js⟩} = ∅ := by
    simp [Sys.missing, Finset.filter_singleton, hne]
  exact ⟨by rw [hm]; exact Ext.refl h ip, rfl, hne⟩

/-- A missing pointer is allocated: the outcome of `balloc`, and the state after the pointer has
been stored. -/
theorem balloc_cases (h : Own s) (hip : s.Held ip) (hbusy : s.log.busy = true)
    (hv : ValidPos r js) (h0 : s.ptr ⟨(s.icache ip).inum, r, js⟩ = 0)
    (hpar : js ≠ [] → s.ptr ⟨(s.icache ip).inum, r, js.tail⟩ ≠ 0) :
    ((∃ e, Prog.run (exec .ideal p) balloc s = .error e) ∧
        NoRoom s {⟨(s.icache ip).inum, r, js⟩}) ∨
      ∃ b, Prog.run (exec .ideal p) balloc s = .ok (b, s.allocBlock b) ∧
        Walked s ip r js {⟨(s.icache ip).inum, r, js⟩} b (s.grow ip r js b) := by
  have hm : s.missing {⟨(s.icache ip).inum, r, js⟩} = {⟨(s.icache ip).inum, r, js⟩} := by
    simp [Sys.missing, Finset.filter_singleton, h0]
  cases hfree : s.free with
  | nil =>
    exact Or.inl ⟨run_balloc_nil rfl rfl hbusy hfree, by simp [NoRoom, hm, hfree]⟩
  | cons b l =>
    obtain ⟨hlt, hused⟩ := Sys.mem_free.mp (hfree ▸ List.mem_cons_self : b ∈ s.free)
    have g : CanGrow s ip r js b := ⟨h, hip, hv, h0, hpar, hused, hlt⟩
    refine Or.inr ⟨b, run_balloc_cons rfl hbusy h.toLayout hfree, ?_⟩
    refine ⟨by rw [hm]; exact Ext.grow g hfree, ?_, h.ne_zero hused⟩
    rw [g.ptr_eq ⟨h.inum_lt ip hip, hv⟩, if_pos rfl]

/-- A pointer in the inode is followed, or allocated. -/
theorem wp_inodePtr (h : Own s) (hip : s.Held ip) (hbusy : s.log.busy = true)
    (hv : ValidPos r []) :
    Prog.wp (exec .ideal p) (inodePtr ip r)
      (Walked s ip r [] {⟨(s.icache ip).inum, r, []⟩})
      (fun _ => NoRoom s {⟨(s.icache ip).inum, r, []⟩}) s := by
  have hptr : s.ptr ⟨(s.icache ip).inum, r, []⟩ = (s.icache ip).din.addr r := by
    rw [ptr_nil, Sys.dinode_of_held h.uniq hip]
  by_cases h0 : (s.icache ip).din.addr r = 0
  · rcases balloc_cases (p := p) h hip hbusy hv (hptr.trans h0) (by simp) with
      ⟨⟨e, he⟩, hroom⟩ | ⟨b, hb, hw⟩
    · refine Prog.wp_of_error (e := e) ?_ hroom
      simp [inodePtr, Prog.run_bind, h0, he]
    · refine Prog.wp_of_ok (a := b) (t := s.grow ip r [] b) ?_ hw
      simp [inodePtr, Prog.run_bind, h0, hb, Sys.grow]
  · refine Prog.wp_of_ok (a := (s.icache ip).din.addr r) (t := s) ?_ ?_
    · simp [inodePtr, Prog.run_bind, h0]
    · rw [← hptr] at h0 ⊢
      exact walked_of_ne_zero h h0

/-- An entry of an indirect block is followed, or allocated. -/
theorem wp_blockPtr {j : ℕ} (h : Own s) (hip : s.Held ip) (hbusy : s.log.busy = true)
    (hv : ValidPos r (j :: js)) (hpar : s.ptr ⟨(s.icache ip).inum, r, js⟩ ≠ 0) :
    Prog.wp (exec .ideal p) (blockPtr (s.ptr ⟨(s.icache ip).inum, r, js⟩) j)
      (Walked s ip r (j :: js) {⟨(s.icache ip).inum, r, j :: js⟩})
      (fun _ => NoRoom s {⟨(s.icache ip).inum, r, j :: js⟩}) s := by
  have hptr : s.ptr ⟨(s.icache ip).inum, r, j :: js⟩ =
      (s.disk (s.ptr ⟨(s.icache ip).inum, r, js⟩)).word j := by
    rw [ptr_cons, if_neg hpar]
  by_cases h0 : (s.disk (s.ptr ⟨(s.icache ip).inum, r, js⟩)).word j = 0
  · rcases balloc_cases (p := p) h hip hbusy hv (hptr.trans h0) (fun _ => hpar) with
      ⟨⟨e, he⟩, hroom⟩ | ⟨b, hb, hw⟩
    · refine Prog.wp_of_error (e := e) ?_ hroom
      simp [blockPtr, Prog.run_bind, h0, he]
    · refine Prog.wp_of_ok (a := b) (t := s.grow ip r (j :: js) b) ?_ hw
      simp only [blockPtr, Prog.run_bind, run_getEntry, run_bread, Prog.ok_bind, h0, if_true, hb]
      rw [run_logWrite (fun hl => by cases hl) (by simpa using hbusy)]
      rfl
  · refine Prog.wp_of_ok (a := (s.disk (s.ptr ⟨(s.icache ip).inum, r, js⟩)).word j) (t := s) ?_ ?_
    · simp [blockPtr, Prog.run_bind, h0]
    · rw [← hptr] at h0 ⊢
      exact walked_of_ne_zero h h0

/-- **A walk allocates exactly the missing positions of its path.** -/
theorem wp_bmapPath (h : Own s) (hip : s.Held ip) (hbusy : s.log.busy = true)
    (hv : ValidPos r js) :
    Prog.wp (exec .ideal p) (bmapPath ip r js)
      (Walked s ip r js (positions (s.icache ip).inum r js))
      (fun _ => NoRoom s (positions (s.icache ip).inum r js)) s := by
  induction js with
  | nil => exact wp_inodePtr h hip hbusy hv
  | cons j js ih =>
    have hlast : ∀ q ∈ ({⟨(s.icache ip).inum, r, j :: js⟩} : Finset Pos),
        q.Valid s.sb.ninodes := by
      intro q hq
      rw [Finset.mem_singleton] at hq
      exact hq ▸ ⟨h.inum_lt ip hip, hv⟩
    refine Prog.wp.bind (ih hv.tail) ?_ fun _ hroom => ?_
    · rintro b t ⟨e, hb, hb0⟩
      have hinum := e.inum ip
      rw [← hinum] at hb
      rw [hb] at hb0 ⊢
      have hw := wp_blockPtr (p := p) e.own (e.held hip) (e.busy.trans hbusy) hv hb0
      refine Prog.wp_mono hw ?_ fun _ hroom => e.free_lt hlast ?_
      · rintro b' u ⟨e', hb', hne⟩
        rw [hinum] at e' hb'
        refine ⟨?_, hb', hne⟩
        have := e.trans e'
        rwa [← e.missing_union hlast] at this
      · rwa [hinum] at hroom
    · refine lt_of_lt_of_le hroom (Finset.card_le_card ?_)
      exact Finset.filter_subset_filter _ Finset.subset_union_left

/-- The positions that block `bn` of an inode needs. -/
def bmapPositions (i bn : ℕ) : Finset Pos := positions i (pathOf bn).1 (pathOf bn).2

/-- **`bmap`** allocates exactly the missing positions of its path, and fails only if there are
fewer free data blocks than that. -/
theorem wp_bmap {bn : ℕ} (h : Own s) (hip : s.Held ip) (hbusy : s.log.busy = true)
    (hbn : bn < MAXFILE) :
    Prog.wp (exec .ideal p) (bmap ip bn)
      (Walked s ip (pathOf bn).1 (pathOf bn).2 (bmapPositions (s.icache ip).inum bn))
      (fun _ => NoRoom s (bmapPositions (s.icache ip).inum bn)) s := by
  rw [bmap_eq ip hbn]
  exact wp_bmapPath h hip hbusy (validPos_pathOf hbn)

end Bmap

/-! ### The sectors that an extension logs -/

/-- The sectors logged by an extension that allocates what is missing of `Q` and writes the data
blocks at `D`, in terms of the state before it: the first free blocks, their bitmap blocks, the
indirect blocks that get a pointer and the data blocks. -/
def Sys.footprint (s : Sys) (Q D : Finset Pos) : Finset ℕ :=
  let taken := (s.free.take (s.missing Q).card).toFinset
  taken ∪ taken.image (BBLOCK · s.sb.ninodes) ∪
    (((s.missing Q).filter (·.path ≠ [])).image fun q => s.ptr q.parent).erase 0 ∪
    (D.image s.ptr).erase 0

/-- With a position, the set has the positions above it. -/
def UpClosed (Q : Finset Pos) : Prop := ∀ q ∈ Q, q.path ≠ [] → q.parent ∈ Q

/-- The way to a block is closed under parents. -/
theorem upClosed_positions (i r : ℕ) (js : List ℕ) : UpClosed (positions i r js) := by
  have hlast : ∀ js, Pos.mk i r js ∈ positions i r js := by
    intro js
    cases js <;> simp [positions]
  induction js with
  | nil =>
    intro q hq hne
    rw [positions, Finset.mem_singleton] at hq
    exact absurd (hq ▸ rfl) hne
  | cons j js ih =>
    intro q hq hne
    rcases Finset.mem_union.mp hq with hq | hq
    · exact Finset.mem_union_left _ (ih q hq hne)
    · rw [Finset.mem_singleton] at hq
      subst hq
      exact Finset.mem_union_left _ (hlast js)

/-- **The log after an extension**, as a set of sectors. -/
theorem Ext.toFinset_lh {s t : Sys} {ip : ℕ} {Q D : Finset Pos}
    (e : Ext s t ip (s.missing Q) D) (hQ : ∀ q ∈ Q, q.Valid s.sb.ninodes) (hup : UpClosed Q)
    (hD : D ⊆ Q) : t.log.lh.toFinset = s.log.lh.toFinset ∪ s.footprint Q D := by
  obtain ⟨l, hl, hmem⟩ := e.free
  have htake : s.free.take (s.missing Q).card = l := by
    have hlen := e.length_free
    rw [hl, List.length_append] at hlen
    rw [hl, List.take_left' (by omega)]
  have hnew : ∀ q ∈ s.missing Q, t.ptr q ∈ l := fun q hq => (hmem _).mpr ⟨q, hq, rfl⟩
  -- a pointer of `Q` was there, or is a new block
  have hcases : ∀ q ∈ Q, (s.ptr q ≠ 0 ∧ t.ptr q = s.ptr q) ∨ t.ptr q ∈ l := by
    intro q hq
    by_cases h0 : s.ptr q = 0
    · exact Or.inr (hnew q (Finset.mem_filter.mpr ⟨hq, h0⟩))
    · exact Or.inl ⟨h0, e.ptr_of_ne_zero (hQ q hq) h0⟩
  ext x
  simp only [List.mem_toFinset, Finset.mem_union, e.lh x, Sys.footprint, htake,
    Finset.mem_image, Finset.mem_erase, Finset.mem_filter]
  constructor
  · rintro (hx | ⟨q, hq, rfl | rfl | ⟨hne, rfl⟩⟩ | ⟨q, hq, rfl⟩)
    · exact Or.inl hx
    · exact Or.inr (Or.inl (Or.inl (Or.inl (hnew q hq))))
    · exact Or.inr (Or.inl (Or.inl (Or.inr ⟨_, hnew q hq, rfl⟩)))
    · rcases hcases _ (hup q (Finset.mem_filter.mp hq).1 hne) with ⟨h0, he⟩ | hl
      · rw [he]
        exact Or.inr (Or.inl (Or.inr ⟨h0, q, ⟨hq, hne⟩, rfl⟩))
      · exact Or.inr (Or.inl (Or.inl (Or.inl hl)))
    · rcases hcases q (hD hq) with ⟨h0, he⟩ | hl
      · rw [he]
        exact Or.inr (Or.inr ⟨h0, q, hq, rfl⟩)
      · exact Or.inr (Or.inl (Or.inl (Or.inl hl)))
  · rintro (hx | ((hx | ⟨b, hb, rfl⟩) | ⟨h0, q, ⟨hq, hne⟩, rfl⟩) | ⟨h0, q, hq, rfl⟩)
    · exact Or.inl hx
    · obtain ⟨q, hq, rfl⟩ := (hmem x).mp hx
      exact Or.inr (Or.inl ⟨q, hq, Or.inl rfl⟩)
    · obtain ⟨q, hq, rfl⟩ := (hmem b).mp hb
      exact Or.inr (Or.inl ⟨q, hq, Or.inr (Or.inl rfl)⟩)
    · refine Or.inr (Or.inl ⟨q, hq, Or.inr (Or.inr ⟨hne, ?_⟩)⟩)
      have hv := hQ _ (hup q (Finset.mem_filter.mp hq).1 hne)
      rw [e.ptr_of_ne_zero hv h0]
    · refine Or.inr (Or.inr ⟨q, hq, ?_⟩)
      rw [e.ptr_of_ne_zero (hQ q (hD hq)) h0]

theorem length_lh_eq_card {s : Sys} (h : LogOk s) :
    s.log.lh.length = s.log.lh.toFinset.card :=
  (List.toFinset_card_of_nodup h.nodup).symm

end Xv6
