import Xv6.BlockAlloc
import Xv6.FileTree

/-!
# Block Ownership

The blocks that all inodes refer to, in every role: `Sys.ptr s q` is the block at position `q`,
where a position names an inode, an entry of its `addrs` and a path down the indirect blocks.
`Own` is the ownership invariant: no block is at two positions, every block that is referred
to is a used block of the data area.

An inode that is cached and valid is the one in memory (`Sys.dinode`): `bmap` changes it before
`iupdate` writes it.

## Main results

* `Own.congr`, `Own.alloc`: the two ways in which the invariant is kept: no pointer changes, or
  one unset pointer becomes the first free block.
* `ptr_alloc`: an allocation by `bmap` sets one pointer and leaves all others, the pointers in
  the new block included.
-/

open WriteSeq

namespace Xv6

/-! ### The current inodes -/

namespace Sys

variable {s t : Sys} {ip i : ℕ}

/-- The entry `ip` of the inode cache is in use and its fields are valid. -/
structure Held (s : Sys) (ip : ℕ) : Prop where
  lt : ip < NINODE
  ref : 0 < (s.icache ip).ref
  valid : (s.icache ip).valid = true

/-- The on-disk copy of inode `i`. -/
def diskInode (s : Sys) (i : ℕ) : Dinode := getDinode (s.disk (IBLOCK i)) (i % IPB)

/-- The current contents of inode `i`: the valid cache entry, or else the disk. -/
def dinode (s : Sys) (i : ℕ) : Dinode :=
  match (List.range NINODE).find? fun ip =>
      0 < (s.icache ip).ref ∧ (s.icache ip).valid = true ∧ (s.icache ip).inum = i with
  | some ip => (s.icache ip).din
  | none => s.diskInode i

/-- An inode has at most one entry of the cache. -/
def Uniq (s : Sys) : Prop :=
  ∀ ip < NINODE, ∀ ip' < NINODE, 0 < (s.icache ip).ref → 0 < (s.icache ip').ref →
    (s.icache ip).inum = (s.icache ip').inum → ip = ip'

/-- The inode cache: entries are unique, and valid entries are of inodes of the disk. -/
structure CacheOk (s : Sys) : Prop where
  uniq : s.Uniq
  inum_lt : ∀ ip, s.Held ip → (s.icache ip).inum < s.sb.ninodes
  fits : ∀ ip, s.Held ip → (s.icache ip).din.Fits

/-- The inode of a locked entry is the cached copy. -/
theorem dinode_of_held (h : s.Uniq) (hip : s.Held ip) :
    s.dinode (s.icache ip).inum = (s.icache ip).din := by
  unfold dinode
  split
  · rename_i ip' hf
    have hlt := List.mem_range.mp (List.mem_of_find?_eq_some hf)
    have hp := List.find?_some hf
    simp only [decide_eq_true_eq] at hp
    rw [h ip hip.lt ip' hlt hip.ref hp.1 hp.2.2.symm]
  · rename_i hf
    have := List.find?_eq_none.mp hf ip (List.mem_range.mpr hip.lt)
    simp [hip.ref, hip.valid] at this

/-- The inode of no locked entry is that on disk. -/
theorem dinode_of_forall_ne (h : ∀ ip, s.Held ip → (s.icache ip).inum ≠ i) :
    s.dinode i = s.diskInode i := by
  unfold dinode
  split
  · rename_i ip hf
    have hlt := List.mem_range.mp (List.mem_of_find?_eq_some hf)
    have hp := List.find?_some hf
    simp only [decide_eq_true_eq] at hp
    exact absurd hp.2.2 (h ip ⟨hlt, hp.1, hp.2.1⟩)
  · rfl

theorem dinode_congr_disk (hic : t.icache = s.icache)
    (hdisk : t.disk (IBLOCK i) = s.disk (IBLOCK i)) : t.dinode i = s.dinode i := by
  simp only [dinode, diskInode, hic, hdisk]

/-! ### Assigning the fields of a cache entry -/

section SetDin

variable {d : Dinode} {ip' : ℕ}

@[simp] theorem setDin_disk : (s.setDin ip d).disk = s.disk := rfl

@[simp] theorem setDin_log : (s.setDin ip d).log = s.log := rfl

@[simp] theorem setDin_sb : (s.setDin ip d).sb = s.sb := rfl

/-- The entry whose copy changes. -/
theorem setDin_icache : (s.setDin ip d).icache ip' =
    { s.icache ip' with din := if ip' = ip then d else (s.icache ip').din } := by
  by_cases h : ip' = ip
  · subst h
    simp [setDin, setInode]
  · simp [setDin, setInode, h]

@[simp] theorem setDin_din : ((s.setDin ip d).icache ip').din =
    if ip' = ip then d else (s.icache ip').din := by
  rw [setDin_icache]

@[simp] theorem setDin_inum : ((s.setDin ip d).icache ip').inum = (s.icache ip').inum := by
  rw [setDin_icache]

@[simp] theorem setDin_ref : ((s.setDin ip d).icache ip').ref = (s.icache ip').ref := by
  rw [setDin_icache]

@[simp] theorem setDin_valid : ((s.setDin ip d).icache ip').valid = (s.icache ip').valid := by
  rw [setDin_icache]

theorem held_setDin : (s.setDin ip d).Held ip' ↔ s.Held ip' := by
  constructor <;> rintro ⟨h1, h2, h3⟩ <;> exact ⟨h1, by simpa using h2, by simpa using h3⟩

theorem Uniq.setDin (h : s.Uniq) : (s.setDin ip d).Uniq := by
  intro a ha b hb ra rb he
  simp only [setDin_ref, setDin_inum] at ra rb he
  exact h a ha b hb ra rb he

/-- A copy that can be stored keeps the cache well formed. -/
theorem CacheOk.setDin (h : s.CacheOk) (hd : d.Fits) : (s.setDin ip d).CacheOk where
  uniq := h.uniq.setDin
  inum_lt a ha := by simpa using h.inum_lt a (held_setDin.mp ha)
  fits a ha := by
    rw [setDin_din]
    split_ifs
    · exact hd
    · exact h.fits a (held_setDin.mp ha)

/-- Assigning the fields of a valid entry changes the current contents of its inode. -/
theorem dinode_setDin (h : s.Uniq) (hip : s.Held ip) :
    (s.setDin ip d).dinode i = if i = (s.icache ip).inum then d else s.dinode i := by
  split_ifs with hi
  · have hu : (s.setDin ip d).Uniq := h.setDin
    have := dinode_of_held hu (held_setDin.mpr hip)
    simpa [← hi] using this
  · by_cases hex : ∃ a, s.Held a ∧ (s.icache a).inum = i
    · obtain ⟨a, ha, rfl⟩ := hex
      have hne : a ≠ ip := fun he => hi (he ▸ rfl)
      have hu : (s.setDin ip d).Uniq := h.setDin
      have := dinode_of_held hu (held_setDin.mpr ha)
      rw [setDin_inum, setDin_din, if_neg hne] at this
      rw [this, dinode_of_held h ha]
    · have hno : ∀ a, s.Held a → (s.icache a).inum ≠ i := fun a ha he => hex ⟨a, ha, he⟩
      rw [dinode_of_forall_ne hno, dinode_of_forall_ne]
      · rfl
      · intro a ha
        rw [setDin_inum]
        exact hno a (held_setDin.mp ha)

end SetDin

end Sys

/-! ### Positions and pointers -/

/-- A place for a block number: below entry `root` of the `addrs` of an inode, at the indices
`path` into indirect blocks, the last one first. -/
structure Pos where
  inum : ℕ
  root : ℕ
  path : List ℕ
  deriving DecidableEq, Repr

namespace Pos

/-- The position is one of inode number below `n`. -/
structure Valid (n : ℕ) (q : Pos) : Prop where
  inum : q.inum < n
  pos : ValidPos q.root q.path

/-- The position is for a data block. -/
def Leaf (q : Pos) : Prop := q.path.length = depth q.root

/-- The position of the indirect block that the pointer is in. -/
def parent (q : Pos) : Pos := { q with path := q.path.tail }

end Pos

/-- The block at a position, or zero. -/
def Sys.ptr (s : Sys) (q : Pos) : ℕ := tree s.disk (s.dinode q.inum) q.root q.path

section Ptr

variable {s t : Sys} {q : Pos}

theorem ptr_nil (i r : ℕ) : s.ptr ⟨i, r, []⟩ = (s.dinode i).addr r := rfl

theorem ptr_cons (i r j : ℕ) (js : List ℕ) :
    s.ptr ⟨i, r, j :: js⟩ =
      if s.ptr ⟨i, r, js⟩ = 0 then 0 else (s.disk (s.ptr ⟨i, r, js⟩)).word j := rfl

/-- The pointers of an inode depend on its `addrs` and on the blocks that have its pointers below
them. -/
theorem ptr_congr_inode {n : ℕ} (hq : q.Valid n)
    (haddr : ∀ r < 13, (t.dinode q.inum).addr r = (s.dinode q.inum).addr r)
    (hdisk : ∀ q' : Pos, q'.Valid n → q'.inum = q.inum → ¬ q'.Leaf → s.ptr q' ≠ 0 →
      t.disk (s.ptr q') = s.disk (s.ptr q')) : t.ptr q = s.ptr q := by
  obtain ⟨i, r, js⟩ := q
  induction js with
  | nil => exact haddr r hq.pos.root
  | cons j js ih =>
    have hv : Pos.Valid n ⟨i, r, js⟩ := ⟨hq.inum, hq.pos.tail⟩
    have hnl : ¬ Pos.Leaf ⟨i, r, js⟩ := by
      have := hq.pos.depth
      simp only [Pos.Leaf, List.length_cons] at this ⊢
      omega
    rw [ptr_cons, ptr_cons, ih hv haddr hdisk]
    split_ifs with h0
    · rfl
    · rw [hdisk _ hv rfl hnl h0]

/-- Pointers depend on the `addrs` of the inodes and on the blocks that have pointers below
them. -/
theorem ptr_congr {n : ℕ} (haddr : ∀ i < n, ∀ r < 13, (t.dinode i).addr r = (s.dinode i).addr r)
    (hdisk : ∀ q : Pos, q.Valid n → ¬ q.Leaf → s.ptr q ≠ 0 →
      t.disk (s.ptr q) = s.disk (s.ptr q))
    (hq : q.Valid n) : t.ptr q = s.ptr q :=
  ptr_congr_inode hq (haddr q.inum hq.inum) fun q' hq' _ => hdisk q' hq'

end Ptr

/-! ### The invariant -/

/-- The log: every slot in use holds the current contents of its home sector, which is outside
the log area. -/
structure LogOk (s : Sys) : Prop where
  nodup : s.log.lh.Nodup
  lt : ∀ x ∈ s.log.lh, x < s.log.start
  slot : ∀ i x, s.log.lh[i]? = some x → s.disk (s.log.start + i + 1) = s.disk x

/-- **The ownership invariant.** -/
structure Own (s : Sys) : Prop extends s.Layout, s.CacheOk, LogOk s where
  meta_used : ∀ b < s.sb.metaEnd, s.used b = true
  range : ∀ q : Pos, q.Valid s.sb.ninodes → s.ptr q ≠ 0 →
    s.sb.metaEnd ≤ s.ptr q ∧ s.ptr q < s.log.start
  ptr_used : ∀ q : Pos, q.Valid s.sb.ninodes → s.ptr q ≠ 0 → s.used (s.ptr q) = true
  inj : ∀ q q' : Pos, q.Valid s.sb.ninodes → q'.Valid s.sb.ninodes → s.ptr q ≠ 0 →
    s.ptr q = s.ptr q' → q = q'

variable {s t : Sys}

/-- The invariant is kept when the bitmap stays and every pointer stays or is cleared. -/
theorem Own.fewer (h : Own s) (hsb : t.sb = s.sb) (hstart : t.log.start = s.log.start)
    (hcache : t.CacheOk) (hlog : LogOk t) (hused : ∀ x < s.sb.size, t.used x = s.used x)
    (hptr : ∀ q : Pos, q.Valid s.sb.ninodes → t.ptr q ≠ 0 → t.ptr q = s.ptr q) : Own t := by
  have hle := h.start_le
  have hme := h.meta_le
  refine { hcache, hlog with
    meta_le := ?_
    start_le := ?_
    meta_used := ?_
    range := ?_
    ptr_used := ?_
    inj := ?_ }
  · rw [hsb, hstart]
    exact hme
  · rw [hsb, hstart]
    exact hle
  · rw [hsb]
    intro b hb
    rw [hused b (by omega)]
    exact h.meta_used b hb
  · rw [hsb, hstart]
    intro q hq hne
    have hsame := hptr q hq hne
    rw [hsame] at hne ⊢
    exact h.range q hq hne
  · rw [hsb]
    intro q hq hne
    have hsame := hptr q hq hne
    rw [hsame] at hne ⊢
    have := (h.range q hq hne).2
    rw [hused _ (by omega)]
    exact h.ptr_used q hq hne
  · rw [hsb]
    intro q q' hq hq' hne heq
    have hne' : t.ptr q' ≠ 0 := heq ▸ hne
    rw [hptr q' hq' hne', hptr q hq hne] at heq
    rw [hptr q hq hne] at hne
    exact h.inj q q' hq hq' hne heq

/-- The invariant is kept when the pointers and the bitmap stay as they are. -/
theorem Own.congr (h : Own s) (hsb : t.sb = s.sb) (hstart : t.log.start = s.log.start)
    (hcache : t.CacheOk) (hlog : LogOk t) (hused : ∀ x < s.sb.size, t.used x = s.used x)
    (hptr : ∀ q : Pos, q.Valid s.sb.ninodes → t.ptr q = s.ptr q) : Own t :=
  h.fewer hsb hstart hcache hlog hused fun q hq _ => hptr q hq

/-- The cache does not depend on the other parts of the state. -/
theorem Sys.CacheOk.congr (h : s.CacheOk) (hic : t.icache = s.icache) (hsb : t.sb = s.sb) :
    t.CacheOk := by
  have hheld : ∀ ip, t.Held ip → s.Held ip := by
    rintro ip ⟨h1, h2, h3⟩
    exact ⟨h1, hic ▸ h2, hic ▸ h3⟩
  refine ⟨?_, fun ip hip => ?_, fun ip hip => ?_⟩
  · unfold Sys.Uniq
    rw [hic]
    exact h.uniq
  · rw [hic, hsb]
    exact h.inum_lt ip (hheld ip hip)
  · rw [hic]
    exact h.fits ip (hheld ip hip)

theorem Sys.used_congr (hsb : t.sb = s.sb) (hdisk : ∀ x < s.sb.metaEnd, t.disk x = s.disk x) {x : ℕ}
    (hx : x < s.sb.size) : t.used x = s.used x := by
  rw [used, used, hsb, hdisk _ (Superblock.bblock_lt_metaEnd hx)]

/-! ### One new pointer -/

section Alloc

variable {s t : Sys} {b : ℕ} {q₀ : Pos}

/-- **An allocation sets one pointer and leaves all others**, those in the new block included:
it is zeroed. -/
theorem ptr_alloc (hq₀ : s.ptr q₀ = 0) (hpar : q₀.path ≠ [] → s.ptr q₀.parent ≠ 0)
    (hb : b ≠ 0) (hzero : t.disk b = Block.zero)
    (haddr : ∀ i < s.sb.ninodes, ∀ r < 13, (t.dinode i).addr r =
      if Pos.mk i r [] = q₀ then b else (s.dinode i).addr r)
    (hword : ∀ q : Pos, q.Valid s.sb.ninodes → ¬ q.Leaf → s.ptr q ≠ 0 → ∀ j < 128,
      (t.disk (s.ptr q)).word j =
        if Pos.mk q.inum q.root (j :: q.path) = q₀ then b else (s.disk (s.ptr q)).word j)
    {q : Pos} (hq : q.Valid s.sb.ninodes) : t.ptr q = if q = q₀ then b else s.ptr q := by
  obtain ⟨i, r, js⟩ := q
  -- induction along the path; below the new pointer there is only the zeroed block
  induction js with
  | nil => exact haddr i hq.inum r hq.pos.root
  | cons j js ih =>
    have hv : Pos.Valid s.sb.ninodes ⟨i, r, js⟩ := ⟨hq.inum, hq.pos.tail⟩
    have hnl : ¬ Pos.Leaf ⟨i, r, js⟩ := by
      have := hq.pos.depth
      simp only [Pos.Leaf, List.length_cons] at this ⊢
      omega
    rw [ptr_cons, ptr_cons, ih hv]
    by_cases hnew : Pos.mk i r js = q₀
    · have hne : Pos.mk i r (j :: js) ≠ q₀ := by
        rw [← hnew]
        simp
      rw [if_pos hnew, if_neg hb, hzero, if_neg hne, hnew, if_pos hq₀, Block.word_zero]
    · rw [if_neg hnew]
      by_cases h0 : s.ptr ⟨i, r, js⟩ = 0
      · have hne : Pos.mk i r (j :: js) ≠ q₀ := by
          intro he
          subst he
          exact hpar (by simp) h0
        rw [if_pos h0, if_neg hne, if_pos h0]
      · rw [if_neg h0, if_neg h0, hword _ hv hnl h0 j hq.pos.head]

section Free

variable (h : Own s) (hfree : s.used b = false)
include h hfree

theorem Own.metaEnd_le : s.sb.metaEnd ≤ b := by
  by_contra hlt
  rw [h.meta_used b (by omega)] at hfree
  cases hfree

theorem Own.ne_zero : b ≠ 0 := by
  have := h.metaEnd_le hfree
  rw [Superblock.metaEnd_eq] at this
  omega

/-- A free block is not referred to. -/
theorem Own.ptr_ne_free {q : Pos} (hq : q.Valid s.sb.ninodes) (hne : s.ptr q ≠ 0) :
    s.ptr q ≠ b := by
  intro he
  rw [← he, h.ptr_used q hq hne] at hfree
  cases hfree

end Free

/-- The invariant is kept when one unset pointer becomes a free block. -/
theorem Own.alloc (h : Own s) (hsb : t.sb = s.sb) (hstart : t.log.start = s.log.start)
    (hcache : t.CacheOk) (hlog : LogOk t) (hfree : s.used b = false) (hlt : b < s.log.start)
    (hused : ∀ x < s.sb.size, t.used x = if x = b then true else s.used x)
    (hptr : ∀ q : Pos, q.Valid s.sb.ninodes → t.ptr q = if q = q₀ then b else s.ptr q) :
    Own t := by
  have hle := h.start_le
  have hme := h.meta_le
  have hge := h.metaEnd_le hfree
  have hnb : ∀ q : Pos, q.Valid s.sb.ninodes → s.ptr q ≠ 0 → s.ptr q ≠ b :=
    fun q hq hne => h.ptr_ne_free hfree hq hne
  have hb0 := h.ne_zero hfree
  refine { hcache, hlog with
    meta_le := by rw [hsb, hstart]; exact hme
    start_le := by rw [hsb, hstart]; exact hle
    meta_used := ?_, range := ?_, ptr_used := ?_, inj := ?_ }
  · rw [hsb]
    intro x hx
    rw [hused x (by omega), if_neg (by omega)]
    exact h.meta_used x hx
  · rw [hsb, hstart]
    intro q hq hne
    rw [hptr q hq] at hne ⊢
    split_ifs at hne ⊢ with hqq
    · exact ⟨hge, hlt⟩
    · exact h.range q hq hne
  · rw [hsb]
    intro q hq hne
    rw [hptr q hq] at hne ⊢
    split_ifs at hne ⊢ with hqq
    · rw [hused b (by omega), if_pos rfl]
    · have := (h.range q hq hne).2
      rw [hused _ (by omega), if_neg (hnb q hq hne)]
      exact h.ptr_used q hq hne
  · rw [hsb]
    intro q q' hq hq' hne heq
    rw [hptr q hq] at hne heq
    rw [hptr q' hq'] at heq
    split_ifs at hne heq with hqq hqq'
    · rw [hqq, hqq']
    · exact absurd heq.symm (hnb q' hq' (heq ▸ hb0))
    · exact absurd heq (hnb q hq hne)
    · exact h.inj q q' hq hq' hne heq

end Alloc

/-! ### The log -/

/-- `log_write` keeps the slots equal to their home sectors. -/
theorem LogOk.logPut (h : LogOk s) {b : ℕ} (hb : b < s.log.start) (data : Block) :
    LogOk (s.logPut b data) where
  nodup := by
    rw [Sys.logPut_lh]
    split_ifs with hm
    · exact h.nodup
    · rw [List.nodup_append]
      simpa using ⟨h.nodup, fun a ha he => hm (he ▸ ha)⟩
  lt x hx := by
    rcases Sys.mem_logPut_lh.mp hx with rfl | hx
    · exact hb
    · exact h.lt x hx
  slot i x hx := by
    have hslot : (s.logPut b data).disk (s.log.start + i + 1) =
        if i = s.log.lh.idxOf b then data else s.disk (s.log.start + i + 1) := by
      simp only [Sys.logPut, Log.record_eq, applyWrites_cons, applyWrites_nil,
        Function.update_apply]
      split_ifs with h1 h2 h3 h4 h5 <;> first | rfl | omega
    have hlt : x < s.log.start := by
      rcases Sys.mem_logPut_lh.mp (List.mem_of_getElem? hx) with rfl | hm
      · exact hb
      · exact h.lt x hm
    rw [Sys.logPut_start, hslot, Sys.disk_logPut hlt.le]
    rw [Sys.logPut_lh] at hx
    by_cases hxb : x = b
    · -- the slot of the sector itself
      subst hxb
      have hi : i = s.log.lh.idxOf x := by
        split_ifs at hx with hm
        · obtain ⟨hi, he⟩ := List.getElem?_eq_some_iff.mp hx
          exact (h.nodup.idxOf_getElem i hi).symm.trans (by rw [he])
        · rw [List.idxOf_eq_length_iff.mpr hm]
          by_contra hne
          obtain ⟨hi, he⟩ := List.getElem?_eq_some_iff.mp hx
          rw [List.length_append, List.length_singleton] at hi
          rw [List.getElem_append_left (by omega)] at he
          exact hm (he ▸ List.getElem_mem _)
      rw [if_pos hi, if_pos rfl]
    · -- the slot of another sector
      have hx' : s.log.lh[i]? = some x := by
        split_ifs at hx with hm
        · exact hx
        · obtain ⟨hi, he⟩ := List.getElem?_eq_some_iff.mp hx
          rw [List.getElem_append] at he
          split_ifs at he with hlen
          · exact List.getElem?_eq_some_iff.mpr ⟨hlen, he⟩
          · simp at he
            exact absurd he.symm hxb
      have hi : i ≠ s.log.lh.idxOf b := by
        rintro rfl
        obtain ⟨hi, he⟩ := List.getElem?_eq_some_iff.mp hx'
        rw [List.getElem_idxOf] at he
        exact hxb he.symm
      rw [if_neg hi, if_neg hxb, h.slot i x hx']

/-- **`commit_trans` changes no sector outside the log area**: what it installs is there
already. -/
theorem LogOk.disk_commit (h : LogOk s) {x : ℕ} (hx : x < s.log.start) :
    s.commit.disk x = s.disk x := by
  simp only [Sys.commit, Log.commitTrans]
  split_ifs with hlen
  · have hhead : ∀ y, y ≠ s.log.start →
        applyWrites (writeHead s.log.start s.log.lh s.disk) s.disk y = s.disk y := by
      intro y hy
      refine applyWrites_of_notMem fun w hw => ?_
      rw [writeHead, List.mem_singleton] at hw
      rw [hw]
      exact hy.symm
    have hinst : installTrans s.log.start 0 s.log.lh
        (applyWrites (writeHead s.log.start s.log.lh s.disk) s.disk) =
        redo s.log.start 0 s.log.lh
          (applyWrites (writeHead s.log.start s.log.lh s.disk) s.disk) := by
      refine installTrans_eq_redo fun y hy i _ => ?_
      have := h.lt y hy
      omega
    rw [installAndClear, hinst, applyWrites_append, applyWrites_append, applyWrites_of_notMem,
      applyWrites_of_forall_eq, hhead x (by omega)]
    · intro w hw he
      obtain ⟨i, h1, h2⟩ := exists_of_mem_redo hw
      rw [h2, hhead _ (by omega), hhead x (by omega), s.log.start.add_zero, h.slot i w.1 h1, he]
    · intro w hw he
      rw [writeHead, List.mem_singleton] at hw
      rw [hw] at he
      omega
  · rfl

/-- A commit does not change an inode. -/
theorem Own.dinode_commit (h : Own s) {i : ℕ} (hi : i < s.sb.ninodes) :
    s.commit.dinode i = s.dinode i := by
  have hm := h.meta_le
  have hlt := iblock_lt hi
  rw [Superblock.metaEnd_eq] at hm
  exact Sys.dinode_congr_disk rfl (h.disk_commit (by omega))

theorem Own.ptr_commit (h : Own s) {q : Pos} (hq : q.Valid s.sb.ninodes) :
    s.commit.ptr q = s.ptr q :=
  ptr_congr (fun i hi r _ => by rw [h.dinode_commit hi])
    (fun q' hq' _ hne => h.disk_commit (h.range q' hq' hne).2) hq

/-- **`commit_trans` keeps the invariant.** -/
theorem Own.commit (h : Own s) : Own s.commit := by
  have hm := h.meta_le
  have h3 := h.three_lt_start
  have hsb : s.commit.sb = s.sb := Sys.sb_eq_of_disk (h.disk_commit (by omega))
  refine h.congr hsb rfl (h.toCacheOk.congr rfl hsb) ⟨List.nodup_nil, by simp [Sys.commit],
    by simp [Sys.commit]⟩ (fun x hx => Sys.used_congr hsb (fun y hy => ?_) hx) fun q hq => ?_
  · exact h.disk_commit (by omega)
  · exact h.ptr_commit hq

/-! ### Assigning fields and writing an inode back -/

/-- The state after `iupdate`. -/
def Sys.iupdated (s : Sys) (ip : ℕ) : Sys :=
  s.logPut (IBLOCK (s.icache ip).inum)
    (putDinode (s.disk (IBLOCK (s.icache ip).inum)) ((s.icache ip).inum % IPB) (s.icache ip).din)

/-- `iupdate` puts the copy into the log. -/
theorem run_iupdate {md : Mode} {p ip : ℕ} (hroom : md.limited → s.log.isFull = false)
    (hbusy : s.log.busy = true) :
    Prog.run (exec md p) (iupdate ip) s = .ok ((), s.iupdated ip) := by
  simp only [iupdate, Prog.run_bind, run_getInode, Prog.ok_bind, run_bread]
  exact run_logWrite hroom hbusy

section Update

variable {s : Sys} {ip i x : ℕ} {d : Dinode}

theorem disk_iupdated (hx : x ≤ s.log.start) (hne : x ≠ IBLOCK (s.icache ip).inum) :
    (s.iupdated ip).disk x = s.disk x := by
  rw [Sys.iupdated, Sys.disk_logPut hx, if_neg hne]

/-- `iupdate` does not write to the superblock. -/
theorem Own.sb_iupdated (h : Own s) : (s.iupdated ip).sb = s.sb := by
  have h3 := h.three_lt_start
  refine Sys.sb_eq_of_disk (disk_iupdated (by omega) ?_)
  rw [iblock_eq]
  omega

/-- Writing the valid copy of an inode to the disk does not change its current contents. -/
theorem Own.dinode_iupdated (h : Own s) (hip : s.Held ip) (hi : i < s.sb.ninodes) :
    (s.iupdated ip).dinode i = s.dinode i := by
  have hm := h.meta_le
  have hlt := iblock_lt hi
  rw [Superblock.metaEnd_eq] at hm
  by_cases hex : ∃ a, s.Held a ∧ (s.icache a).inum = i
  · obtain ⟨a, ha, rfl⟩ := hex
    have huniq : (s.iupdated ip).Uniq := h.uniq
    have ha' : (s.iupdated ip).Held a := { ha with }
    have := Sys.dinode_of_held huniq ha'
    rw [Sys.dinode_of_held h.uniq ha]
    exact this
  · have hno : ∀ a, s.Held a → (s.icache a).inum ≠ i := fun a ha he => hex ⟨a, ha, he⟩
    have hno' : ∀ a, (s.iupdated ip).Held a → ((s.iupdated ip).icache a).inum ≠ i :=
      fun a ha => hno a { ha with }
    rw [Sys.dinode_of_forall_ne hno, Sys.dinode_of_forall_ne hno', Sys.diskInode, Sys.diskInode]
    by_cases hb : IBLOCK i = IBLOCK (s.icache ip).inum
    · have hne := hno ip hip
      have hslot : i % IPB ≠ (s.icache ip).inum % IPB := by
        rw [iblock_eq, iblock_eq] at hb
        simp only [IPB, BSIZE]
        omega
      rw [hb, Sys.iupdated, Sys.disk_logPut (by omega), if_pos rfl,
        getDinode_putDinode_of_ne _ (show _ % IPB < 8 from Nat.mod_lt _ (by decide))
          (h.fits ip hip) hslot]
    · rw [disk_iupdated (by omega) hb]

/-- `iupdate` leaves all trees as they are. -/
theorem Own.ptr_iupdated (h : Own s) (hip : s.Held ip) {q : Pos} (hq : q.Valid s.sb.ninodes) :
    (s.iupdated ip).ptr q = s.ptr q := by
  have hlt := iblock_lt (h.inum_lt ip hip)
  refine ptr_congr (fun i hi r _ => by rw [h.dinode_iupdated hip hi]) (fun q' hq' _ hne => ?_) hq
  obtain ⟨h1, h2⟩ := h.range q' hq' hne
  rw [Superblock.metaEnd_eq] at h1
  exact disk_iupdated (by omega) (by omega)

/-- `iupdate` does not write to the bitmap. -/
theorem Own.used_iupdated (h : Own s) (hip : s.Held ip) (hx : x < s.sb.size) :
    (s.iupdated ip).used x = s.used x := by
  have hlt := iblock_lt (h.inum_lt ip hip)
  have hm := h.meta_le
  have h1 := Superblock.bblock_lt_metaEnd hx
  rw [Sys.used, Sys.used, h.sb_iupdated, disk_iupdated (by omega)]
  rw [bblock_eq]
  omega

/-- **`iupdate` keeps the invariant.** -/
theorem Own.iupdated (h : Own s) (hip : s.Held ip) : Own (s.iupdated ip) := by
  have hlt := iblock_lt (h.inum_lt ip hip)
  have hm := h.meta_le
  rw [Superblock.metaEnd_eq] at hm
  exact h.congr h.sb_iupdated rfl (h.toCacheOk.congr rfl h.sb_iupdated)
    (h.toLogOk.logPut (by omega) _) (fun y hy => h.used_iupdated hip hy)
    fun q hq => h.ptr_iupdated hip hq

/-- Assigning fields other than `addrs` changes no pointer. -/
theorem Own.ptr_setDin (h : Own s) (hip : s.Held ip) (hd : d.addrs = (s.icache ip).din.addrs)
    {q : Pos} (hq : q.Valid s.sb.ninodes) : (s.setDin ip d).ptr q = s.ptr q := by
  refine ptr_congr (fun i hi r _ => ?_) (fun _ _ _ _ => rfl) hq
  rw [Sys.dinode_setDin h.uniq hip]
  split_ifs with he
  · rw [he, Sys.dinode_of_held h.uniq hip, Dinode.addr, Dinode.addr, hd]
  · rfl

/-- **Assigning fields other than `addrs` keeps the invariant.** -/
theorem Own.setDin (h : Own s) (hip : s.Held ip) (hd : d.addrs = (s.icache ip).din.addrs)
    (hsize : d.size < 2 ^ 32) : Own (s.setDin ip d) := by
  have hfit : d.Fits := by
    refine ⟨hsize, fun k => ?_⟩
    have := (h.fits ip hip).addr k
    rwa [Dinode.addr, hd]
  exact h.congr rfl rfl (h.toCacheOk.setDin hfit) { h with } (fun _ _ => rfl)
    fun q hq => h.ptr_setDin hip hd hq

end Update

end Xv6
