import Mathlib.Order.Interval.Finset.Nat
import Xv6.FileGrow

/-!
# File Contents

A file is an array of bytes: `Sys.contents s i k` is byte `k` of inode `i`, zero where no block
is allocated. `writei` is an update of a range of that array and changes no byte of any file
outside it, however many blocks of whatever tier it allocates on the way; `readi` returns a
range of it.

## Main results

* `wp_writeiLoop`: what the loop of `writei` does, with a log that does not fill up.
* `run_readi`: what `readi` returns.
-/

namespace Xv6

/-- The position of block `bn` of inode `i`. -/
def leaf (i bn : ℕ) : Pos := ⟨i, (pathOf bn).1, (pathOf bn).2⟩

variable {bn i n k off m : ℕ}

theorem valid_leaf (hi : i < n) (hbn : bn < MAXFILE) : (leaf i bn).Valid n :=
  ⟨hi, validPos_pathOf hbn⟩

theorem leaf_leaf (hbn : bn < MAXFILE) : (leaf i bn).Leaf := depth_pathOf hbn

/-- Different blocks of files are at different positions. -/
theorem leaf_inj {i' bn' : ℕ} (h : bn < MAXFILE) (h' : bn' < MAXFILE) :
    leaf i bn = leaf i' bn' ↔ i = i' ∧ bn = bn' := by
  constructor
  · intro he
    simp only [leaf, Pos.mk.injEq] at he
    exact ⟨he.1, pathOf_inj h h' (Prod.ext he.2.1 he.2.2)⟩
  · rintro ⟨rfl, rfl⟩
    rfl

/-- Byte `k` of inode `i`, with zeros where no block is allocated. -/
def Sys.contents (s : Sys) (i k : ℕ) : UInt8 :=
  if s.ptr (leaf i (k / BSIZE)) = 0 then 0
  else (s.disk (s.ptr (leaf i (k / BSIZE)))).byte (k % BSIZE)

theorem contents_of_ptr_ne_zero {s : Sys} (hk : k / BSIZE = bn) (hne : s.ptr (leaf i bn) ≠ 0) :
    s.contents i k = (s.disk (s.ptr (leaf i bn))).byte (k % BSIZE) := by
  subst hk
  exact if_neg hne

theorem div_lt_maxfile (hk : k < MAXFILE * BSIZE) : k / BSIZE < MAXFILE := by
  simp only [maxfile_eq, BSIZE] at hk ⊢
  omega

section Contents

variable {s t : Sys} {ip : ℕ} {N : Finset Pos} {i k : ℕ}

/-- **Allocating blocks changes no contents**: new data blocks are zero. -/
theorem Ext.contents_eq (e : Ext s t ip N ∅) (hi : i < s.sb.ninodes) (hk : k < MAXFILE * BSIZE) :
    t.contents i k = s.contents i k := by
  have hbn := div_lt_maxfile hk
  have hv := valid_leaf hi hbn
  unfold Sys.contents
  by_cases hN : leaf i (k / BSIZE) ∈ N
  · obtain ⟨-, -, h0, hne⟩ := e.new _ hN
    rw [if_neg hne, if_pos h0, e.zeroed _ hN (leaf_leaf hbn) (Finset.notMem_empty _),
      Block.byte_zero]
  · rw [e.old _ hv hN]
    split_ifs with h0
    · rfl
    · rw [e.kept _ hv (leaf_leaf hbn) (Finset.notMem_empty _) h0]

/-- **Writing a data block changes the contents at that block of that file only.** -/
theorem contents_put (h : Own s) {i' bn : ℕ} (hi' : i' < s.sb.ninodes) (hbn' : bn < MAXFILE)
    (hne : s.ptr (leaf i' bn) ≠ 0) (data : Block) (hi : i < s.sb.ninodes)
    (hk : k < MAXFILE * BSIZE) :
    (s.logPut (s.ptr (leaf i' bn)) data).contents i k =
      if i = i' ∧ k / BSIZE = bn then data.byte (k % BSIZE) else s.contents i k := by
  have hbn := div_lt_maxfile hk
  have hv := valid_leaf hi hbn
  have hv' := valid_leaf hi' hbn'
  have e := Ext.put h hv' (leaf_leaf hbn') hne data 0
  have hlt := (h.range _ hv' hne).2
  unfold Sys.contents
  rw [e.old _ hv (Finset.notMem_empty _)]
  by_cases hc : i = i' ∧ k / BSIZE = bn
  · obtain ⟨rfl, rfl⟩ := hc
    rw [if_neg hne, if_pos ⟨rfl, rfl⟩, Sys.disk_logPut hlt.le, if_pos rfl]
  · rw [if_neg hc]
    split_ifs with h0
    · rfl
    · rw [e.kept _ hv (leaf_leaf hbn) ?_ h0]
      rw [Finset.mem_singleton, leaf_inj hbn hbn']
      exact hc

end Contents

/-! ### The blocks of a range -/

/-- The blocks that hold the bytes `[off, off + n)`. -/
def touched (off n : ℕ) : Finset ℕ := (Finset.range n).image fun i => (off + i) / BSIZE

/-- The positions needed for the bytes `[off, off + n)` of inode `i`. -/
def span (i off n : ℕ) : Finset Pos := (touched off n).biUnion (bmapPositions i)

/-- The positions of the data blocks of the bytes `[off, off + n)` of inode `i`. -/
def leaves (i off n : ℕ) : Finset Pos := (touched off n).image (leaf i)

theorem mem_touched : bn ∈ touched off n ↔ ∃ k < n, (off + k) / 512 = bn := by
  simp [touched]

/-- The first round of the loops of `readi` and `writei` deals with one block. -/
theorem touched_step (hn : 0 < n) (hm : m = min n (512 - off % 512)) :
    touched off n = {off / 512} ∪ touched (off + m) (n - m) := by
  ext bn
  rw [Finset.mem_union, Finset.mem_singleton, mem_touched, mem_touched]
  constructor
  · rintro ⟨k, hk, he⟩
    by_cases hkm : k < m
    · left
      omega
    · exact Or.inr ⟨k - m, by omega, by rw [← he]; congr 1; omega⟩
  · rintro (he | ⟨k, hk, he⟩)
    · exact ⟨0, hn, by rw [he, Nat.add_zero]⟩
    · exact ⟨m + k, by omega, by rw [← he]; congr 1; omega⟩

theorem lt_maxfile_of_mem_touched (h : off + n ≤ MAXFILE * BSIZE) (hbn : bn ∈ touched off n) :
    bn < MAXFILE := by
  obtain ⟨k, hk, rfl⟩ := mem_touched.mp hbn
  exact div_lt_maxfile (by omega)

/-- The positions of a range of bytes of a file are valid. -/
theorem valid_of_mem_span (hi : i < m) (h : off + n ≤ MAXFILE * BSIZE) :
    ∀ q ∈ span i off n, q.Valid m := by
  intro q hq
  obtain ⟨bn, hbn, hq⟩ := Finset.mem_biUnion.mp hq
  exact valid_of_mem_positions hi (validPos_pathOf (lt_maxfile_of_mem_touched h hbn)) q hq

/-! ### `writei` -/

section Writei

variable {p : ℕ} {s : Sys} {ip : ℕ}

/-- The contents of all files after the bytes `src` have been written at `off` of inode `i`. -/
def Updated (s t : Sys) (i off : ℕ) (src : List UInt8) : Prop :=
  ∀ i' < s.sb.ninodes, ∀ k < MAXFILE * BSIZE, t.contents i' k =
    if i' = i ∧ off ≤ k ∧ k < off + src.length then src.getD (k - off) 0 else s.contents i' k

/-- The postcondition of the loop of `writei`. -/
def Wrote (s : Sys) (ip off : ℕ) (src : List UInt8) (t : Sys) : Prop :=
  Ext s t ip (s.missing (span (s.icache ip).inum off src.length))
      (leaves (s.icache ip).inum off src.length) ∧
    Updated s t (s.icache ip).inum off src

variable {i k m off : ℕ} {src : List UInt8}

/-- One block of a write: the bytes of the block after the copy, in terms of the file. -/
theorem byte_blit_contents {t : Sys} (hne : t.ptr (leaf i (off / BSIZE)) ≠ 0)
    (hm : m = min src.length (BSIZE - off % BSIZE)) (hk : k / BSIZE = off / BSIZE) :
    ((t.disk (t.ptr (leaf i (off / BSIZE)))).blit (off % BSIZE) (src.take m)).byte (k % BSIZE) =
      if off ≤ k ∧ k < off + m then src.getD (k - off) 0 else t.contents i k := by
  have hcont := contents_of_ptr_ne_zero hk hne
  simp only [BSIZE] at *
  have hlen : (src.take m).length = m := by rw [List.length_take]; omega
  by_cases hc : off ≤ k ∧ k < off + m
  · have hj : k - off < (src.take m).length := by omega
    rw [if_pos hc, show k % 512 = off % 512 + (k - off) by omega,
      Block.byte_blit_of_mem _ hj (by omega), List.getD_eq_getElem _ _ (by omega),
      List.getElem_take]
  · rw [if_neg hc, hcont]
    by_cases hlt : k % 512 < off % 512
    · exact Block.byte_blit_of_lt _ _ hlt
    · exact Block.byte_blit_of_ge _ _ (by omega)

/-- One round of the loop of `writei`: the block is mapped, then written. -/
theorem wrote_block {t : Sys} {off m : ℕ} {src : List UInt8} (h : Own s) (hip : s.Held ip)
    (hbn : off / BSIZE < MAXFILE) (hm : m = min src.length (BSIZE - off % BSIZE))
    (hw : Walked s ip (pathOf (off / BSIZE)).1 (pathOf (off / BSIZE)).2
      (bmapPositions (s.icache ip).inum (off / BSIZE))
      (t.ptr (leaf (s.icache ip).inum (off / BSIZE))) t) :
    let u := t.logPut (t.ptr (leaf (s.icache ip).inum (off / BSIZE)))
      ((t.disk (t.ptr (leaf (s.icache ip).inum (off / BSIZE)))).blit (off % BSIZE) (src.take m))
    Ext s u ip (s.missing (bmapPositions (s.icache ip).inum (off / BSIZE)))
        {leaf (s.icache ip).inum (off / BSIZE)} ∧
      Updated s u (s.icache ip).inum off (src.take m) := by
  intro u
  obtain ⟨e, -, hne⟩ := hw
  have hi := h.inum_lt ip hip
  have hi' : (s.icache ip).inum < t.sb.ninodes := by rwa [e.sb]
  have hlen : (src.take m).length = m := by
    rw [List.length_take]
    omega
  have eput := e.trans (Ext.put e.own (valid_leaf hi' hbn) (leaf_leaf hbn) hne
    ((t.disk (t.ptr (leaf (s.icache ip).inum (off / BSIZE)))).blit (off % BSIZE) (src.take m)) ip)
  rw [Finset.union_empty, Finset.empty_union] at eput
  refine ⟨eput, fun i' hi'' k hk => ?_⟩
  rw [contents_put e.own hi' hbn hne _ (by rwa [e.sb]) hk, hlen]
  have hsame := e.contents_eq hi'' hk
  by_cases hc : i' = (s.icache ip).inum ∧ k / BSIZE = off / BSIZE
  · obtain ⟨rfl, hkb⟩ := hc
    rw [if_pos ⟨rfl, hkb⟩, byte_blit_contents hne hm hkb, hsame]
    by_cases hr : off ≤ k ∧ k < off + m
    · rw [if_pos hr, if_pos ⟨rfl, hr⟩, List.getD_eq_getElem _ _ (by omega),
        List.getD_eq_getElem _ _ (by omega), List.getElem_take]
    · rw [if_neg hr, if_neg fun hc => hr hc.2]
  · rw [if_neg hc, hsame, if_neg]
    rintro ⟨rfl, h1, h2⟩
    refine hc ⟨rfl, ?_⟩
    simp only [BSIZE] at hm ⊢
    omega

/-- A round of the loop, and the rest of it. -/
theorem Wrote.cons {u w : Sys} (h : Own s) (hip : s.Held ip)
    (hmax : off + src.length ≤ MAXFILE * BSIZE) (hpos : 0 < src.length)
    (hm : m = min src.length (BSIZE - off % BSIZE))
    (e : Ext s u ip (s.missing (bmapPositions (s.icache ip).inum (off / BSIZE)))
      {leaf (s.icache ip).inum (off / BSIZE)})
    (hu : Updated s u (s.icache ip).inum off (src.take m))
    (hw : Wrote u ip (off + m) (src.drop m) w) : Wrote s ip off src w := by
  obtain ⟨e', hupd⟩ := hw
  have hlen : (src.take m).length = m := by
    rw [List.length_take]
    omega
  rw [e.inum, List.length_drop] at e'
  rw [e.inum] at hupd
  have hsplit := touched_step hpos hm
  have hvrest := valid_of_mem_span (m := s.sb.ninodes) (h.inum_lt ip hip)
    (show (off + m) + (src.length - m) ≤ MAXFILE * BSIZE by omega)
  refine ⟨?_, fun i' hi' k hk => ?_⟩
  · have := e.trans e'
    rw [← e.missing_union hvrest] at this
    rw [span, leaves, hsplit, Finset.union_biUnion, Finset.singleton_biUnion, Finset.image_union,
      Finset.image_singleton]
    exact this
  · rw [hupd i' (by rwa [e.sb]) k hk, hu i' hi' k hk, hlen, List.length_drop]
    by_cases h1 : i' = (s.icache ip).inum ∧ off ≤ k ∧ k < off + src.length
    · obtain ⟨rfl, h2, h3⟩ := h1
      rw [if_pos (show _ = _ ∧ off ≤ k ∧ k < off + src.length from ⟨rfl, h2, h3⟩)]
      by_cases h4 : k < off + m
      · rw [if_neg (by omega), if_pos ⟨rfl, h2, h4⟩, List.getD_eq_getElem _ _ (by omega),
          List.getD_eq_getElem _ _ (by omega), List.getElem_take]
      · rw [if_pos ⟨rfl, by omega, by omega⟩, List.getD_eq_getElem _ _ (by
          rw [List.length_drop]; omega), List.getD_eq_getElem _ _ (by omega), List.getElem_drop]
        congr 1
        omega
    · rw [if_neg h1, if_neg, if_neg]
      · rintro ⟨he, h2, h3⟩
        exact h1 ⟨he, h2, by omega⟩
      · rintro ⟨he, h2, h3⟩
        exact h1 ⟨he, by omega, by omega⟩

theorem Wrote.nil (h : Own s) (off : ℕ) : Wrote s ip off [] s := by
  refine ⟨Ext.refl h ip, fun i' _ k _ => ?_⟩
  rw [if_neg (by simp)]

/-- **The loop of `writei`** allocates the missing blocks of its range and updates the range. -/
theorem wp_writeiLoop {fuel : ℕ} (h : Own s) (hip : s.Held ip) (hbusy : s.log.busy = true)
    (hfuel : src.length ≤ fuel) (hmax : off + src.length ≤ MAXFILE * BSIZE) :
    Prog.wp (exec .ideal p) (writeiLoop ip fuel off src)
      (fun _ t => Wrote s ip off src t)
      (fun _ => NoRoom s (span (s.icache ip).inum off src.length)) s := by
  -- induction on the fuel: every round with bytes to go writes at least one
  induction fuel generalizing off src s with
  | zero =>
    obtain rfl : src = [] := List.eq_nil_of_length_eq_zero (by omega)
    exact Wrote.nil h off
  | succ fuel ih =>
    rw [writeiLoop]
    split_ifs with hnil
    · subst hnil
      exact Wrote.nil h off
    · have hpos : 0 < src.length := List.length_pos_of_ne_nil hnil
      obtain ⟨m, hm⟩ : ∃ m, m = min src.length (BSIZE - off % BSIZE) := ⟨_, rfl⟩
      have hm0 : 0 < m := by
        simp only [BSIZE] at hm
        omega
      have hbn : off / BSIZE < MAXFILE := div_lt_maxfile (by omega)
      have hsplit : span (s.icache ip).inum off src.length =
          bmapPositions (s.icache ip).inum (off / BSIZE) ∪
            span (s.icache ip).inum (off + m) (src.length - m) := by
        rw [span, touched_step hpos hm, Finset.union_biUnion, Finset.singleton_biUnion]
        rfl
      refine Prog.wp.bind (wp_bmap h hip hbusy hbn) ?_ fun _ hroom => ?_
      · intro b t hw
        obtain rfl : b = t.ptr (leaf (s.icache ip).inum (off / BSIZE)) := hw.2.1
        refine Prog.wp_bind_of_ok (run_bread _) (Prog.wp_bind_of_ok
          (run_logWrite (fun hl => by cases hl) (hw.1.busy.trans hbusy)) ?_)
        rw [← hm]
        obtain ⟨e, hu⟩ := wrote_block h hip hbn hm hw
        refine Prog.wp_mono (ih e.own (e.held hip) (e.busy.trans hbusy)
          (by rw [List.length_drop]; omega) (by rw [List.length_drop]; omega)) ?_
          fun _ hroom => ?_
        · intro _ w hw'
          exact Wrote.cons h hip hmax hpos hm e hu hw'
        · rw [e.inum, List.length_drop] at hroom
          rw [hsplit]
          exact e.free_lt (valid_of_mem_span (h.inum_lt ip hip) (by omega)) hroom
      · rw [hsplit]
        refine lt_of_lt_of_le hroom (Finset.card_le_card ?_)
        exact Finset.filter_subset_filter _ Finset.subset_union_left

/-- The end of `writei`: a file that has grown gets its new size, in memory and on disk. -/
def Sys.resized (s : Sys) (ip size : ℕ) : Sys :=
  if (s.icache ip).din.size < size then
    (s.setDin ip ((s.icache ip).din.setSize size)).iupdated ip
  else s

/-- A state in which the pointers and the data blocks are the same has the same contents. -/
theorem contents_congr {t : Sys} (hptr : ∀ q : Pos, q.Valid s.sb.ninodes → t.ptr q = s.ptr q)
    (hdisk : ∀ q : Pos, q.Valid s.sb.ninodes → s.ptr q ≠ 0 → t.disk (s.ptr q) = s.disk (s.ptr q))
    (hi : i < s.sb.ninodes) (hk : k < MAXFILE * BSIZE) : t.contents i k = s.contents i k := by
  have hv := valid_leaf hi (div_lt_maxfile hk)
  unfold Sys.contents
  rw [hptr _ hv]
  split_ifs with h0
  · rfl
  · rw [hdisk _ hv h0]

/-- The cache entry of a file that has been written. -/
theorem resized_icache (size a : ℕ) : (s.resized ip size).icache a =
    { s.icache a with
      din := if a = ip then (s.icache ip).din.setSize (max (s.icache ip).din.size size)
        else (s.icache a).din } := by
  unfold Sys.resized
  split_ifs with h1 ha
  · subst ha
    have : ((s.setDin a ((s.icache a).din.setSize size)).iupdated a).icache a =
        (s.setDin a ((s.icache a).din.setSize size)).icache a := rfl
    rw [this, Sys.setDin_icache, if_pos rfl, max_eq_right h1.le]
  · have : ((s.setDin ip ((s.icache ip).din.setSize size)).iupdated ip).icache a =
        (s.setDin ip ((s.icache ip).din.setSize size)).icache a := rfl
    rw [this, Sys.setDin_icache, if_neg ha]
  · rename_i ha
    subst ha
    rw [max_eq_left (by omega)]
    rfl
  · rfl

section Resized

variable {size : ℕ} (h : Own s) (hip : s.Held ip) (hsize : size < 2 ^ 32)
include h hip hsize

theorem own_setSize : Own (s.setDin ip ((s.icache ip).din.setSize size)) :=
  h.setDin (d := (s.icache ip).din.setSize size) hip rfl hsize

/-- A new size keeps the ownership. -/
theorem own_resized : Own (s.resized ip size) := by
  unfold Sys.resized
  split_ifs
  · exact (own_setSize h hip hsize).iupdated (Sys.held_setDin.mpr hip)
  · exact h

/-- A new size leaves the superblock alone. -/
theorem sb_resized : (s.resized ip size).sb = s.sb := by
  unfold Sys.resized
  split_ifs
  · exact (own_setSize h hip hsize).sb_iupdated
  · rfl

/-- A new size leaves the trees alone. -/
theorem ptr_resized {q : Pos} (hq : q.Valid s.sb.ninodes) :
    (s.resized ip size).ptr q = s.ptr q := by
  unfold Sys.resized
  split_ifs
  · rw [(own_setSize h hip hsize).ptr_iupdated (Sys.held_setDin.mpr hip) hq]
    exact h.ptr_setDin (d := (s.icache ip).din.setSize size) hip rfl hq
  · rfl

/-- A new size leaves the bytes alone. -/
theorem contents_resized {i k : ℕ} (hi : i < s.sb.ninodes) (hk : k < MAXFILE * BSIZE) :
    (s.resized ip size).contents i k = s.contents i k := by
  refine contents_congr (fun q hq => ptr_resized h hip hsize hq) (fun q hq hne => ?_) hi hk
  obtain ⟨h1, h2⟩ := h.range q hq hne
  have hlt := iblock_lt (h.inum_lt ip hip)
  rw [Superblock.metaEnd_eq] at h1
  unfold Sys.resized
  split_ifs
  · rw [disk_iupdated (s := s.setDin ip _) h2.le (by rw [Sys.setDin_inum]; omega),
      Sys.setDin_disk]
  · rfl

/-- A new size changes one inode. -/
theorem dinode_resized {i : ℕ} (hi : i < s.sb.ninodes) :
    (s.resized ip size).dinode i =
      if i = (s.icache ip).inum then (s.dinode i).setSize (max (s.dinode i).size size)
      else s.dinode i := by
  have hself := Sys.dinode_of_held h.uniq hip
  unfold Sys.resized
  by_cases h1 : (s.icache ip).din.size < size
  · rw [if_pos h1, (own_setSize h hip hsize).dinode_iupdated (Sys.held_setDin.mpr hip) hi,
      Sys.dinode_setDin h.uniq hip]
    refine if_ctx_congr Iff.rfl (fun he => ?_) fun _ => rfl
    rw [he, hself, max_eq_right h1.le]
  · rw [if_neg h1]
    split_ifs with h2
    · rw [h2, hself, max_eq_left (by omega)]
      rfl
    · rfl

end Resized

/-- The part of `writei` after its loop. -/
def writeiEnd (ip off n : ℕ) : Fs (Option ℕ) := do
  let v ← getInode ip
  if 0 < n ∧ v.din.size < off + n then
    setDinode ip { v.din with size := off + n }
    iupdate ip
  return some n

/-- The end of `writei`: the size is updated if the file has grown. -/
theorem run_writeiEnd {md : Mode} {n : ℕ} (hoff : off ≤ (s.icache ip).din.size)
    (hbusy : s.log.busy = true)
    (hroom : md.limited → (s.icache ip).din.size < off + n → s.log.isFull = false) :
    Prog.run (exec md p) (writeiEnd ip off n) s = .ok (some n, s.resized ip (off + n)) := by
  simp only [writeiEnd, Prog.run_bind, run_getInode, Prog.ok_bind, Sys.resized]
  by_cases hgrow : (s.icache ip).din.size < off + n
  · rw [if_pos ⟨by omega, hgrow⟩, if_pos hgrow]
    simp only [Prog.run_bind, run_setDinode, Prog.ok_bind]
    rw [run_iupdate (fun hl => by simpa using hroom hl hgrow) (by simpa using hbusy)]
    rfl
  · rw [if_neg (by omega), if_neg hgrow]
    rfl

/-- `writei` past its tests. -/
theorem run_writei {md : Mode} (htype : (s.icache ip).din.type ≠ T_DEV)
    (hoff : off ≤ (s.icache ip).din.size) (hmax : off + src.length ≤ MAXFILE * BSIZE) :
    Prog.run (exec md p) (writei ip src off) s =
      (Prog.run (exec md p) (writeiLoop ip src.length off src) s).bind fun x =>
        Prog.run (exec md p) (writeiEnd ip off src.length) x.2 := by
  have hmod : (off + src.length) % 2 ^ 32 = off + src.length := by
    rw [maxfile_eq] at hmax
    simp only [BSIZE] at hmax
    exact Nat.mod_eq_of_lt (by omega)
  simp only [writei, Prog.run_bind, run_getInode, Prog.ok_bind]
  rw [if_neg htype, hmod, if_neg (by omega), if_neg (by omega), Prog.run_bind]
  rfl

end Writei

/-! ### `readi` -/

/-- The bytes `[off, off + n)` of inode `i`. -/
def Sys.slice (s : Sys) (i off n : ℕ) : List UInt8 :=
  (List.range n).map fun k => s.contents i (off + k)

/-- Every block of the file has been allocated. -/
def Sys.Mapped (s : Sys) (ip : ℕ) : Prop :=
  ∀ bn, bn * BSIZE < (s.icache ip).din.size →
    bn < MAXFILE ∧ s.ptr (leaf (s.icache ip).inum bn) ≠ 0

/-- The positions above a block that is mapped are mapped. -/
theorem ptr_ne_zero_of_mem {s : Sys} {r : ℕ} {js : List ℕ} (h : s.ptr ⟨i, r, js⟩ ≠ 0) {q : Pos}
    (hq : q ∈ positions i r js) : s.ptr q ≠ 0 := by
  induction js with
  | nil =>
    rw [positions, Finset.mem_singleton] at hq
    exact hq ▸ h
  | cons j js ih =>
    rcases Finset.mem_union.mp hq with hq | hq
    · exact ih (tree_ne_zero_tail h) hq
    · rw [Finset.mem_singleton] at hq
      exact hq ▸ h

/-- A range inside a file without holes needs no blocks. -/
theorem missing_eq_empty {s : Sys} {ip : ℕ} (hmap : s.Mapped ip)
    (hend : off + n ≤ (s.icache ip).din.size) : s.missing (span (s.icache ip).inum off n) = ∅ := by
  refine Finset.filter_eq_empty_iff.mpr fun q hq => ?_
  obtain ⟨bn, hbn, hq⟩ := Finset.mem_biUnion.mp hq
  obtain ⟨k, hk, rfl⟩ := mem_touched.mp hbn
  refine ptr_ne_zero_of_mem ?_ hq
  refine (hmap _ ?_).2
  simp only [BSIZE]
  omega

section Readi

variable {md : Mode} {p : ℕ} {s : Sys} {ip : ℕ}

/-- **`readi`** returns the bytes of the array, up to the end of the file, and changes
nothing. -/
theorem run_readi {off n : ℕ} (huniq : s.Uniq) (hip : s.Held ip)
    (htype : (s.icache ip).din.type ≠ T_DEV) (hmap : s.Mapped ip)
    (hoff : off ≤ (s.icache ip).din.size) (hn : off + n < 2 ^ 32) :
    Prog.run (exec md p) (readi ip off n) s =
      .ok (some (s.slice (s.icache ip).inum off (min n ((s.icache ip).din.size - off))), s) := by
  have hself := Sys.dinode_of_held huniq hip
  have hptr : ∀ bn, dataPtr s.disk (s.icache ip).din bn = s.ptr (leaf (s.icache ip).inum bn) := by
    intro bn
    rw [Sys.ptr, leaf, hself]
    rfl
  have hlen : (if (s.icache ip).din.size < (off + n) % 2 ^ 32 then (s.icache ip).din.size - off
      else n) = min n ((s.icache ip).din.size - off) := by
    rw [Nat.mod_eq_of_lt hn]
    split_ifs <;> omega
  have hloop : Prog.run (exec md p) (readiLoop ip (min n ((s.icache ip).din.size - off)) off
      (min n ((s.icache ip).din.size - off))) s = .ok (fileSlice s.disk (s.icache ip).din off
        (min n ((s.icache ip).din.size - off)), s) := by
    refine run_readiLoop le_rfl fun k hk hk' => ?_
    rw [hptr]
    exact hmap (k / 512) (by simp only [BSIZE]; omega)
  have hslice : fileSlice s.disk (s.icache ip).din off (min n ((s.icache ip).din.size - off)) =
      s.slice (s.icache ip).inum off (min n ((s.icache ip).din.size - off)) := by
    refine List.map_congr_left fun k hk => ?_
    have hk := List.mem_range.mp hk
    have hne := (hmap ((off + k) / BSIZE) (by simp only [BSIZE]; omega)).2
    rw [fileByte, hptr, contents_of_ptr_ne_zero rfl hne]
  simp only [readi, Prog.run_bind, run_getInode, Prog.ok_bind]
  rw [if_neg htype, if_neg (by rw [Nat.mod_eq_of_lt hn]; omega), hlen, Prog.run_bind, hloop,
    hslice]
  rfl

end Readi

/-! ### After `writei` -/

section After

variable {s t : Sys} {ip off : ℕ} {src : List UInt8}

/-- All blocks of the longer file are mapped. -/
theorem Wrote.mapped (hw : Wrote s ip off src t) (h : Own s) (hip : s.Held ip)
    (hmap : s.Mapped ip) (hoff : off ≤ (s.icache ip).din.size)
    (hmax : off + src.length ≤ MAXFILE * BSIZE) {bn : ℕ}
    (hbn : bn * BSIZE < max (s.icache ip).din.size (off + src.length)) :
    bn < MAXFILE ∧ t.ptr (leaf (s.icache ip).inum bn) ≠ 0 := by
  by_cases hold : bn * BSIZE < (s.icache ip).din.size
  · obtain ⟨hlt, hne⟩ := hmap bn hold
    refine ⟨hlt, ?_⟩
    rwa [hw.1.ptr_of_ne_zero (valid_leaf (h.inum_lt ip hip) hlt) hne]
  · have hmem : bn ∈ touched off src.length := by
      simp only [BSIZE] at hbn hold
      exact mem_touched.mpr ⟨bn * 512 - off, by omega, by omega⟩
    exact ⟨lt_maxfile_of_mem_touched hmax hmem,
      (hw.1.written _ (Finset.mem_image_of_mem _ hmem)).2.2⟩

/-- The inodes after `writei`. -/
theorem Wrote.dinode_resized (hw : Wrote s ip off src t) (hip : s.Held ip)
    (hmax : off + src.length ≤ MAXFILE * BSIZE) {j : ℕ} (hj : j < s.sb.ninodes) :
    (t.resized ip (off + src.length)).dinode j =
      if j = (s.icache ip).inum then
        (t.dinode j).setSize (max (s.icache ip).din.size (off + src.length))
      else s.dinode j := by
  obtain ⟨e, -⟩ := hw
  have hm : MAXFILE * BSIZE = 8524800 := by rw [maxfile_eq]; rfl
  rw [Xv6.dinode_resized e.own (e.held hip) (by omega) (e.sb ▸ hj), e.inum ip]
  split_ifs with hji
  · rw [hji, ← e.inum ip, Sys.dinode_of_held e.own.uniq (e.held hip), e.size_eq]
  · exact e.inodes j hj hji

/-- A commit changes no contents. -/
theorem contents_commit (h : Own s) {i k : ℕ} (hi : i < s.sb.ninodes)
    (hk : k < MAXFILE * BSIZE) : s.commit.contents i k = s.contents i k :=
  contents_congr (fun _ hq => h.ptr_commit hq)
    (fun q hq hne => h.disk_commit (h.range q hq hne).2) hi hk

/-- `readi` after a commit returns what it would have returned before. -/
theorem run_readi_commit {md : Mode} {p n : ℕ} (h : Own s) (hip : s.Held ip)
    (htype : (s.icache ip).din.type ≠ T_DEV) (hmap : s.Mapped ip)
    (hoff : off ≤ (s.icache ip).din.size) (hn : off + n < 2 ^ 32) :
    Prog.run (exec md p) (readi ip off n) s.commit =
      .ok (some (s.slice (s.icache ip).inum off (min n ((s.icache ip).din.size - off))),
        s.commit) := by
  have hi := h.inum_lt ip hip
  have hic : s.commit.icache = s.icache := rfl
  have hmap' : s.commit.Mapped ip := by
    intro bn hbn
    rw [hic] at hbn ⊢
    obtain ⟨hlt, hne⟩ := hmap bn hbn
    exact ⟨hlt, by rwa [h.ptr_commit (valid_leaf hi hlt)]⟩
  have hip' : s.commit.Held ip := { hip with }
  rw [run_readi h.commit.uniq hip' htype hmap' hoff hn, hic]
  have hslice : s.commit.slice (s.icache ip).inum off (min n ((s.icache ip).din.size - off)) =
      s.slice (s.icache ip).inum off (min n ((s.icache ip).din.size - off)) := by
    refine List.map_congr_left fun k hk => contents_commit h hi ?_
    have hk := List.mem_range.mp hk
    have := (hmap ((off + k) / 512) (by simp only [BSIZE]; omega)).1
    rw [maxfile_eq] at this ⊢
    simp only [BSIZE]
    omega
  rw [hslice]

end After

end Xv6
