import Xv6.OwnerRun

/-!
# Truncation

`itrunc` frees the blocks of an inode. It walks the direct blocks and one singly-indirect block,
with the loop bound `NINDIRECT`, which counts the entries of both singly-indirect blocks, so it
reads that block past its end; and it does not look at the second singly-indirect block and at
the doubly-indirect one. So it does what it is for exactly on inodes that have direct blocks
only (`itrunc_frees_tree`).

## Main results

* `Own.freeEntry`: freeing a direct block and clearing its pointer keeps the ownership invariant.
* `run_itruncDirect`: the loop over the direct blocks, and the sectors it logs.
* `itrunc_frees_tree`: **when `itrunc` frees the tree of an inode.**
* `itrunc_forgets_indirect`: a file with blocks in the second singly-indirect tier keeps them.
-/

namespace Xv6

/-! ### `bfree` -/

section Bfree

variable {md : Mode} {p b x : ℕ} {s : Sys}

/-- The state after `bfree` of the block `b`. -/
def Sys.freeBlock (s : Sys) (b : ℕ) : Sys :=
  s.logPut (BBLOCK b s.sb.ninodes) ((s.disk (BBLOCK b s.sb.ninodes)).clearBit (b % BPB))

@[simp] theorem freeBlock_icache : (s.freeBlock b).icache = s.icache := rfl

/-- `bfree` of a block in use clears its bit. -/
theorem run_bfree (hroom : md.limited → s.log.isFull = false) (hbusy : s.log.busy = true)
    (hused : s.used b = true) :
    Prog.run (exec md p) (bfree b) s = .ok ((), s.freeBlock b) := by
  rw [Sys.used] at hused
  simp only [bfree, Prog.run_bind, run_readsb, Prog.ok_bind, run_bread]
  rw [if_pos hused]
  exact run_logWrite hroom hbusy

/-- Outside a transaction `bfree` does not return. -/
theorem run_bfree_closed (hbusy : s.log.busy = false) :
    ∃ e, Prog.run (exec md p) (bfree b) s = .error e := by
  simp only [bfree, Prog.run_bind, run_readsb, Prog.ok_bind, run_bread]
  split_ifs
  · exact run_logWrite_closed hbusy _ _
  · exact ⟨_, rfl⟩

theorem disk_freeBlock_of_ge (hb : b < s.sb.size) (hx : x ≤ s.log.start) (hge : s.sb.metaEnd ≤ x) :
    (s.freeBlock b).disk x = s.disk x := by
  have := Superblock.bblock_lt_metaEnd hb
  rw [Sys.freeBlock, Sys.disk_logPut hx, if_neg (by omega)]

section Layout

variable (h : s.Layout) (hb : b < s.sb.size)
include h hb

/-- The superblock and the inode blocks are not part of the bitmap. -/
theorem disk_freeBlock_of_lt (hx : x < BBLOCK 0 s.sb.ninodes) :
    (s.freeBlock b).disk x = s.disk x := by
  have h0 : BBLOCK 0 s.sb.ninodes ≤ BBLOCK b s.sb.ninodes := by
    rw [bblock_eq, bblock_eq]
    omega
  have h1 := Superblock.bblock_lt_metaEnd hb
  have h2 := h.meta_le
  rw [Sys.freeBlock, Sys.disk_logPut (by omega), if_neg (by omega)]

theorem sb_freeBlock : (s.freeBlock b).sb = s.sb := by
  refine Sys.sb_eq_of_disk (disk_freeBlock_of_lt h hb ?_)
  rw [bblock_eq]
  omega

/-- **`bfree` changes exactly one bit of the bitmap.** -/
theorem used_freeBlock (hx : x < s.sb.size) :
    (s.freeBlock b).used x = if x = b then false else s.used x := by
  have hmeta := Superblock.bblock_lt_metaEnd hx
  have hle := h.meta_le
  exact Sys.used_of_bit (sb_freeBlock h hb) (Sys.disk_logPut (by omega)) fun i hi =>
    Block.bit_clearBit _ (Nat.mod_lt _ (by decide)) hi

end Layout

end Bfree

/-! ### One direct block -/

section Entry

variable {ip r : ℕ} {s t : Sys}

/-- Clearing the pointer of a direct block leaves all other pointers. -/
theorem ptr_clear {i₀ r₀ : ℕ} (hr₀ : r₀ < 10)
    (haddr : ∀ i < s.sb.ninodes, ∀ r < 13, (t.dinode i).addr r =
      if i = i₀ ∧ r = r₀ then 0 else (s.dinode i).addr r)
    (hdisk : ∀ q : Pos, q.Valid s.sb.ninodes → s.ptr q ≠ 0 → t.disk (s.ptr q) = s.disk (s.ptr q))
    {q : Pos} (hq : q.Valid s.sb.ninodes) :
    t.ptr q = if q = ⟨i₀, r₀, []⟩ then 0 else s.ptr q := by
  obtain ⟨i, r, js⟩ := q
  induction js with
  | nil =>
    rw [ptr_nil, haddr i hq.inum r hq.pos.root]
    simp [ptr_nil]
  | cons j js ih =>
    have hv : Pos.Valid s.sb.ninodes ⟨i, r, js⟩ := ⟨hq.inum, hq.pos.tail⟩
    -- a direct entry has nothing below it
    have hne : ¬ Pos.mk i r js = ⟨i₀, r₀, []⟩ := by
      intro he
      have := hq.pos.depth
      simp only [Pos.mk.injEq] at he
      simp [depth, he.2.1, hr₀] at this
    rw [ptr_cons, ptr_cons, ih hv, if_neg hne]
    by_cases h0 : s.ptr ⟨i, r, js⟩ = 0
    · simp [h0]
    · simp [h0, hdisk _ hv h0]

/-- The invariant is kept when a block is freed together with the pointer to it. -/
theorem Own.clear {b : ℕ} {q₀ : Pos} (h : Own s) (hsb : t.sb = s.sb)
    (hstart : t.log.start = s.log.start) (hcache : t.CacheOk) (hlog : LogOk t)
    (hq₀ : q₀.Valid s.sb.ninodes) (hb : s.ptr q₀ = b) (hb0 : b ≠ 0)
    (hused : ∀ x < s.sb.size, t.used x = if x = b then false else s.used x)
    (hptr : ∀ q : Pos, q.Valid s.sb.ninodes → t.ptr q = if q = q₀ then 0 else s.ptr q) :
    Own t := by
  have hle := h.start_le
  have hme := h.meta_le
  have hge : s.sb.metaEnd ≤ b := hb ▸ (h.range q₀ hq₀ (by rw [hb]; exact hb0)).1
  -- the pointers that are left are those of other positions
  have hold : ∀ q : Pos, q.Valid s.sb.ninodes → t.ptr q ≠ 0 →
      q ≠ q₀ ∧ t.ptr q = s.ptr q ∧ s.ptr q ≠ 0 ∧ s.ptr q ≠ b := by
    intro q hq hne
    rw [hptr q hq] at hne ⊢
    split_ifs at hne ⊢ with hqq
    · exact absurd rfl hne
    · refine ⟨hqq, rfl, hne, fun he => hqq (h.inj q q₀ hq hq₀ hne (he.trans hb.symm))⟩
  refine { hcache, hlog with
    meta_le := by rw [hsb, hstart]; exact hme
    start_le := by rw [hsb, hstart]; exact hle
    meta_used := ?_, range := ?_, ptr_used := ?_, inj := ?_ }
  · rw [hsb]
    intro x hx
    rw [hused x (by omega), if_neg (by omega)]
    exact h.meta_used x hx
  · rw [hsb, hstart]
    intro q hq hne
    obtain ⟨-, he, h0, -⟩ := hold q hq hne
    rw [he]
    exact h.range q hq h0
  · rw [hsb]
    intro q hq hne
    obtain ⟨-, he, h0, hnb⟩ := hold q hq hne
    have := (h.range q hq h0).2
    rw [he, hused _ (by omega), if_neg hnb]
    exact h.ptr_used q hq h0
  · rw [hsb]
    intro q q' hq hq' hne heq
    obtain ⟨-, he, h0, -⟩ := hold q hq hne
    obtain ⟨-, he', -, -⟩ := hold q' hq' (heq ▸ hne)
    exact h.inj q q' hq hq' h0 (by rw [← he, ← he', heq])

/-- The state after a round of the first loop of `itrunc`. -/
def Sys.freeEntry (s : Sys) (ip r : ℕ) : Sys :=
  if (s.icache ip).din.addr r = 0 then s
  else (s.freeBlock ((s.icache ip).din.addr r)).setDin ip ((s.icache ip).din.setAddr r 0)

/-- The states before and after the direct blocks at the entries `A` have been freed. -/
structure Freed (s t : Sys) (ip : ℕ) (A : Finset ℕ) : Prop where
  own : Own t
  held : t.Held ip
  inum : (t.icache ip).inum = (s.icache ip).inum
  sb : t.sb = s.sb
  capacity : t.log.capacity = s.log.capacity
  busy : t.log.busy = s.log.busy
  addr : ∀ r, (t.icache ip).din.addr r = if r ∈ A then 0 else (s.icache ip).din.addr r
  used : ∀ x < s.sb.size, t.used x = true ↔
    s.used x = true ∧ ∀ r ∈ A, (s.icache ip).din.addr r = x → x = 0
  lh : ∀ x, x ∈ t.log.lh ↔ x ∈ s.log.lh ∨ ∃ r ∈ A, (s.icache ip).din.addr r ≠ 0 ∧
    x = BBLOCK ((s.icache ip).din.addr r) s.sb.ninodes

theorem Freed.refl (h : Own s) (hip : s.Held ip) : Freed s s ip ∅ :=
  ⟨h, hip, rfl, rfl, rfl, rfl, by simp, by simp, by simp⟩

/-- Blocks freed in two stretches of code. -/
theorem Freed.trans {u : Sys} {A B : Finset ℕ} (h : Freed s t ip A) (h' : Freed t u ip B) :
    Freed s u ip (A ∪ B) where
  own := h'.own
  held := h'.held
  inum := h'.inum.trans h.inum
  sb := h'.sb.trans h.sb
  capacity := h'.capacity.trans h.capacity
  busy := h'.busy.trans h.busy
  addr r := by
    rw [h'.addr, h.addr]
    by_cases h1 : r ∈ A <;> by_cases h2 : r ∈ B <;> simp [h1, h2]
  used x hx := by
    rw [h'.used x (by rw [h.sb]; exact hx), h.used x hx, and_assoc]
    refine and_congr_right fun _ => ?_
    simp only [h.addr, Finset.mem_union]
    constructor
    · rintro ⟨hA, hB⟩ r hr he
      by_cases hrA : r ∈ A
      · exact hA r hrA he
      · exact hB r (hr.resolve_left hrA) (by rwa [if_neg hrA])
    · intro hAB
      refine ⟨fun r hr => hAB r (Or.inl hr), fun r hr he => ?_⟩
      split_ifs at he
      · exact he.symm
      · exact hAB r (Or.inr hr) he
  lh x := by
    rw [h'.lh, h.lh, or_assoc]
    refine or_congr_right ?_
    simp only [h.addr, h.sb, Finset.mem_union]
    constructor
    · rintro (⟨r, hr, h2⟩ | ⟨r, hr, h2⟩)
      · exact ⟨r, Or.inl hr, h2⟩
      · split_ifs at h2
        · exact absurd rfl h2.1
        · exact ⟨r, Or.inr hr, h2⟩
    · rintro ⟨r, hr, h2⟩
      by_cases hrA : r ∈ A
      · exact Or.inl ⟨r, hrA, h2⟩
      · exact Or.inr ⟨r, hr.resolve_left hrA, by rwa [if_neg hrA]⟩

/-- **Freeing a direct block and clearing its pointer keeps the ownership invariant.** -/
theorem Own.freeEntry (h : Own s) (hip : s.Held ip) (hr : r < 10) :
    Freed s (s.freeEntry ip r) ip {r} := by
  rw [Sys.freeEntry]
  split_ifs with h0
  · refine ⟨h, hip, rfl, rfl, rfl, rfl, fun r' => ?_, fun x _ => ?_, fun x => ?_⟩
    · by_cases hr' : r' = r <;> simp [hr', h0]
    · simpa [h0] using fun _ he => he.symm
    · simp [h0]
  · obtain ⟨b, hb⟩ : ∃ b, b = (s.icache ip).din.addr r := ⟨_, rfl⟩
    have hi := h.inum_lt ip hip
    have hself := Sys.dinode_of_held h.uniq hip
    have hv : Pos.Valid s.sb.ninodes ⟨(s.icache ip).inum, r, []⟩ :=
      ⟨hi, hr.trans (by decide), by simp, by simp⟩
    have hptr : s.ptr ⟨(s.icache ip).inum, r, []⟩ = b := by rw [ptr_nil, hself, hb]
    rw [← hb] at h0 ⊢
    obtain ⟨hge, hlt⟩ := h.range _ hv (by rw [hptr]; exact h0)
    rw [hptr] at hge hlt
    have hsize : b < s.sb.size := hlt.trans_le h.start_le
    have hlog : BBLOCK b s.sb.ninodes < s.log.start :=
      (Superblock.bblock_lt_metaEnd hsize).trans_le h.meta_le
    have hsb : (s.freeBlock b).sb = s.sb := sb_freeBlock h.toLayout hsize
    have hfit : ((s.icache ip).din.setAddr r 0).Fits := by
      refine ⟨(h.fits ip hip).size, fun k => ?_⟩
      rw [Dinode.addr_setAddr _ (by omega)]
      split_ifs
      · omega
      · exact (h.fits ip hip).addr k
    have hcache : (s.freeBlock b).CacheOk := h.toCacheOk.congr rfl hsb
    have hdin : ∀ i < s.sb.ninodes, (s.freeBlock b).dinode i = s.dinode i := fun i hi =>
      Sys.dinode_congr_disk rfl (disk_freeBlock_of_lt h.toLayout hsize (iblock_lt_bblock hi 0))
    have hip' : (s.freeBlock b).Held ip := { hip with }
    have hl : LogOk (s.freeBlock b) := h.toLogOk.logPut hlog _
    have hown : Own ((s.freeBlock b).setDin ip ((s.icache ip).din.setAddr r 0)) := by
      refine h.clear hsb rfl (hcache.setDin hfit) { hl with } hv hptr h0
        (fun x hx => used_freeBlock h.toLayout hsize hx) fun q hq => ptr_clear hr ?_ ?_ hq
      · intro i hi' r' hr'
        rw [Sys.dinode_setDin hcache.uniq hip', freeBlock_icache]
        by_cases he : i = (s.icache ip).inum
        · rw [if_pos he, Dinode.addr_setAddr _ (by omega), he, hself]
          simp
        · rw [if_neg he, if_neg fun hc => he hc.1, hdin i hi']
      · intro q' hq' hne
        obtain ⟨h1, h2⟩ := h.range q' hq' hne
        exact disk_freeBlock_of_ge hsize h2.le h1
    refine ⟨hown, Sys.held_setDin.mpr hip', ?_, hsb, rfl, rfl, fun r' => ?_, fun x hx => ?_,
      fun x => ?_⟩
    · rw [Sys.setDin_inum]
      rfl
    · rw [Sys.setDin_din, if_pos rfl, Dinode.addr_setAddr _ (by omega)]
      simp
    · have hu : ((s.freeBlock b).setDin ip ((s.icache ip).din.setAddr r 0)).used x =
          if x = b then false else s.used x := used_freeBlock h.toLayout hsize hx
      rw [hu]
      by_cases hxb : x = b
      · simp [hxb, ← hb, h0]
      · simp [hxb, ← hb, Ne.symm hxb]
    · rw [Sys.setDin_log, Sys.freeBlock, Sys.mem_logPut_lh]
      simp [← hb, h0, or_comm]

end Entry

/-! ### The loops -/

section Loops

variable {md : Mode} {p ip : ℕ} {s t : Sys}

/-- **The loop over the direct blocks**, with a log that does not fill up. -/
theorem run_itruncDirect {is : List ℕ} (h : Own s) (hip : s.Held ip) (hbusy : s.log.busy = true)
    (his : ∀ r ∈ is, r < 10) :
    ∃ t, Prog.run (exec .ideal p) (itruncDirect ip is) s = .ok ((), t) ∧
      Freed s t ip is.toFinset := by
  induction is generalizing s with
  | nil => exact ⟨s, rfl, .refl h hip⟩
  | cons r is ih =>
    have hr := his r List.mem_cons_self
    have hf := h.freeEntry hip hr
    obtain ⟨t, hrun, ht⟩ := ih hf.own hf.held (hf.busy.trans hbusy) fun r' hr' =>
      his r' (List.mem_cons_of_mem _ hr')
    refine ⟨t, ?_, by rw [List.toFinset_cons]; exact hf.trans ht⟩
    rw [itruncDirect, Prog.run_bind, run_getInode, Prog.ok_bind]
    rw [Sys.freeEntry] at hrun
    by_cases h0 : (s.icache ip).din.addr r = 0
    · rw [if_pos h0] at hrun
      rw [if_neg (not_not.mpr h0)]
      exact hrun
    · have hself := Sys.dinode_of_held h.uniq hip
      have hv : Pos.Valid s.sb.ninodes ⟨(s.icache ip).inum, r, []⟩ :=
        ⟨h.inum_lt ip hip, hr.trans (by decide), by simp, by simp⟩
      have hused := h.ptr_used _ hv (by rwa [ptr_nil, hself])
      rw [ptr_nil, hself] at hused
      rw [if_neg h0] at hrun
      rw [if_pos h0, Prog.run_bind, run_bfree (by simp [Mode.ideal]) hbusy hused]
      simp only [Prog.ok_bind, Prog.run_bind, run_getInode, run_setDinode]
      exact hrun

/-- The second loop reads its block past the end. -/
theorem run_itruncIndirect {blk j : ℕ} {js : List ℕ} (hj : j ∈ js) (hge : 128 ≤ j) :
    ∃ e, Prog.run (exec md p) (itruncIndirect blk js) s = .error e := by
  induction js generalizing s with
  | nil => cases hj
  | cons j' js ih =>
    rw [itruncIndirect, Prog.run_bind, run_bread, Prog.ok_bind]
    by_cases h1 : PTRS_PER_BLOCK ≤ j'
    · rw [if_pos h1]
      exact ⟨_, rfl⟩
    · have hmem : j ∈ js := by
        rcases List.mem_cons.mp hj with rfl | hm
        · exact absurd hge h1
        · exact hm
      rw [if_neg h1]
      split_ifs
      · rw [Prog.run_bind]
        cases Prog.run (exec md p) (bfree ((s.disk blk).word j')) s with
        | error e => exact ⟨e, rfl⟩
        | ok x => exact ih hmem
      · exact ih hmem

/-- Outside a transaction `itrunc` does not return: it always writes the inode back. -/
theorem run_itrunc_closed (hbusy : s.log.busy = false) :
    ∃ e, Prog.run (exec md p) (itrunc ip) s = .error e := by
  have hdirect : ∀ is, Prog.wp (exec md p) (itruncDirect ip is) (fun _ t => t = s)
      (fun _ => True) s := by
    intro is
    induction is with
    | nil => rfl
    | cons r is ih =>
      refine Prog.wp_bind_of_ok (run_getInode ip) ?_
      split_ifs
      · obtain ⟨e, he⟩ := run_bfree_closed hbusy
        exact Prog.wp_of_error (Prog.run_bind_error _ he) trivial
      · exact ih
  rw [itrunc, Prog.run_bind]
  cases hrun : Prog.run (exec md p) (itruncDirect ip (List.range NDIRECT)) s with
  | error e => exact ⟨e, rfl⟩
  | ok x =>
    obtain rfl : x.2 = s := (hdirect _).ok hrun
    simp only [Prog.ok_bind, Prog.run_bind, run_getInode]
    split_ifs
    · obtain ⟨e, he⟩ := run_itruncIndirect (List.mem_range.mpr (by decide : 128 < NINDIRECT))
        le_rfl
      rw [Prog.run_bind_error _ he]
      exact ⟨e, rfl⟩
    · simp only [Prog.run_bind, run_getInode, Prog.ok_bind, run_setDinode, iupdate, run_bread]
      exact run_logWrite_closed (by rw [Sys.setDin_log]; exact hbusy) _ _

/-- The state at the end of `itrunc`. -/
def Sys.truncated (s : Sys) (ip : ℕ) : Sys :=
  (s.setDin ip ((s.icache ip).din.setSize 0)).iupdated ip

/-- The pointers of a file whose size has been set to 0. -/
theorem addr_truncated (r : ℕ) :
    ((s.truncated ip).icache ip).din.addr r = (s.icache ip).din.addr r := by
  have hic : (s.truncated ip).icache ip =
      (s.setDin ip ((s.icache ip).din.setSize 0)).icache ip := rfl
  rw [hic, Sys.setDin_din, if_pos rfl]
  rfl

/-- The size 0 does not change what is in use. -/
theorem used_truncated (h : Own s) (hip : s.Held ip) {x : ℕ} (hx : x < s.sb.size) :
    (s.truncated ip).used x = s.used x := by
  have hown : Own (s.setDin ip ((s.icache ip).din.setSize 0)) :=
    h.setDin hip rfl (by simp [Dinode.setSize])
  exact hown.used_iupdated (Sys.held_setDin.mpr hip) hx

/-- When `itrunc` returns, in a transaction. -/
theorem run_itrunc_iff (h : Own s) (hip : s.Held ip) (hbusy : s.log.busy = true) :
    ∃ u, Freed s u ip (Finset.range 10) ∧ ∀ t, Prog.run (exec .real p) (itrunc ip) s = .ok ((), t) ↔
      (s.icache ip).din.addr 10 = 0 ∧ u.log.lh.length < s.log.capacity ∧ t = u.truncated ip := by
  have his : ∀ r ∈ List.range NDIRECT, r < 10 := fun r hr => by simpa using hr
  obtain ⟨u, hrun, hu⟩ := run_itruncDirect (p := p) h hip hbusy his
  rw [List.toFinset_range] at hu
  refine ⟨u, hu, fun t => ?_⟩
  obtain ⟨-, -, hreal⟩ := run_real_of_ideal (only_itruncDirect ip _) hrun
  have haddr : (u.icache ip).din.addr NDIRECT = (s.icache ip).din.addr 10 := by
    rw [hu.addr, if_neg (by simp)]
    rfl
  have hcap : u.log.isFull = true ↔ s.log.capacity ≤ u.log.lh.length := by
    rw [Log.isFull_iff, hu.capacity]
  rcases hreal with he | ⟨he, hfull⟩
  · rw [itrunc, Prog.run_bind, he, Prog.ok_bind, Prog.run_bind, run_getInode, Prog.ok_bind, haddr]
    by_cases h0 : (s.icache ip).din.addr 10 = 0
    · rw [if_neg (not_not.mpr h0)]
      rw [Prog.run_bind, run_getInode, Prog.ok_bind, Prog.run_bind, run_setDinode, Prog.ok_bind]
      by_cases hroom : u.log.isFull = true
      · rw [iupdate, Prog.run_bind, run_getInode, Prog.ok_bind, Prog.run_bind, run_bread,
          Prog.ok_bind, run_logWrite_full rfl (by rwa [Sys.setDin_log])]
        constructor
        · rintro ⟨⟩
        · rintro ⟨-, hlt, -⟩
          exact absurd (hcap.mp hroom) (by omega)
      · rw [run_iupdate (fun _ => by rw [Sys.setDin_log]; simpa using hroom)
          (by rw [Sys.setDin_log, hu.busy]; exact hbusy)]
        have hend : (u.setDin ip { (u.icache ip).din with size := 0 }).iupdated ip =
            u.truncated ip := rfl
        rw [hend]
        constructor
        · intro he'
          rw [Except.ok.injEq, Prod.mk.injEq] at he'
          exact ⟨h0, by rw [hcap] at hroom; omega, he'.2.symm⟩
        · rintro ⟨-, -, rfl⟩
          rfl
    · rw [if_pos h0]
      obtain ⟨e, he'⟩ : ∃ e, Prog.run (exec .real p) (itruncIndirect ((s.icache ip).din.addr 10)
          (List.range NINDIRECT)) u = .error e :=
        run_itruncIndirect (List.mem_range.mpr (by decide : 128 < NINDIRECT)) le_rfl
      rw [Prog.run_bind_error _ he']
      constructor
      · rintro ⟨⟩
      · rintro ⟨h1, -⟩
        exact absurd h1 h0
  · rw [itrunc, Prog.run_bind, he]
    rw [hu.capacity] at hfull
    constructor
    · rintro ⟨⟩
    · rintro ⟨-, hlt, -⟩
      omega

end Loops

/-! ### When the tree is freed -/

section Tree

variable {p ip : ℕ} {s : Sys}

/-- The block `b` is in the tree of inode `i`: as a data block or as an indirect block, of any
tier. -/
def Sys.Reaches (s : Sys) (i b : ℕ) : Prop :=
  ∃ q : Pos, q.Valid s.sb.ninodes ∧ q.inum = i ∧ s.ptr q ≠ 0 ∧ s.ptr q = b

/-- What `itrunc` is for: it returns, without having read an indirect block past its end, it has
cleared in the bitmap exactly the blocks of the tree, and all entries of `addrs` are zero. -/
def Truncates (p : ℕ) (s : Sys) (ip : ℕ) : Prop :=
  ∃ t, Fs.run .real p (itrunc ip) s = .ok ((), t) ∧
    (∀ b < s.sb.size, t.used b = true ↔ s.used b = true ∧ ¬ s.Reaches (s.icache ip).inum b) ∧
    ∀ r < NADDRS, (t.icache ip).din.addr r = 0

/-- The sectors in the log when the direct blocks have been freed: those that were there, and
the bitmap blocks that have the bits of the direct blocks. -/
def truncSectors (s : Sys) (ip : ℕ) : Finset ℕ :=
  s.log.lh.toFinset ∪
    ((Finset.range NDIRECT).filter fun r => (s.icache ip).din.addr r ≠ 0).image fun r =>
      BBLOCK ((s.icache ip).din.addr r) s.sb.ninodes

/-- The number of sectors in the log once the direct blocks have been freed. -/
theorem Freed.length_lh {u : Sys} (hu : Freed s u ip (Finset.range 10)) :
    u.log.lh.length = (truncSectors s ip).card := by
  rw [length_lh_eq_card hu.own.toLogOk]
  congr 1
  ext x
  simp only [truncSectors, List.mem_toFinset, hu.lh, Finset.mem_union, Finset.mem_image,
    Finset.mem_filter, NDIRECT, and_assoc, eq_comm]

/-- Without indirect blocks the tree is the direct blocks. -/
theorem reaches_direct (h : Own s) (hip : s.Held ip)
    (hnone : ∀ r, 10 ≤ r → r < 13 → (s.icache ip).din.addr r = 0) (b : ℕ) :
    s.Reaches (s.icache ip).inum b ↔
      ∃ r < 10, (s.icache ip).din.addr r = b ∧ b ≠ 0 := by
  have hself := Sys.dinode_of_held h.uniq hip
  constructor
  · rintro ⟨⟨i, r, js⟩, hq, rfl, hne, rfl⟩
    have hzero : 10 ≤ r → ∀ js, s.ptr ⟨(s.icache ip).inum, r, js⟩ = 0 := by
      intro hr js
      induction js with
      | nil => rw [ptr_nil, hself, hnone r hr hq.pos.root]
      | cons j js ih => rw [ptr_cons, if_pos ih]
    have hr : r < 10 := by
      by_contra hge
      exact hne (hzero (by omega) js)
    obtain rfl : js = [] := by
      have := hq.pos.depth
      simpa [depth, hr] using this
    exact ⟨r, hr, by rw [ptr_nil, hself], hne⟩
  · rintro ⟨r, hr, rfl, hne⟩
    have hptr : s.ptr ⟨(s.icache ip).inum, r, []⟩ = (s.icache ip).din.addr r := by
      rw [ptr_nil, hself]
    exact ⟨⟨(s.icache ip).inum, r, []⟩, ⟨h.inum_lt ip hip, hr.trans (by decide), by simp, by simp⟩,
      rfl, by rwa [hptr], hptr⟩

/-- **When `itrunc` frees the tree of an inode.** In every state with the ownership invariant, so in
every state of a run of `bmap`, `writei` and `dirlink` calls (`own_reachable`), `itrunc` frees
exactly the blocks of an inode and clears all of `addrs` if and only if it is called in a
transaction, the inode has no indirect blocks, and the bitmap blocks of its direct blocks fit in
the log. -/
theorem itrunc_frees_tree (h : Own s) (hip : s.Held ip) :
    Truncates p s ip ↔ s.log.busy = true ∧
      (∀ r, NDIRECT ≤ r → r < NADDRS → (s.icache ip).din.addr r = 0) ∧
      (truncSectors s ip).card < s.log.capacity := by
  cases hbusy : s.log.busy with
  | false =>
    obtain ⟨e, he⟩ : ∃ e, Prog.run (exec .real p) (itrunc ip) s = .error e :=
      run_itrunc_closed hbusy
    constructor
    · rintro ⟨t, hrun, -⟩
      rw [Fs.run, he] at hrun
      cases hrun
    · rintro ⟨⟨⟩, -⟩
  | true =>
    obtain ⟨u, hu, hiff⟩ := run_itrunc_iff (p := p) h hip hbusy
    constructor
    · rintro ⟨t, hrun, -, haddr⟩
      obtain ⟨-, hlt, rfl⟩ := (hiff t).mp hrun
      refine ⟨rfl, fun r hge hr => ?_, by rwa [← hu.length_lh]⟩
      have := haddr r hr
      rwa [addr_truncated, hu.addr, if_neg (by simpa using hge)] at this
    · rintro ⟨-, hnone, hroom⟩
      have hrun := (hiff _).mpr ⟨hnone 10 le_rfl (by decide), by rwa [hu.length_lh], rfl⟩
      refine ⟨_, hrun, fun b hb => ?_, fun r hr => ?_⟩
      · rw [used_truncated hu.own hu.held (by rwa [hu.sb]), hu.used b hb,
          reaches_direct h hip hnone]
        simp only [Finset.mem_range]
        refine and_congr_right fun _ => ⟨?_, ?_⟩
        · rintro hA ⟨r, hr, he, hne⟩
          exact hne (hA r hr he)
        · intro hA r hr he
          by_contra hne
          exact hA ⟨r, hr, he, hne⟩
      · rw [addr_truncated, hu.addr]
        split_ifs with hA
        · rfl
        · exact hnone r (by simpa using hA) hr

/-- A file of three direct blocks is freed. -/
theorem itrunc_frees_tree_direct : Truncates 0 (smallDisk true 3 1) 0 := by
  have h : Own (smallDisk true 3 1) := own_smallDisk (by omega) (by omega)
  refine (itrunc_frees_tree h (held_smallDisk.mpr rfl)).mpr ⟨rfl, ?_, ?_⟩
  · decide
  · decide +kernel

/-- **The second singly-indirect block is forgotten.** A file with a block at index 138, in the
second singly-indirect tier: `itrunc` returns and leaves the pointer to the indirect block, and
the block is used. -/
theorem itrunc_forgets_indirect : ∃ s u,
    ((fileCalls 0).restrict fun s c => c.HasRoom s).Reachable s ∧ s.Held 0 ∧
    Fs.run .real 0 (itrunc 0) s = .ok ((), u) ∧ (u.icache 0).din.addr 11 ≠ 0 ∧
    u.used ((u.icache 0).din.addr 11) = true ∧ ¬ Truncates 0 s 0 := by
  have hinit : Own (smallDisk true 0 5) := own_smallDisk (by omega) (by omega)
  have hreal : Prog.check (fun _ s => decide (0 < (s.icache 0).ref ∧ (s.icache 0).valid = true) &&
      Prog.check (fun _ u => decide ((u.icache 0).din.addr 11 ≠ 0 ∧
        u.used ((u.icache 0).din.addr 11) = true)) (Fs.run .real 0 (itrunc 0) s))
      (Fs.run .real 0 (bmap 0 138) (smallDisk true 0 5)) = true := by decide +kernel
  have hroom : (smallDisk true 0 5).HasFree (bmapPositions 1 138) := by decide +kernel
  obtain ⟨b, s, hrun, hs⟩ := Prog.exists_of_check hreal
  rw [Bool.and_eq_true, decide_eq_true_eq] at hs
  obtain ⟨⟨href, hvalid⟩, hs⟩ := hs
  obtain ⟨⟨⟩, u, htrunc, hu⟩ := Prog.exists_of_check hs
  obtain ⟨haddr, hused⟩ := of_decide_eq_true hu
  refine ⟨s, u, reachable_bmap (.init hinit) (held_smallDisk.mpr rfl) hroom hrun,
    ⟨by decide, href, hvalid⟩, htrunc, haddr, hused, ?_⟩
  rintro ⟨t, ht, -, hzero⟩
  obtain rfl : t = u := by
    rw [htrunc, Except.ok.injEq, Prod.mk.injEq] at ht
    exact ht.2.symm
  exact haddr (hzero 11 (by decide))

end Tree

end Xv6
