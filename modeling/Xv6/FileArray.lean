import Xv6.SmallDisk
import Xv6.TransBody

/-!
# Files as Arrays, with the Kernel's Log

`writei` and `readi` as operations on arrays of bytes, in the kernel as it is: its log has room
for `Log.capacity` sectors, and a `writei` of many blocks does not fit. The callers know this
and write a few blocks at a time; the results here say exactly which sectors a call logs
(`Sys.footprint`) and that it works if they fit. `log_write` asks for room before it looks whether
the sector is in the log already, so what counts are the sectors before the last `log_write`.

## Main results

* `writeiLoop_append`: the loop of `writei` can be cut at the start of a block.
* `run_writei_real`: `writei` writes everything when its sectors fit in the log.
* `run_writei_overflow`: a `writei` that makes the file longer and whose sectors do not fit
  fails with "too big a transaction".
* `writei_array`: **a file is an array of bytes**, across all tiers, for `writei` followed by
  `readi`.
-/

namespace Xv6

/-- The sectors in the log when `writei` has allocated the blocks of its range and written those of
the blocks `bns`. -/
def sectorsWith (s : Sys) (ip off n : ℕ) (bns : Finset ℕ) : ℕ :=
  (s.log.lh.toFinset ∪ s.footprint (span (s.icache ip).inum off n)
    (bns.image (leaf (s.icache ip).inum))).card

/-- The sectors in the log before the last `log_write` of `writei`: that of the inode if the file
gets longer, and that of the last data block otherwise. -/
def sectorsBefore (s : Sys) (ip off n : ℕ) : ℕ :=
  sectorsWith s ip off n (if (s.icache ip).din.size < off + n then touched off n
    else (touched off n).erase ((off + n - 1) / BSIZE))

theorem upClosed_span (i off n : ℕ) : UpClosed (span i off n) := by
  intro q hq hne
  obtain ⟨bn, hbn, hq⟩ := Finset.mem_biUnion.mp hq
  exact Finset.mem_biUnion.mpr ⟨bn, hbn, upClosed_positions _ _ _ q hq hne⟩

theorem mem_positions_self (i r : ℕ) (js : List ℕ) : Pos.mk i r js ∈ positions i r js := by
  cases js <;> simp [positions]

theorem leaves_subset_span (i off n : ℕ) : leaves i off n ⊆ span i off n := by
  intro q hq
  obtain ⟨bn, hbn, rfl⟩ := Finset.mem_image.mp hq
  exact Finset.mem_biUnion.mpr ⟨bn, hbn, mem_positions_self _ _ _⟩

/-! ### The last block of a write -/

section Cut

variable {ip off : ℕ} {src xs ys : List UInt8}

/-- The loop of `writei` does not depend on its fuel. -/
theorem writeiLoop_fuel {f g : ℕ} (hf : src.length ≤ f) (hg : src.length ≤ g) :
    writeiLoop ip f off src = writeiLoop ip g off src := by
  have hnil : ∀ n off, writeiLoop ip n off [] = pure () := by
    rintro (_ | n) off <;> rfl
  induction f generalizing g off src with
  | zero =>
    obtain rfl : src = [] := List.eq_nil_of_length_eq_zero (by omega)
    rw [hnil, hnil]
  | succ f ih =>
    by_cases hne : src = []
    · rw [hne, hnil, hnil]
    · have hpos : 0 < src.length := List.length_pos_of_ne_nil hne
      cases g with
      | zero => omega
      | succ g =>
        have hlt : (src.drop (min src.length (BSIZE - off % BSIZE))).length < src.length := by
          simp only [List.length_drop, BSIZE]
          omega
        simp only [writeiLoop, if_neg hne]
        rw [ih (by omega) (by omega : _ ≤ g)]

/-- One round of the loop of `writei`. -/
theorem writeiLoop_round (ip off : ℕ) {m : ℕ} (hne : src ≠ [])
    (hm : m = min src.length (512 - off % 512)) :
    writeiLoop ip src.length off src = (do
      let addr ← bmap ip (off / BSIZE)
      let bp ← bread addr
      logWrite addr (bp.blit (off % BSIZE) (src.take m))
      writeiLoop ip (src.drop m).length (off + m) (src.drop m)) := by
  obtain ⟨n, hn⟩ : ∃ n, src.length = n + 1 :=
    Nat.exists_eq_succ_of_ne_zero fun h => hne (List.eq_nil_of_length_eq_zero h)
  have hle : (src.drop m).length ≤ n := by
    rw [List.length_drop]
    omega
  rw [hn, writeiLoop, if_neg hne, writeiLoop_fuel le_rfl hle]
  subst hm
  rfl

/-- **The loop of `writei` can be cut** at the start of a block. -/
theorem writeiLoop_append (hcut : xs = [] ∨ (off + xs.length) % 512 = 0) :
    writeiLoop ip (xs ++ ys).length off (xs ++ ys) = (do
      writeiLoop ip xs.length off xs
      writeiLoop ip ys.length (off + xs.length) ys) := by
  -- induction on a bound of the bytes before the cut: a round writes at least one of them
  obtain ⟨n, hn⟩ : ∃ n, xs.length ≤ n := ⟨_, le_rfl⟩
  induction n generalizing off xs with
  | zero =>
    obtain rfl : xs = [] := List.eq_nil_of_length_eq_zero (by omega)
    rfl
  | succ n ih =>
    by_cases hne : xs = []
    · subst hne
      rfl
    · have hmod := hcut.resolve_left hne
      have hpos : 0 < xs.length := List.length_pos_of_ne_nil hne
      obtain ⟨m, hm⟩ : ∃ m, m = 512 - off % 512 := ⟨_, rfl⟩
      have hle : m ≤ xs.length := by omega
      have hrest : writeiLoop ip (xs.drop m ++ ys).length (off + m) (xs.drop m ++ ys) = (do
          writeiLoop ip (xs.drop m).length (off + m) (xs.drop m)
          writeiLoop ip ys.length (off + m + (xs.drop m).length) ys) :=
        ih (Or.inr (by rw [List.length_drop]; omega)) (by rw [List.length_drop]; omega)
      rw [writeiLoop_round ip off (m := m) (by simp [hne]) (by rw [List.length_append]; omega),
        writeiLoop_round ip off (m := m) hne (by omega), List.take_append_of_le_length hle,
        List.drop_append_of_le_length hle, hrest]
      have hoff : off + m + (xs.drop m).length = off + xs.length := by
        rw [List.length_drop]
        omega
      simp only [bind_assoc, hoff]

/-- A write that ends with bytes `ys` of one block: the bytes before them, the walk to that block,
and its `log_write`. -/
theorem run_writeiLoop_last (md : Mode) (p ip off addr : ℕ) (xs ys : List UInt8) (s t u : Sys)
    (hcut : xs = [] ∨ (off + xs.length) % 512 = 0) (hne : ys ≠ [])
    (hlen : ys.length ≤ 512 - (off + xs.length) % 512)
    (hxs : Prog.run (exec md p) (writeiLoop ip xs.length off xs) s = .ok ((), t))
    (hwalk : Prog.run (exec md p) (bmap ip ((off + xs.length) / BSIZE)) t = .ok (addr, u))
    (hfull : md.limited → u.log.isFull = false) (hbusy : u.log.busy = true) :
    Prog.run (exec md p) (writeiLoop ip (xs ++ ys).length off (xs ++ ys)) s =
      .ok ((), u.logPut addr ((u.disk addr).blit ((off + xs.length) % BSIZE) ys)) := by
  have hround := writeiLoop_round ip (off + xs.length) (m := ys.length) hne (by omega)
  rw [List.take_length, List.drop_length] at hround
  rw [writeiLoop_append hcut, hround]
  refine (Prog.run_bind_ok _ hxs).trans ((Prog.run_bind_ok _ hwalk).trans ?_)
  refine (Prog.run_bind_ok _ (run_bread addr)).trans ?_
  exact (Prog.run_bind_ok _ (run_logWrite hfull hbusy)).trans rfl

/-- The blocks of a range before its last one. -/
theorem touched_before_last {n k : ℕ} (hn : 0 < n)
    (hk : off + k = max off ((off + n - 1) / 512 * 512)) :
    touched off k = (touched off n).erase ((off + n - 1) / 512) := by
  ext bn
  rw [Finset.mem_erase, mem_touched, mem_touched]
  constructor
  · rintro ⟨i, hi, rfl⟩
    exact ⟨by omega, i, by omega, rfl⟩
  · rintro ⟨hne, i, hi, rfl⟩
    exact ⟨i, by omega, rfl⟩

/-- The positions of a range, with the last block apart. -/
theorem span_before_last {i n k : ℕ} (hn : 0 < n)
    (hk : off + k = max off ((off + n - 1) / 512 * 512)) :
    span i off n = span i off k ∪ bmapPositions i ((off + n - 1) / 512) := by
  have htouched : touched off n = touched off k ∪ {(off + n - 1) / 512} := by
    rw [touched_before_last hn hk, Finset.union_comm, ← Finset.insert_eq, Finset.insert_erase]
    exact mem_touched.mpr ⟨n - 1, by omega, by congr 1; omega⟩
  rw [span, htouched, Finset.union_biUnion, Finset.singleton_biUnion]
  rfl

end Cut

section Real

variable {p ip off : ℕ} {s : Sys} {src : List UInt8}

/-- What a caller of `writei` on a file or a directory provides. -/
structure WriteiPre (s : Sys) (ip off n : ℕ) : Prop where
  own : Own s
  held : s.Held ip
  busy : s.log.busy = true
  type : (s.icache ip).din.type ≠ T_DEV
  off_le : off ≤ (s.icache ip).din.size
  end_le : off + n ≤ MAXFILE * BSIZE
  enough : (s.missing (span (s.icache ip).inum off n)).card ≤ s.free.length

/-- The loop of `writei` with a log that does not fill up. -/
theorem WriteiPre.loop (h : WriteiPre s ip off src.length) (p : ℕ) :
    ∃ t, Prog.run (exec .ideal p) (writeiLoop ip src.length off src) s = .ok ((), t) ∧
      Wrote s ip off src t ∧
      t.log.lh.length = sectorsWith s ip off src.length (touched off src.length) := by
  have hwp := wp_writeiLoop (p := p) h.own h.held h.busy le_rfl h.end_le
  obtain ⟨⟨⟩, t, hrun, hw⟩ := Prog.wp.exists_ok (Prog.wp_mono hwp (fun _ _ hw => hw)
    fun _ hroom => absurd hroom (by rw [NoRoom]; exact Nat.not_lt.mpr h.enough))
  refine ⟨t, hrun, hw, ?_⟩
  rw [length_lh_eq_card hw.1.own.toLogOk, hw.1.toFinset_lh
    (valid_of_mem_span (h.own.inum_lt ip h.held) h.end_le) (upClosed_span _ _ _)
    (leaves_subset_span _ _ _)]
  rfl

/-- Up to the last `log_write` of the loop, with a log that does not fill up: the bytes before the
last block, and the walk to it. -/
theorem WriteiPre.before_last {n k : ℕ} (h : WriteiPre s ip off n) (hn : 0 < n)
    (hk : off + k = max off ((off + n - 1) / 512 * 512)) (hsrc : src.length = k) (p : ℕ) :
    ∃ t addr u, Prog.run (exec .ideal p) (writeiLoop ip k off src) s = .ok ((), t) ∧
      Prog.run (exec .ideal p) (bmap ip ((off + n - 1) / 512)) t = .ok (addr, u) ∧
      u.log.busy = true ∧
      u.log.lh.length = sectorsWith s ip off n ((touched off n).erase ((off + n - 1) / BSIZE)) := by
  have hspan := span_before_last (i := (s.icache ip).inum) hn hk
  have hend := h.end_le
  have hlt : (off + n - 1) / 512 < MAXFILE := div_lt_maxfile (by omega)
  have hvalid : ∀ q ∈ bmapPositions (s.icache ip).inum ((off + n - 1) / 512),
      q.Valid s.sb.ninodes :=
    valid_of_mem_positions (h.own.inum_lt ip h.held) (validPos_pathOf hlt)
  have henough := h.enough
  rw [hspan] at henough
  have hpre : WriteiPre s ip off src.length := by
    rw [hsrc]
    refine ⟨h.own, h.held, h.busy, h.type, h.off_le, by omega, ?_⟩
    exact (Finset.card_le_card (Finset.filter_subset_filter _ Finset.subset_union_left)).trans
      henough
  obtain ⟨t, hrun, hw, -⟩ := hpre.loop p
  have e := hw.1
  rw [hsrc] at hrun e
  have hwalk := wp_bmap (p := p) e.own (e.held h.held) (e.busy.trans h.busy) hlt
  rw [e.inum] at hwalk
  obtain ⟨addr, u, hrun', hw'⟩ := Prog.wp.exists_ok (Prog.wp_mono hwalk (fun _ _ hw => hw)
    fun _ hno => absurd (e.free_lt hvalid hno) (Nat.not_lt.mpr henough))
  have e' := e.trans hw'.1
  rw [← e.missing_union hvalid, ← hspan, Finset.union_empty] at e'
  refine ⟨t, addr, u, hrun, hrun', e'.busy.trans h.busy, ?_⟩
  have hbefore := touched_before_last hn hk
  rw [length_lh_eq_card e'.own.toLogOk, e'.toFinset_lh
    (valid_of_mem_span (h.own.inum_lt ip h.held) hend) (upClosed_span _ _ _) ?_, leaves, hbefore]
  · rfl
  · refine (Finset.image_subset_image ?_).trans (leaves_subset_span _ _ _)
    rw [hbefore]
    exact Finset.erase_subset _ _

/-- **The loop of `writei` in the kernel** needs room in the log before its last `log_write`. -/
theorem WriteiPre.loop_real (h : WriteiPre s ip off src.length) (hne : src ≠ [])
    (hroom : sectorsWith s ip off src.length
      ((touched off src.length).erase ((off + src.length - 1) / BSIZE)) < s.log.capacity) :
    ∃ t, Prog.run (exec .real p) (writeiLoop ip src.length off src) s = .ok ((), t) ∧
      Wrote s ip off src t := by
  have hpos : 0 < src.length := List.length_pos_of_ne_nil hne
  obtain ⟨k, hk⟩ : ∃ k, off + k = max off ((off + src.length - 1) / 512 * 512) :=
    ⟨max off ((off + src.length - 1) / 512 * 512) - off, by omega⟩
  have hlen : (src.take k).length = k := by
    rw [List.length_take]
    omega
  obtain ⟨t, addr, u, hrun, hwalk, hbusy, hsectors⟩ := h.before_last hpos hk hlen p
  obtain ⟨-, hcap, hreal⟩ := run_real_of_ideal (only_writeiLoop ip k off (src.take k)) hrun
  obtain ⟨hle, hcap', hreal'⟩ := run_real_of_ideal (only_bmap ip _) hwalk
  have hdiv : (off + k) / 512 = (off + src.length - 1) / 512 := by omega
  -- both modes end with the same `log_write`
  have hloop : ∀ {md : Mode}, (md.limited → u.log.isFull = false) →
      Prog.run (exec md p) (writeiLoop ip k off (src.take k)) s = .ok ((), t) →
      Prog.run (exec md p) (bmap ip ((off + src.length - 1) / 512)) t = .ok (addr, u) →
      Prog.run (exec md p) (writeiLoop ip src.length off src) s =
        .ok ((), u.logPut addr ((u.disk addr).blit ((off + k) % 512) (src.drop k))) := by
    intro md hfull h1 h2
    have hlast := run_writeiLoop_last md p ip off addr (src.take k) (src.drop k) s t u
    rw [List.take_append_drop, hlen] at hlast
    refine hlast ?_ ?_ ?_ h1 ?_ hfull hbusy
    · by_cases hk0 : k = 0
      · exact Or.inl (by rw [hk0, List.take_zero])
      · right
        omega
    · rw [← List.length_pos_iff, List.length_drop]
      omega
    · rw [List.length_drop]
      omega
    · simp only [BSIZE, hdiv]
      exact h2
  obtain ⟨w, hideal, hw, -⟩ := h.loop p
  cases hideal.symm.trans (hloop (fun hl => by cases hl) hrun hwalk)
  refine ⟨_, hloop (fun _ => ?_) (hreal.resolve_right fun hc => by omega)
    (hreal'.resolve_right fun hc => by omega), hw⟩
  rw [Bool.eq_false_iff, Ne, u.log.isFull_iff]
  omega

/-- **`writei` writes everything when its sectors fit in the log.** -/
theorem run_writei_real (h : WriteiPre s ip off src.length)
    (hroom : src = [] ∨ sectorsBefore s ip off src.length < s.log.capacity) :
    ∃ t, Wrote s ip off src t ∧
      Prog.run (exec .real p) (writei ip src off) s =
        .ok (some src.length, t.resized ip (off + src.length)) := by
  have hoff := h.off_le
  -- a file that gets longer has its inode written back
  obtain ⟨t, hreal, hw, hfull⟩ : ∃ t,
      Prog.run (exec .real p) (writeiLoop ip src.length off src) s = .ok ((), t) ∧
        Wrote s ip off src t ∧
        ((s.icache ip).din.size < off + src.length → t.log.isFull = false) := by
    by_cases hgrow : (s.icache ip).din.size < off + src.length
    · have hroom := hroom.resolve_left fun hnil => by
        rw [hnil, List.length_nil] at hgrow
        omega
      rw [sectorsBefore, if_pos hgrow] at hroom
      obtain ⟨t, hrun, hw, hlen⟩ := h.loop p
      obtain ⟨-, hcap, hreal⟩ := run_real_of_ideal (only_writeiLoop ip src.length off src) hrun
      refine ⟨t, hreal.resolve_right fun hc => by omega, hw, fun _ => ?_⟩
      rw [Bool.eq_false_iff, Ne, t.log.isFull_iff]
      omega
    · rcases hroom with rfl | hroom
      · exact ⟨s, rfl, Wrote.nil h.own off, fun hc => absurd hc hgrow⟩
      · by_cases hne : src = []
        · subst hne
          exact ⟨s, rfl, Wrote.nil h.own off, fun hc => absurd hc hgrow⟩
        · rw [sectorsBefore, if_neg hgrow] at hroom
          obtain ⟨t, hreal, hw⟩ := h.loop_real (p := p) hne hroom
          exact ⟨t, hreal, hw, fun hc => absurd hc hgrow⟩
  have hsize := hw.1.size_eq
  refine ⟨t, hw, ?_⟩
  rw [run_writei h.type h.off_le h.end_le, hreal, Prog.ok_bind,
    run_writeiEnd (by omega) (hw.1.busy.trans h.busy)]
  exact fun _ hgrow => hfull (by omega)

/-- **A `writei` that makes the file longer and whose sectors do not fit** fails with "too big
a transaction", at the latest when it writes the inode back. -/
theorem run_writei_overflow (h : WriteiPre s ip off src.length)
    (hgrow : (s.icache ip).din.size < off + src.length)
    (hfull : s.log.capacity ≤ sectorsBefore s ip off src.length) :
    Prog.run (exec .real p) (writei ip src off) s = .error (.panic .tooBigTransaction) := by
  rw [sectorsBefore, if_pos hgrow] at hfull
  obtain ⟨t, hrun, hw, hlen⟩ := h.loop p
  obtain ⟨-, hcap, hreal⟩ := run_real_of_ideal (only_writeiLoop ip src.length off src) hrun
  rw [run_writei h.type h.off_le h.end_le]
  rcases hreal with he | ⟨he, -⟩
  · rw [he, Prog.ok_bind]
    have hsize := hw.1.size_eq
    have hoff := h.off_le
    have hf : t.log.isFull = true := t.log.isFull_iff.mpr (by omega)
    simp only [writeiEnd, Prog.run_bind, run_getInode, Prog.ok_bind]
    rw [if_pos ⟨by omega, by omega⟩]
    simp only [Prog.run_bind, run_setDinode, Prog.ok_bind, iupdate, run_getInode, run_bread]
    rw [run_logWrite_full rfl (by simpa using hf)]
    rfl
  · rw [he]
    rfl

/-- A `writei` that returns has written everything. -/
theorem wrote_of_run {r : Option ℕ} {u : Sys} (h : WriteiPre s ip off src.length)
    (hrun : Prog.run (exec .real p) (writei ip src off) s = .ok (r, u)) :
    r = some src.length ∧ ∃ t, Wrote s ip off src t ∧ u = t.resized ip (off + src.length) := by
  obtain ⟨t, hloop, hw, hlen⟩ := h.loop p
  by_cases hgrow : (s.icache ip).din.size < off + src.length
  · have hroom : sectorsBefore s ip off src.length < s.log.capacity := by
      by_contra hfull
      rw [run_writei_overflow h hgrow (not_lt.mp hfull)] at hrun
      cases hrun
    obtain ⟨t, hw, hrun'⟩ := run_writei_real (p := p) h (Or.inr hroom)
    cases hrun.symm.trans hrun'
    exact ⟨rfl, t, hw, rfl⟩
  · -- the inode is not written back, so the log may be full at the end
    obtain ⟨-, -, hreal⟩ := run_real_of_ideal (only_writeiLoop ip src.length off src) hloop
    have hsize := hw.1.size_eq
    rw [run_writei h.type h.off_le h.end_le] at hrun
    rcases hreal with hreal | ⟨hreal, -⟩
    · rw [hreal, Prog.ok_bind, run_writeiEnd (by omega) (hw.1.busy.trans h.busy) (by omega)] at hrun
      cases hrun
      exact ⟨rfl, t, hw, rfl⟩
    · rw [hreal] at hrun
      cases hrun

/-- **A file is an array of bytes.** In a state with the ownership invariant, `writei` at an offset
inside a file or directory all of whose blocks are mapped, with enough free data blocks and room in
the log for its last `log_write`, returns the number of bytes; the new size is the maximum; the
bytes of the range are `src` and the others are unchanged; a later `readi`, in the same transaction
or after its commit, returns the bytes of the array; and all other inodes and their contents are
unchanged. -/
theorem writei_array (h : Own s) (hip : s.Held ip) (hbusy : s.log.busy = true)
    (htype : (s.icache ip).din.type = T_FILE ∨ (s.icache ip).din.type = T_DIR)
    (hmap : s.Mapped ip) (hoff : off ≤ (s.icache ip).din.size)
    (hmax : off + src.length ≤ MAXFILE * BSIZE)
    (hfree : (s.missing (span (s.icache ip).inum off src.length)).card ≤ s.free.length)
    (hroom : src = [] ∨ sectorsBefore s ip off src.length < s.log.capacity) :
    ∃ t, Fs.run .real p (writei ip src off) s = .ok (some src.length, t) ∧
      (t.icache ip).din.size = max (s.icache ip).din.size (off + src.length) ∧
      (∀ k < (t.icache ip).din.size, t.contents (s.icache ip).inum k =
        if off ≤ k ∧ k < off + src.length then src.getD (k - off) 0
        else s.contents (s.icache ip).inum k) ∧
      (∀ i < s.sb.ninodes, i ≠ (s.icache ip).inum → t.dinode i = s.dinode i ∧
        ∀ k < MAXFILE * BSIZE, t.contents i k = s.contents i k) ∧
      ∀ u, u = t ∨ u = t.commit → ∀ off' n', off' ≤ (t.icache ip).din.size →
        off' + n' < 2 ^ 32 →
        Fs.run .real p (readi ip off' n') u =
          .ok (some (t.slice (s.icache ip).inum off' (min n' ((t.icache ip).din.size - off'))), u)
      := by
  have hdev : (s.icache ip).din.type ≠ T_DEV := by
    rcases htype with he | he <;> rw [he] <;> decide
  obtain ⟨t, ⟨e, hupd⟩, hrun⟩ :=
    run_writei_real (p := p) ⟨h, hip, hbusy, hdev, hoff, hmax, hfree⟩ hroom
  have hi := h.inum_lt ip hip
  have hlim : off + src.length < 2 ^ 32 := by
    rw [maxfile_eq] at hmax
    simp only [BSIZE] at hmax
    omega
  have hheld := e.held hip
  obtain ⟨addrs, hf⟩ := e.fields
  -- the state at the end, and the cache entry in it
  obtain ⟨u, hu⟩ : ∃ u, u = t.resized ip (off + src.length) := ⟨_, rfl⟩
  have hown : Own u := hu ▸ own_resized e.own hheld hlim
  have hentry : u.icache ip = { s.icache ip with
      din := (t.icache ip).din.setSize (max (t.icache ip).din.size (off + src.length)) } := by
    rw [hu, resized_icache, if_pos rfl, e.entry ip]
  have hsize : (u.icache ip).din.size = max (s.icache ip).din.size (off + src.length) := by
    rw [hentry, ← e.size_eq]
    rfl
  have hptr : ∀ q : Pos, q.Valid s.sb.ninodes → u.ptr q = t.ptr q := fun q hq =>
    hu ▸ ptr_resized e.own hheld hlim (by rwa [e.sb])
  have hcont : ∀ i < s.sb.ninodes, ∀ k < MAXFILE * BSIZE, u.contents i k =
      if i = (s.icache ip).inum ∧ off ≤ k ∧ k < off + src.length then src.getD (k - off) 0
      else s.contents i k := fun i hi k hk => by
    rw [hu, contents_resized e.own hheld hlim (by rwa [e.sb]) hk, hupd i hi k hk]
  have hmapped : ∀ bn, bn * BSIZE < (u.icache ip).din.size →
      bn < MAXFILE ∧ u.ptr (leaf (s.icache ip).inum bn) ≠ 0 := by
    intro bn hbn
    rw [hsize] at hbn
    obtain ⟨h1, h2⟩ := Wrote.mapped ⟨e, hupd⟩ h hip hmap hoff hmax hbn
    exact ⟨h1, by rwa [hptr _ (valid_leaf hi h1)]⟩
  have hle : ∀ k, k < (u.icache ip).din.size → k < MAXFILE * BSIZE := by
    intro k hk
    have := (hmapped (k / 512) (by simp only [BSIZE]; omega)).1
    rw [maxfile_eq] at this ⊢
    simp only [BSIZE]
    omega
  rw [← hu] at hrun
  refine ⟨u, hrun, hsize, fun k hk => ?_, fun i hi hne => ⟨?_, fun k hk => ?_⟩, ?_⟩
  · rw [hcont _ hi k (hle k hk)]
    simp
  · rw [hu, dinode_resized e.own hheld hlim (by rwa [e.sb]), if_neg (by rwa [e.inum]),
      e.inodes i hi hne]
  · rw [hcont i hi k hk, if_neg fun hc => hne hc.1]
  · have hdev' : (u.icache ip).din.type ≠ T_DEV := by
      rw [hentry, hf]
      exact hdev
    have hinum : (u.icache ip).inum = (s.icache ip).inum := by rw [hentry]
    have hheld' : u.Held ip := ⟨hip.lt, by rw [hentry]; exact hip.ref,
      by rw [hentry]; exact hip.valid⟩
    have hmap' : u.Mapped ip := fun bn hbn => by
      rw [hinum]
      exact hmapped bn hbn
    rw [← hinum]
    rintro w (rfl | rfl) off' n' hoff' hn'
    · exact run_readi hown.uniq hheld' hdev' hmap' hoff' hn'
    · exact run_readi_commit hown hheld' hdev' hmap' hoff' hn'

end Real

/-! ### How many sectors -/

/-- At most three sectors for every block that is allocated, and the data blocks. -/
theorem card_footprint_le (s : Sys) (Q D : Finset Pos) :
    (s.footprint Q D).card ≤ 3 * (s.missing Q).card + D.card := by
  have h1 : ((s.free.take (s.missing Q).card).toFinset).card ≤ (s.missing Q).card :=
    (List.toFinset_card_le _).trans (by simp)
  have h2 : ((s.free.take (s.missing Q).card).toFinset.image (BBLOCK · s.sb.ninodes)).card ≤
      (s.missing Q).card := Finset.card_image_le.trans h1
  have h3 : ((((s.missing Q).filter (·.path ≠ [])).image fun q => s.ptr q.parent).erase 0).card ≤
      (s.missing Q).card :=
    (Finset.card_erase_le.trans Finset.card_image_le).trans (Finset.card_filter_le _ _)
  have h4 : ((D.image s.ptr).erase 0).card ≤ D.card :=
    Finset.card_erase_le.trans Finset.card_image_le
  unfold Sys.footprint
  refine (Finset.card_union_le _ _).trans ?_
  have := Finset.card_union_le
    ((s.free.take (s.missing Q).card).toFinset ∪
      (s.free.take (s.missing Q).card).toFinset.image (BBLOCK · s.sb.ninodes))
    ((((s.missing Q).filter (·.path ≠ [])).image fun q => s.ptr q.parent).erase 0)
  have := Finset.card_union_le (s.free.take (s.missing Q).card).toFinset
    ((s.free.take (s.missing Q).card).toFinset.image (BBLOCK · s.sb.ninodes))
  omega

/-- The blocks that are allocated are all logged. -/
theorem le_card_footprint (s : Sys) (Q D : Finset Pos)
    (h : (s.missing Q).card ≤ s.free.length) :
    (s.missing Q).card ≤ (s.footprint Q D).card := by
  have hlen : ((s.free.take (s.missing Q).card).toFinset).card = (s.missing Q).card := by
    rw [List.toFinset_card_of_nodup (s.nodup_free.sublist (List.take_sublist _ _)),
      List.length_take, min_eq_left h]
  conv_lhs => rw [← hlen]
  refine Finset.card_le_card ?_
  unfold Sys.footprint
  intro x hx
  simp [hx]

/-- The blocks of a write from the start. -/
theorem touched_zero_mul (m : ℕ) : touched 0 (512 * m) = Finset.range m := by
  ext bn
  rw [mem_touched, Finset.mem_range]
  constructor
  · rintro ⟨k, hk, he⟩
    omega
  · intro hbn
    exact ⟨512 * bn, by omega, by omega⟩

theorem bmapPositions_direct {i bn : ℕ} (h : bn < 10) : bmapPositions i bn = {⟨i, bn, []⟩} := by
  simp [bmapPositions, pathOf, h, positions]

/-! ### On a small file system -/

/-- Ten blocks at once do not fit in the log: a write that meets all conditions, with free
blocks to spare, ends in a panic. -/
theorem writei_ten_blocks_panics :
    Own (smallDisk true 0 20) ∧ (smallDisk true 0 20).Held 0 ∧
      ((smallDisk true 0 20).icache 0).din.type = T_FILE ∧ (smallDisk true 0 20).Mapped 0 ∧
      (smallDisk true 0 20).log.busy = true ∧ (smallDisk true 0 20).log.lh = [] ∧
      ((smallDisk true 0 20).missing
        (span ((smallDisk true 0 20).icache 0).inum 0 (512 * 10))).card ≤
          (smallDisk true 0 20).free.length ∧
      Fs.run .real 0 (writei 0 (List.replicate (512 * 10) 0) 0) (smallDisk true 0 20) =
        .error (.panic .tooBigTransaction) := by
  have hown : Own (smallDisk true 0 20) := own_smallDisk (by omega) (by omega)
  have hheld : (smallDisk true 0 20).Held 0 := held_smallDisk.mpr rfl
  have hspan : span ((smallDisk true 0 20).icache 0).inum 0 (512 * 10) =
      (Finset.range 10).image fun bn => Pos.mk 1 bn [] := by
    rw [span, touched_zero_mul, ← Finset.biUnion_singleton]
    exact Finset.biUnion_congr rfl fun bn hbn => bmapPositions_direct (Finset.mem_range.mp hbn)
  have hmiss : (smallDisk true 0 20).missing
      (span ((smallDisk true 0 20).icache 0).inum 0 (512 * 10)) =
      (Finset.range 10).image fun bn => Pos.mk 1 bn [] := by
    rw [hspan, Sys.missing, Finset.filter_true_of_mem]
    intro q hq
    obtain ⟨bn, hbn, rfl⟩ := Finset.mem_image.mp hq
    rw [ptr_nil, addr_smallDisk (by omega) (by omega), if_neg (by omega)]
  have hcard : ((smallDisk true 0 20).missing
      (span ((smallDisk true 0 20).icache 0).inum 0 (512 * 10))).card = 10 := by
    rw [hmiss]
    decide
  have hfree : (smallDisk true 0 20).free.length = 20 := by
    rw [free_smallDisk (by omega)]
    simp
  have hlen : (List.replicate (512 * 10) (0 : UInt8)).length = 512 * 10 := List.length_replicate
  have henough : ((smallDisk true 0 20).missing
      (span ((smallDisk true 0 20).icache 0).inum 0 (512 * 10))).card ≤
        (smallDisk true 0 20).free.length := by
    rw [hcard, hfree]
    omega
  refine ⟨hown, hheld, rfl, fun bn hbn => absurd hbn (by simp [smallDisk, smallFile]), rfl, rfl,
    henough, ?_⟩
  refine run_writei_overflow ⟨hown, hheld, rfl, ?_, ?_, ?_, ?_⟩ ?_ ?_
  · exact (by decide : T_FILE ≠ T_DEV)
  · exact Nat.zero_le _
  · rw [hlen, maxfile_eq]
    simp only [BSIZE]
    omega
  · rw [hlen]
    exact henough
  · rw [hlen]
    exact (by decide : (smallFile 0).size < 0 + 512 * 10)
  · rw [hlen, sectorsBefore, sectorsWith]
    refine le_trans ?_ (Finset.card_le_card Finset.subset_union_right)
    refine le_trans ?_ (le_card_footprint _ _ _ henough)
    rw [hcard]
    decide

/-- A write that makes the file one block longer, and reading it back. -/
theorem writei_array_append :
    ∃ t, Fs.run .real 0 (writei 0 [7] 512) (smallDisk true 1 5) = .ok (some 1, t) ∧
      (t.icache 0).din.size = 513 ∧ t.contents 1 512 = 7 ∧
      Fs.run .real 0 (readi 0 512 100) t.commit = .ok (some (t.slice 1 512 1), t.commit) := by
  have hheld : (smallDisk true 1 5).Held 0 := held_smallDisk.mpr rfl
  have htouched : touched 512 1 = {1} := by decide
  have hleaf : (smallDisk true 1 5).ptr (leaf 1 0) ≠ 0 := by
    rw [ptr_smallDisk (by omega) (valid_leaf (by omega) (by rw [maxfile_eq]; omega))]
    decide
  have hspan : span 1 512 1 = {⟨1, 1, []⟩} := by
    rw [span, htouched, Finset.singleton_biUnion, bmapPositions_direct (by omega)]
  have hmiss : ((smallDisk true 1 5).missing (span 1 512 1)).card ≤ 1 := by
    rw [hspan]
    exact Finset.card_filter_le _ _
  have hleaves : (leaves 1 512 1).card ≤ 1 := by
    rw [leaves, htouched]
    exact Finset.card_image_le
  obtain ⟨t, hrun, hsize, hcont, -, hread⟩ := @writei_array 0 0 512 (smallDisk true 1 5) [7]
    (own_smallDisk (by omega) (by omega)) hheld rfl
    (Or.inl rfl)
    (by
      intro bn hbn
      have h0 : bn = 0 := by
        have : bn * 512 < 512 * 1 := hbn
        omega
      subst h0
      exact ⟨by rw [maxfile_eq]; omega, hleaf⟩)
    le_rfl (by rw [maxfile_eq]; decide)
    (by
      refine hmiss.trans ?_
      rw [free_smallDisk (by omega)]
      decide)
    (by
      have h1 := card_footprint_le (smallDisk true 1 5) (span 1 512 1) (leaves 1 512 1)
      have h2 : sectorsBefore (smallDisk true 1 5) 0 512 1 ≤
          ((smallDisk true 1 5).footprint (span 1 512 1) (leaves 1 512 1)).card := by
        have hgrow : ((smallDisk true 1 5).icache 0).din.size < 512 + 1 := by decide
        rw [sectorsBefore, if_pos hgrow, sectorsWith]
        refine (Finset.card_union_le _ _).trans ?_
        simp [smallDisk, leaves]
      have h3 : (smallDisk true 1 5).log.capacity = 9 := rfl
      rw [h3]
      exact Or.inr (lt_of_le_of_lt h2 (by omega)))
  have hsize' : (t.icache 0).din.size = 513 := hsize
  refine ⟨t, hrun, hsize', hcont 512 (by rw [hsize']; omega), ?_⟩
  have := hread t.commit (Or.inr rfl) 512 100 (by rw [hsize']; omega) (by omega)
  rw [hsize'] at this
  exact this

end Xv6
