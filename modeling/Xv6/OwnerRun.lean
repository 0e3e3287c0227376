import Xv6.FileArray
import Xv6.InodeCache
import Xv6.OutsideTrans
import Xv6.Transition

/-!
# Block Ownership over Runs

The ownership invariant holds throughout every run of calls of `bmap`, `writei` and `dirlink`
on any inodes, with transactions opened and committed and inodes brought into the cache in
between, as long as there are free data blocks for the positions that a call may have to allocate.
The bitmap that `mkfs` makes does not mark the log area, and `balloc` looks at all `sb.size` blocks,
so on a full disk it takes a block of the log: `log_area_allocated` is a run in which a commit then
overwrites the bitmap.

## Main results

* `wp_dirlink`: `dirlink` keeps the invariant, holes in the directory included.
* `blocks_owned_once`: **the invariant over runs.**
* `log_area_allocated`: a run that takes blocks of the log area and loses the bitmap.
-/

namespace Xv6

/-- There is a free data block for every missing position of `Q`. -/
def Sys.HasFree (s : Sys) (Q : Finset Pos) : Prop := (s.missing Q).card ≤ s.free.length

instance (s : Sys) (Q : Finset Pos) : Decidable (s.HasFree Q) := Nat.decLe _ _

theorem Sys.HasFree.not_noRoom {s : Sys} {P Q : Finset Pos} (h : s.HasFree Q) (hsub : P ⊆ Q) :
    ¬ NoRoom s P := by
  refine not_lt.mpr (le_trans ?_ h)
  exact Finset.card_le_card (Finset.filter_subset_filter _ hsub)

/-- After some of the positions have been allocated there are still enough blocks for the rest. -/
theorem Ext.hasFree {s t : Sys} {ip : ℕ} {P Q D : Finset Pos} (e : Ext s t ip (s.missing P) D)
    (hQ : ∀ q ∈ Q, q.Valid s.sb.ninodes) (hsub : P ⊆ Q) (h : s.HasFree Q) : t.HasFree Q := by
  have hcard := e.card_missing_union hQ
  have hfree := e.length_free
  rw [Finset.union_eq_right.mpr hsub] at hcard
  unfold Sys.HasFree at *
  omega

/-- A call that works on the inode in entry `ip`: the mode it is run in, whether a transaction is
open, the number and the size of the inode, and the positions that it may have to allocate. Outside
a transaction nothing can be allocated, and the mode does not matter. -/
structure Work where
  md : Mode
  open_ : Bool
  ip : ℕ
  inum : ℕ
  size : ℕ
  needs : Finset Pos
  mode : open_ = true → md = .ideal

section Keeps

variable {α β : Type} {p : ℕ} {w : Work} {s : Sys}

/-- The state in which code works on a locked inode. -/
structure Working (w : Work) (s : Sys) : Prop where
  own : Own s
  held : s.Held w.ip
  inum : (s.icache w.ip).inum = w.inum
  size : (s.icache w.ip).din.size = w.size
  busy : s.log.busy = w.open_
  valid : ∀ q ∈ w.needs, q.Valid s.sb.ninodes
  enough : w.open_ = true → s.HasFree w.needs

/-- The code keeps the invariant if it returns, and takes no block of the log area. -/
def Keeps (w : Work) (c : Fs α) : Prop :=
  ∀ p s, Working w s → Prog.wp (exec w.md p) c (fun _ t => Working w t)
    (fun e => w.open_ = true → e ≠ .excluded) s

theorem Keeps.bind {c : Fs α} {f : α → Fs β} (hc : Keeps w c) (hf : ∀ a, Keeps w (f a)) :
    Keeps w (c >>= f) :=
  fun p s h => Prog.wp.bind (hc p s h) (fun a t ht => hf a p t ht) fun _ he => he

theorem keeps_pure (a : α) : Keeps w (pure a : Fs α) := fun _ _ h => h

theorem keeps_fail {e : Fault} (he : e ≠ .excluded) : Keeps w (fail e : Fs α) :=
  fun _ _ _ _ => he

theorem keeps_bread (b : ℕ) : Keeps w (bread b) :=
  fun _ _ h => Prog.wp_of_ok (run_bread b) h

/-- Some of the needed positions have been allocated. -/
theorem Working.ext {t : Sys} {P D : Finset Pos} (h : Working w s)
    (e : Ext s t w.ip (s.missing P) D) (hsub : P ⊆ w.needs) : Working w t where
  own := e.own
  held := e.held h.held
  inum := (e.inum w.ip).trans h.inum
  size := e.size_eq.trans h.size
  busy := e.busy.trans h.busy
  valid q hq := e.sb ▸ h.valid q hq
  enough ho := e.hasFree h.valid hsub (h.enough ho)

/-! ### The functions of `fs.c` -/

/-- `bmap` of a block that is needed. -/
theorem keeps_bmap {bn : ℕ} (hbn : bn < MAXFILE → bmapPositions w.inum bn ⊆ w.needs) :
    Keeps w (bmap w.ip bn) := by
  intro p s h
  cases ho : w.open_ with
  | true =>
    by_cases hlt : bn < MAXFILE
    · have hsub := hbn hlt
      rw [w.mode ho]
      have hwp := wp_bmap (p := p) h.own h.held (h.busy.trans ho) hlt
      rw [h.inum] at hwp
      exact Prog.wp_mono hwp (fun _ _ hw => h.ext hw.1 hsub)
        fun _ hno => absurd hno ((h.enough ho).not_noRoom hsub)
    · rw [bmap_of_ge (by omega)]
      exact fun _ => by simp
  | false =>
    refine Prog.wp_mono (wp_bmap_closed (h.busy.trans ho) bn) ?_ fun _ _ => by simp
    rintro _ t ⟨rfl, -⟩
    exact h

/-- The loop of `readi` over blocks that are needed. -/
theorem keeps_readiLoop {fuel off n : ℕ} (hfuel : n ≤ fuel)
    (hQ : ∀ k < n, (off + k) / BSIZE < MAXFILE →
      bmapPositions w.inum ((off + k) / BSIZE) ⊆ w.needs) :
    Keeps w (readiLoop w.ip fuel off n) := by
  induction fuel generalizing off n with
  | zero => exact keeps_pure _
  | succ fuel ih =>
    rw [readiLoop]
    split_ifs with hn
    · exact keeps_pure _
    · have hbmap : Keeps w (bmap w.ip (off / BSIZE)) := keeps_bmap (hQ 0 (by omega))
      refine hbmap.bind fun _ => (keeps_bread _).bind fun _ =>
        (ih ?_ fun k hk => ?_).bind fun _ => keeps_pure _
      · simp only [BSIZE]
        omega
      · rw [Nat.add_assoc]
        exact hQ _ (by omega)

/-- A change of the cache that keeps the valid entries. -/
theorem Working.of_entries {t : Sys} (h : Working w s) (hdisk : t.disk = s.disk)
    (hlog : t.log = s.log) (hown : Own t) (he : SameEntries s t) : Working w t := by
  have hsb : t.sb = s.sb := Sys.sb_eq_of_disk (by rw [hdisk])
  have hdin := he.dinode h.own.uniq hown.uniq hdisk
  refine ⟨hown, (he.held _).mpr h.held, (he.inum _ h.held).trans h.inum, ?_, ?_, ?_, fun ho => ?_⟩
  · rw [he.din _ h.held]
    exact h.size
  · rw [hlog]
    exact h.busy
  · rw [hsb]
    exact h.valid
  · have hptr : ∀ q, t.ptr q = s.ptr q := fun q => by rw [Sys.ptr, Sys.ptr, hdisk, hdin]
    have hused : ∀ b, t.used b = s.used b := fun b => by rw [Sys.used, Sys.used, hdisk, hsb]
    have henough := h.enough ho
    simp only [Sys.HasFree, Sys.missing, Sys.free, hptr, hused, hlog] at henough ⊢
    exact henough

theorem Working.setBusy (h : Working w s) (busy : Bool) :
    Working w (s.setInode w.ip { s.icache w.ip with busy := busy }) :=
  h.of_entries rfl rfl (h.own.setBusy h.held.lt busy)
    (SameEntries.setInode Iff.rfl fun _ => ⟨rfl, rfl⟩)

/-- `iunlock` clears `I_BUSY`. -/
theorem keeps_iunlock : Keeps w (iunlock w.ip) := by
  intro p s h
  rw [Prog.wp, iunlock, run_perform]
  simp only [exec]
  split_ifs
  · exact fun _ => by simp
  · exact h.setBusy false

/-- `ilock` of an inode that has been read sets `I_BUSY`. -/
theorem keeps_ilock : Keeps w (ilock w.ip) := by
  intro p s h
  have hlock : Prog.wp (exec w.md p) (perform (.lock w.ip)) (fun _ t => Working w t)
      (fun e => w.open_ = true → e ≠ .excluded) s := by
    rw [Prog.wp, run_perform]
    simp only [exec]
    split_ifs
    · exact fun _ => by simp
    · exact fun _ => by simp
    · exact h.setBusy true
  refine Prog.wp.bind hlock (fun _ t ht => Prog.wp_bind_of_ok (run_getInode w.ip) ?_)
    fun _ he => he
  rw [if_pos ht.held.valid]
  exact ht

/-- A read from a device leaves the disk alone. -/
theorem keeps_devRead (n : ℕ) : Keeps w (perform (.devRead n)) := by
  intro p s h
  rw [Prog.wp, run_perform]
  simp only [exec]
  split_ifs
  · exact fun _ => by simp
  · have he : SameEntries s { s with input := s.input.drop n } :=
      ⟨fun _ => ⟨fun hh => { hh with }, fun hh => { hh with }⟩, fun _ _ => rfl, fun _ _ => rfl⟩
    exact h.of_entries rfl rfl (h.own.of_entries rfl rfl h.own.uniq he) he

/-- `readi` does not leave the file. -/
theorem keeps_readi {off n : ℕ} (hn : n < 2 ^ 32) (hQ : ∀ k < w.size, k / BSIZE < MAXFILE →
    bmapPositions w.inum (k / BSIZE) ⊆ w.needs) : Keeps w (readi w.ip off n) := by
  intro p s h
  refine Prog.wp_bind_of_ok (run_getInode w.ip) ?_
  have hloop : ∀ m, off + m ≤ w.size → Keeps w (readiLoop w.ip m off m) := fun m hm =>
    keeps_readiLoop le_rfl fun k hk => hQ _ (by omega)
  split_ifs with h1 h2 h3 h4
  · exact ((keeps_iunlock.bind fun _ => (keeps_devRead n).bind fun _ =>
      keeps_ilock.bind fun _ => keeps_pure _).bind fun _ => keeps_pure _) p s h
  · exact h
  · exact h
  all_goals
    rw [not_or, not_lt, not_lt] at h3
    rw [h.size] at *
    exact ((hloop _ (by omega)).bind fun _ => keeps_pure _) p s h

/-- `writei` on a file or a directory, in any state: nothing happens, or the range is written, or
there are not enough blocks for it. The argument `P` is what else is known of its loop. -/
theorem wp_writei_cases {md : Mode} {ip off : ℕ} {src : List UInt8} {P : Sys → Prop}
    (h : Own s) (hip : s.Held ip) (hmd : s.log.busy = true → md = .ideal)
    (hdev : (s.icache ip).din.type ≠ T_DEV) (hlen : src.length < 2 ^ 32)
    (hP : s.log.busy = true → off + src.length ≤ MAXFILE * BSIZE →
      Prog.wp (exec .ideal p) (writeiLoop ip src.length off src) (fun _ t => P t)
        (fun _ => True) s) :
    Prog.wp (exec md p) (writei ip src off)
      (fun _ u => u = s ∨ off ≤ (s.icache ip).din.size ∧ off + src.length ≤ MAXFILE * BSIZE ∧
        ∃ t, Wrote s ip off src t ∧ P t ∧ u = t.resized ip (off + src.length))
      (fun _ => s.log.busy = true → off ≤ (s.icache ip).din.size ∧
        off + src.length ≤ MAXFILE * BSIZE ∧ NoRoom s (span (s.icache ip).inum off src.length))
      s := by
  have hm : MAXFILE * BSIZE = 8524800 := by rw [maxfile_eq]; rfl
  by_cases hoff : off ≤ (s.icache ip).din.size ∧ off + src.length ≤ MAXFILE * BSIZE
  · cases hbusy : s.log.busy with
    | true =>
      obtain rfl := hmd hbusy
      have hwp := wp_writeiLoop (p := p) h hip hbusy le_rfl hoff.2
      cases hrun : Prog.run (exec .ideal p) (writeiLoop ip src.length off src) s with
      | error e =>
        refine Prog.wp_of_error (e := e) ?_ fun _ => ⟨hoff.1, hoff.2, hwp.error hrun⟩
        rw [run_writei hdev hoff.1 hoff.2, hrun]
        rfl
      | ok x =>
        have hw := hwp.ok hrun
        refine Prog.wp_of_ok (a := some src.length) (t := x.2.resized ip (off + src.length)) ?_
          (Or.inr ⟨hoff.1, hoff.2, x.2, hw, (hP hbusy hoff.2).ok hrun, rfl⟩)
        rw [run_writei hdev hoff.1 hoff.2, hrun]
        exact run_writeiEnd (by rw [hw.1.size_eq]; exact hoff.1) (hw.1.busy.trans hbusy)
          fun hl => by cases hl
    | false =>
      rw [Prog.wp, run_writei hdev hoff.1 hoff.2]
      cases src with
      | nil =>
        simp only [List.length_nil, writeiLoop, Prog.run_pure, Prog.ok_bind, writeiEnd,
          Prog.run_bind, run_getInode]
        rw [if_neg (by omega)]
        exact Or.inl rfl
      | cons a l =>
        obtain ⟨e, he⟩ : ∃ e, Prog.run (exec md p) (writeiLoop ip (l.length + 1) off
            (a :: l)) s = .error e := run_writeiLoop_closed hbusy (List.cons_ne_nil a l)
        rw [List.length_cons, he]
        rintro ⟨⟩
  · refine Prog.wp_bind_of_ok (run_getInode ip) ?_
    rw [if_neg hdev]
    split_ifs with h1 h2
    · exact Or.inl rfl
    · exact Or.inl rfl
    · exfalso
      rw [not_or, not_lt, not_lt] at h1
      rw [hm] at h2 hoff
      omega

/-- **`writei` keeps the invariant** if there are blocks for its range. -/
theorem Working.writei (h : Working w s) {src : List UInt8} {off : ℕ} (hlen : src.length < 2 ^ 32)
    (hQ : off ≤ w.size → off + src.length ≤ MAXFILE * BSIZE →
      span w.inum off src.length ⊆ w.needs) :
    Prog.wp (exec w.md p) (Xv6.writei w.ip src off) (fun _ t => Own t)
      (fun e => w.open_ = true → e ≠ .excluded) s := by
  by_cases hdev : (s.icache w.ip).din.type = T_DEV
  · refine Prog.wp_bind_of_ok (run_getInode w.ip) ?_
    rw [if_pos hdev]
    split_ifs
    · have hcons : Keeps w (consolewrite w.ip src) :=
        keeps_iunlock.bind fun _ => keeps_ilock.bind fun _ => keeps_pure _
      exact Prog.wp_mono ((hcons.bind fun _ => keeps_pure _) p s h) (fun _ _ ht => ht.own)
        fun _ he => he
    · exact h.own
  · have hm : MAXFILE * BSIZE = 8524800 := by rw [maxfile_eq]; rfl
    have hany : s.log.busy = true → off + src.length ≤ MAXFILE * BSIZE →
        Prog.wp (exec .ideal p) (writeiLoop w.ip src.length off src) (fun _ _ => True)
          (fun _ => True) s := fun hbusy hmax =>
      Prog.wp_mono (wp_writeiLoop h.own h.held hbusy le_rfl hmax) (fun _ _ _ => trivial)
        fun _ _ => trivial
    refine Prog.wp_mono (wp_writei_cases h.own h.held (fun hb => w.mode (h.busy.symm.trans hb))
      hdev hlen hany) ?_ fun e hno ho => ?_
    · rintro - u (rfl | ⟨-, hmax, t, ⟨e, -⟩, -, rfl⟩)
      · exact h.own
      · exact own_resized e.own (e.held h.held) (by omega)
    · obtain ⟨hoff, hmax, hno⟩ := hno (h.busy.trans ho)
      rw [h.inum] at hno
      rw [h.size] at hoff
      exact absurd hno ((h.enough ho).not_noRoom (hQ hoff hmax))

section Directory

variable (hQ : ∀ k < w.size, k / BSIZE < MAXFILE → bmapPositions w.inum (k / BSIZE) ⊆ w.needs)
include hQ

/-- A read of a directory entry. -/
theorem keeps_readDirent (e : Panic) (off : ℕ) : Keeps w (readDirent e w.ip off) := by
  have hread : Keeps w (readi w.ip off DIRENT) := keeps_readi (by decide) hQ
  refine hread.bind fun r => ?_
  cases r with
  | none => exact keeps_fail (by simp)
  | some de =>
    dsimp only
    split_ifs
    · exact keeps_pure _
    · exact keeps_fail (by simp)

/-- The loop of `dirlookup`. -/
theorem keeps_dirScan (name : List UInt8) (ks : List ℕ) : Keeps w (dirScan w.ip name ks) := by
  induction ks with
  | nil => exact keeps_pure _
  | cons k ks ih =>
    refine (keeps_readDirent hQ _ _).bind fun de => ?_
    split_ifs
    · exact ih
    · exact keeps_pure _
    · exact ih

/-- The loop of `dirlink`. -/
theorem keeps_findSlot (last : ℕ) (ks : List ℕ) : Keeps w (findSlot w.ip last ks) := by
  induction ks with
  | nil => exact keeps_pure _
  | cons k ks ih =>
    refine (keeps_readDirent hQ _ _).bind fun de => ?_
    split_ifs
    · exact keeps_pure _
    · exact ih

/-- `dirlookup` returns an entry of the cache that is not locked. -/
theorem wp_dirlookup (h : Working w s) (name : List UInt8) :
    Prog.wp (exec w.md p) (dirlookup w.ip name)
      (fun r t => Working w t ∧ ∀ x, r = some x → t.Spare x.1)
      (fun e => w.open_ = true → e ≠ .excluded) s := by
  refine Prog.wp_bind_of_ok (run_getInode w.ip) ?_
  split_ifs
  · exact fun _ => by simp
  · refine Prog.wp.bind (keeps_dirScan hQ name _ p s h) (fun r t ht => ?_) fun _ he => he
    cases r with
    | none => exact ⟨ht, by simp⟩
    | some y =>
      rw [Prog.wp_bind, Prog.wp, iget, run_perform]
      cases hx : exec w.md p (.iget y.2) t with
      | error e =>
        -- the cache may be full
        intro _ he
        simp only [exec] at hx
        split at hx
        · cases hx
        · split at hx
          · cases hx
          · cases hx
            cases he
      | ok x =>
        obtain ⟨hown, hsp, hlog, hdisk, he⟩ := ht.own.iget hx
        refine ⟨ht.of_entries hdisk hlog hown he, ?_⟩
        rintro z ⟨⟩
        exact hsp

end Directory

/-- A reference to spare is given back without freeing the inode. -/
theorem run_iput_spare {md : Mode} {a : ℕ} (h : s.Spare a) :
    Prog.run (exec md p) (iput a) s =
      .ok ((), s.setInode a { s.icache a with ref := (s.icache a).ref - 1 }) := by
  have hne : ¬ ((s.icache a).ref = 1 ∧ (s.icache a).valid = true ∧
      (s.icache a).din.nlink = 0) := by
    rintro ⟨h1, h2, -⟩
    rcases h.2.2 with h3 | h3
    · omega
    · rw [h2] at h3
      cases h3
  have henter : Prog.run (exec md p) (perform (.putEnter a)) s =
      .ok (false, s.setInode a { s.icache a with ref := (s.icache a).ref - 1 }) := by
    rw [run_perform]
    simp only [exec, if_neg hne]
  rw [iput, Prog.run_bind, henter]
  rfl

/-- **`dirlink` keeps the invariant** if there are blocks for the holes of the directory and for one
entry more. -/
theorem wp_dirlink (h : Working w s)
    (hneeds : w.needs = span w.inum 0 (min (w.size + DIRENT) (MAXFILE * BSIZE)))
    (name : List UInt8) (inum : ℕ) :
    Prog.wp (exec w.md p) (dirlink w.ip name inum) (fun _ t => Own t)
      (fun e => w.open_ = true → e ≠ .excluded) s := by
  have hm : MAXFILE * BSIZE = 8524800 := by rw [maxfile_eq]; rfl
  have hspan : ∀ k < min (w.size + DIRENT) (MAXFILE * BSIZE),
      bmapPositions w.inum (k / BSIZE) ⊆ w.needs := by
    intro k hk
    rw [hneeds]
    exact Finset.subset_biUnion_of_mem (bmapPositions w.inum)
      (mem_touched.mpr ⟨k, hk, by rw [Nat.zero_add]; rfl⟩)
  have hread : ∀ k < w.size, k / BSIZE < MAXFILE → bmapPositions w.inum (k / BSIZE) ⊆ w.needs := by
    intro k hk hlt
    refine hspan k ?_
    rw [hm]
    rw [maxfile_eq] at hlt
    simp only [BSIZE, DIRENT, DIRSIZ] at hlt ⊢
    omega
  refine Prog.wp.bind (wp_dirlookup hread h name) ?_ fun _ he => he
  rintro r t ⟨ht, hsp⟩
  cases r with
  | some x =>
    refine Prog.wp_bind_of_ok (run_iput_spare (hsp x rfl)) ?_
    exact ht.own.drop (hsp x rfl)
  | none =>
    refine Prog.wp_bind_of_ok (run_getInode w.ip) ?_
    refine Prog.wp.bind (keeps_findSlot hread _ _ p t ht) (fun off u hu => ?_) fun _ he => he
    have hlen := length_mkDirent name inum
    refine Prog.wp.bind (hu.writei (by rw [hlen]; omega) fun hoff hmax => ?_)
      (fun r v hv => ?_) fun _ he => he
    · -- the entry starts inside the directory or at its end
      intro q hq
      obtain ⟨bn, hbn, hq⟩ := Finset.mem_biUnion.mp hq
      obtain ⟨k, hk, rfl⟩ := mem_touched.mp hbn
      refine hspan (off + k) ?_ hq
      rw [hlen] at hk hmax
      simp only [DIRENT, DIRSIZ]
      omega
    · cases r with
      | none => exact fun _ => by simp
      | some m =>
        dsimp only
        split_ifs
        · exact hv
        · exact fun _ => by simp

end Keeps

/-! ### Modes -/

section Modes

variable {α : Type} {p : ℕ} {s t : Sys}

/-- What the kernel does is what it does with an unlimited log, unless it takes a block of the log
area. -/
theorem exec_ideal_or (p : ℕ) (o : Op) (s : Sys) (x : o.Ret × Sys)
    (h : exec .real p o s = .ok x) :
    exec .ideal p o s = .ok x ∨ exec .ideal p o s = .error .excluded := by
  cases o with
  | logWrite b data =>
    simp only [exec] at h ⊢
    split_ifs at h with h1 h2
    left
    rw [if_neg (by simp [Mode.ideal]), if_neg (by simpa using h2)]
    exact h
  | mark m =>
    cases m with
    | alloc b =>
      simp only [exec] at h ⊢
      split_ifs at h ⊢
      · exact Or.inr rfl
      · exact Or.inl h
    | free ip => exact Or.inl h
  | _ => exact Or.inl h

/-- A run of the kernel that takes no block of the log area is a run with an unlimited log. -/
theorem run_ideal_of_real {c : Fs α} {x : α × Sys} (h : Prog.run (exec .real p) c s = .ok x)
    (hne : Prog.run (exec .ideal p) c s ≠ .error .excluded) :
    Prog.run (exec .ideal p) c s = .ok x :=
  (Prog.run_ok_or (exec_ideal_or p) h).resolve_right hne

/-- What holds of a run with an unlimited log that takes no block of the log area, holds of a run
of the kernel. -/
theorem ok_of_wp_ideal {c : Fs α} {r : α} {Q : α → Sys → Prop} {E : Fault → Prop}
    (hwp : Prog.wp (exec .ideal p) c Q E s) (hE : ¬ E .excluded)
    (h : Prog.run (exec .real p) c s = .ok (r, t)) : Q r t :=
  hwp.ok (run_ideal_of_real h fun he => hE (hwp.error he))

end Modes

/-! ### Runs -/

/-- The calls of a run. -/
inductive Call
  | beginTrans
  | commitTrans
  | iget (inum : ℕ)
  | ilock (ip : ℕ)
  | iunlock (ip : ℕ)
  | bmap (ip bn : ℕ)
  | writei (ip : ℕ) (src : List UInt8) (off : ℕ)
  | dirlink (dp : ℕ) (name : List UInt8) (inum : ℕ)

namespace Call

/-- The code of a call. -/
def code : Call → Fs Unit
  | .beginTrans => perform .beginTrans
  | .commitTrans => perform .commitTrans
  | .iget inum => do let _ ← Xv6.iget inum
  | .ilock ip => Xv6.ilock ip
  | .iunlock ip => Xv6.iunlock ip
  | .bmap ip bn => do let _ ← Xv6.bmap ip bn
  | .writei ip src off => do let _ ← Xv6.writei ip src off
  | .dirlink dp name inum => do let _ ← Xv6.dirlink dp name inum

/-- What the callers see to: inodes that are worked on have been locked, so that their entries
are valid, and they are inodes of the disk. Lengths are 32-bit numbers. -/
def Pre (s : Sys) : Call → Prop
  | .ilock ip => ip < NINODE ∧ (s.icache ip).inum < s.sb.ninodes
  | .iunlock ip => ip < NINODE
  | .bmap ip _ => s.Held ip
  | .writei ip src _ => s.Held ip ∧ src.length < 2 ^ 32
  | .dirlink dp _ _ => s.Held dp
  | _ => True

/-- There are free data blocks for the positions that the call may have to allocate: those of the
path to the block, of the range that is written, or of the directory and one entry more. -/
def HasRoom (s : Sys) : Call → Prop
  | .bmap ip bn => bn < MAXFILE → s.HasFree (bmapPositions (s.icache ip).inum bn)
  | .writei ip src off => off + src.length ≤ MAXFILE * BSIZE →
      s.HasFree (span (s.icache ip).inum off src.length)
  | .dirlink dp _ _ => s.HasFree (span (s.icache dp).inum 0
      (min ((s.icache dp).din.size + DIRENT) (MAXFILE * BSIZE)))
  | _ => True

end Call

/-- Calls by process `p`, from any state with the ownership invariant. -/
def fileCalls (p : ℕ) : Transition.System Sys Call where
  init := Own
  step s c t := c.Pre s ∧ Fs.run .real p c.code s = .ok ((), t)

section Runs

variable {p : ℕ} {s t : Sys}

/-- The flag of the log and its owner do not matter. -/
theorem Own.of_log (h : Own s) (hdisk : t.disk = s.disk) (hic : t.icache = s.icache)
    (hstart : t.log.start = s.log.start) (hlh : t.log.lh = s.log.lh) : Own t := by
  have hsb : t.sb = s.sb := Sys.sb_eq_of_disk (by rw [hdisk])
  have hdin : ∀ i, t.dinode i = s.dinode i := fun i => Sys.dinode_congr_disk hic (by rw [hdisk])
  refine h.congr hsb hstart (h.toCacheOk.congr hic hsb) ⟨?_, ?_, ?_⟩ (fun x hx => ?_) fun q hq => ?_
  · rw [hlh]
    exact h.nodup
  · rw [hlh, hstart]
    exact h.lt
  · rw [hlh, hstart, hdisk]
    exact h.slot
  · exact Sys.used_congr hsb (fun _ _ => by rw [hdisk]) hx
  · exact ptr_congr (fun i _ r _ => by rw [hdin i]) (fun _ _ _ _ => by rw [hdisk]) hq

theorem setValid_setDin {ip : ℕ} {d : Dinode} :
    (s.setDin ip d).setInode ip { (s.setDin ip d).icache ip with valid := true } =
      s.setInode ip { s.icache ip with din := d, valid := true } := by
  simp [Sys.setDin, Sys.setInode]

/-- `ilock` keeps the ownership, also where it reads the inode. -/
theorem own_ilock {ip : ℕ} (h : Own s) (hip : ip < NINODE)
    (hi : (s.icache ip).inum < s.sb.ninodes)
    (hrun : Prog.run (exec .real p) (ilock ip) s = .ok ((), t)) : Own t := by
  have hlock : Prog.wp (exec .real p) (perform (.lock ip)) (fun _ u => Own u ∧
      0 < (u.icache ip).ref ∧ (u.icache ip).inum < u.sb.ninodes) (fun _ => True) s := by
    rw [Prog.wp, run_perform]
    simp only [exec]
    split_ifs with h1 h2
    · trivial
    · trivial
    · refine ⟨h.setBusy hip true, ?_, ?_⟩ <;> rw [setInode_icache, if_pos rfl]
      · show 0 < (s.icache ip).ref
        omega
      · exact hi
  refine Prog.wp.ok (Q := fun _ t => Own t) (E := fun _ => True) ?_ hrun
  refine Prog.wp.bind hlock ?_ fun _ _ => trivial
  rintro - u ⟨hu, href, hin⟩
  refine Prog.wp_bind_of_ok (run_getInode ip) ?_
  split_ifs with hv
  · exact hu
  · refine Prog.wp_bind_of_ok (run_bread _) (Prog.wp_bind_of_ok (run_setDinode _ _)
      (Prog.wp_bind_of_ok (run_perform _) ?_))
    have hload := hu.load hip href (by simpa using hv) hin
    rw [setValid_setDin]
    split_ifs
    · trivial
    · exact hload

/-- A call that works on a locked inode, and has blocks for the positions `Q`. -/
theorem own_of_working {α : Type} {c : Fs α} {ip : ℕ} {Q : Finset Pos} (h : Own s) (hip : s.Held ip)
    (hQ : ∀ q ∈ Q, q.Valid s.sb.ninodes) (henough : s.HasFree Q)
    (hwp : ∀ w : Work, Working w s → w.ip = ip → w.inum = (s.icache ip).inum →
      w.size = (s.icache ip).din.size → w.needs = Q →
      Prog.wp (exec w.md p) c (fun _ t => Own t) (fun e => w.open_ = true → e ≠ .excluded) s)
    (hrun : Prog.run (exec .real p) (do let _ ← c) s = .ok ((), t)) : Own t := by
  obtain ⟨r, hrun⟩ : ∃ r, Prog.run (exec .real p) c s = .ok (r, t) := by
    obtain ⟨⟨r, u⟩, hr, hu⟩ := Prog.bind_eq_ok.mp ((Prog.run_bind _ _ _).symm.trans hrun)
    cases hu
    exact ⟨r, hr⟩
  have hmode : ∀ md, (s.log.busy = true → md = .ideal) → Prog.wp (exec md p) c (fun _ t => Own t)
      (fun e => s.log.busy = true → e ≠ .excluded) s := fun md hmd =>
    hwp ⟨md, s.log.busy, ip, (s.icache ip).inum, (s.icache ip).din.size, Q, hmd⟩
      ⟨h, hip, rfl, rfl, rfl, hQ, fun _ => henough⟩ rfl rfl rfl rfl
  cases hbusy : s.log.busy with
  | true => exact ok_of_wp_ideal (hmode .ideal fun _ => rfl) (fun he => he hbusy rfl) hrun
  | false => exact (hmode .real (by simp [hbusy])).ok hrun

/-- **One call keeps the invariant**, if there are blocks for it. -/
theorem own_step {c : Call} (h : Own s) (hstep : (fileCalls p).step s c t)
    (hroom : c.HasRoom s) : Own t := by
  obtain ⟨hpre, hrun⟩ := hstep
  cases c with
  | beginTrans =>
    have hexec : exec .real p .beginTrans s = .ok ((), t) := (run_perform _).symm.trans hrun
    simp only [exec] at hexec
    split_ifs at hexec
    cases hexec
    exact h.of_log rfl rfl rfl rfl
  | commitTrans =>
    have hexec : exec .real p .commitTrans s = .ok ((), t) := (run_perform _).symm.trans hrun
    cases hexec
    exact h.commit
  | iget inum =>
    have hwp : Prog.wp (exec .real p) (Call.iget inum).code (fun _ t => Own t)
        (fun _ => True) s := by
      rw [Call.code, Prog.wp_bind, Prog.wp, iget, run_perform]
      cases hx : exec .real p (.iget inum) s with
      | error e => trivial
      | ok x => exact (h.iget hx).1
    exact hwp.ok hrun
  | ilock ip => exact own_ilock h hpre.1 hpre.2 hrun
  | iunlock ip =>
    have hexec : exec .real p (.unlock ip) s = .ok ((), t) := (run_perform _).symm.trans hrun
    simp only [exec] at hexec
    split_ifs at hexec
    cases hexec
    exact h.setBusy hpre false
  | bmap ip bn =>
    by_cases hbn : bn < MAXFILE
    · refine own_of_working h hpre (valid_of_mem_positions (h.inum_lt ip hpre)
        (validPos_pathOf hbn)) (hroom hbn) (fun w hw hip hi _ hQ => ?_) hrun
      have hkeep : Keeps w (Xv6.bmap w.ip bn) := keeps_bmap fun _ => by rw [hQ, hi]; rfl
      rw [← hip]
      exact Prog.wp_mono (hkeep p s hw) (fun _ _ ht => ht.own) fun _ he => he
    · rw [Call.code, bmap_of_ge (not_lt.mp hbn)] at hrun
      cases hrun
  | writei ip src off =>
    obtain ⟨hip, hlen⟩ := hpre
    by_cases hmax : off + src.length ≤ MAXFILE * BSIZE
    · refine own_of_working h hip (valid_of_mem_span (h.inum_lt ip hip) hmax) (hroom hmax)
        (fun w hw hip hi _ hQ => ?_) hrun
      rw [← hip]
      exact hw.writei hlen fun _ _ => by rw [hQ, hi]
    · refine own_of_working (Q := ∅) h hip (by simp) (by simp [Sys.HasFree, Sys.missing])
        (fun w hw hip hi _ hQ => ?_) hrun
      rw [← hip]
      exact hw.writei hlen fun _ hle => absurd hle hmax
  | dirlink dp name inum =>
    refine own_of_working h hpre (valid_of_mem_span (h.inum_lt dp hpre) ?_) hroom
      (fun w hw hip hi hsize hQ => ?_) hrun
    · rw [Nat.zero_add]
      exact min_le_right _ _
    · rw [← hip]
      exact wp_dirlink hw (by rw [hQ, hi, hsize]) name inum

/-- **The ownership invariant holds in every state of a run** that has blocks for its calls. -/
theorem own_reachable (hreach : ((fileCalls p).restrict fun s c => c.HasRoom s).Reachable s) :
    Own s := by
  refine hreach.invariant (I := Own) (fun _ h => h) fun s c t h hstep => ?_
  exact own_step h hstep.1 hstep.2

/-- A `balloc` with a free data block turns one bit of the bitmap from free to used and returns a
block without pointers. -/
theorem balloc_one_bit {b : ℕ} (hlay : s.Layout) (hmeta : ∀ x < s.sb.metaEnd, s.used x = true)
    (hfree : s.free ≠ []) (hrun : Fs.run .real p balloc s = .ok (b, t)) :
    s.used b = false ∧ (∀ x < s.sb.size, t.used x = if x = b then true else s.used x) ∧
      ∀ j, (t.disk b).word j = 0 := by
  cases hbusy : s.log.busy with
  | false =>
    obtain ⟨e, he⟩ : ∃ e, Prog.run (exec .real p) balloc s = .error e := run_balloc_closed hbusy
    rw [Fs.run, he] at hrun
    cases hrun
  | true =>
    obtain ⟨x, l, hl⟩ := List.exists_cons_of_ne_nil hfree
    have hideal : Prog.run (exec .ideal p) balloc s = .ok (x, s.allocBlock x) :=
      run_balloc_cons rfl hbusy hlay hl
    have hsame := run_ideal_of_real hrun (by rw [hideal]; rintro ⟨⟩)
    cases hideal.symm.trans hsame
    obtain ⟨hlt, hu⟩ := Sys.mem_free.mp (hl ▸ List.mem_cons_self : b ∈ s.free)
    have hge : s.sb.metaEnd ≤ b := by
      by_contra hlt'
      rw [hmeta b (by omega)] at hu
      cases hu
    refine ⟨hu, fun x hx => Sys.used_allocBlock hlay hge hx, fun j => ?_⟩
    rw [Sys.disk_allocBlock (by omega), if_pos rfl, Block.word_zero]

/-- **Block ownership.** In every state of every run of `bmap`, `writei` and `dirlink` calls with
free data blocks for the positions that they may have to allocate, each block number is at most at
one position of one inode, over all roles, and every block that is referred to is marked as used.
And every `balloc`, in whatever state of the disk between that has a free data block, turns exactly
one bit from free to used and returns a block without pointers. -/
theorem blocks_owned_once
    (hreach : ((fileCalls p).restrict fun s c => c.HasRoom s).Reachable s) :
    (∀ q q' : Pos, q.Valid s.sb.ninodes → q'.Valid s.sb.ninodes → s.ptr q ≠ 0 →
      s.ptr q = s.ptr q' → q = q') ∧
    (∀ q : Pos, q.Valid s.sb.ninodes → s.ptr q ≠ 0 → s.used (s.ptr q) = true) ∧
    ∀ u, u.sb = s.sb → u.log.start = s.log.start → (∀ x < u.sb.metaEnd, u.used x = true) →
      u.free ≠ [] → ∀ b t, Fs.run .real p balloc u = .ok (b, t) →
        u.used b = false ∧ (∀ x < u.sb.size, t.used x = if x = b then true else u.used x) ∧
        ∀ j, (t.disk b).word j = 0 := by
  have hown := own_reachable hreach
  refine ⟨hown.inj, hown.ptr_used, fun u hsb hstart hmeta hfree b t hrun => ?_⟩
  exact balloc_one_bit ⟨by rw [hsb, hstart]; exact hown.meta_le,
    by rw [hsb, hstart]; exact hown.start_le⟩ hmeta hfree hrun

/-- A `bmap` as a step of a run, when there are blocks for its path. -/
theorem reachable_bmap {ip bn b : ℕ}
    (h : ((fileCalls p).restrict fun s c => c.HasRoom s).Reachable s) (hip : s.Held ip)
    (hroom : s.HasFree (bmapPositions (s.icache ip).inum bn))
    (hrun : Fs.run .real p (bmap ip bn) s = .ok (b, t)) :
    ((fileCalls p).restrict fun s c => c.HasRoom s).Reachable t :=
  .step (l := .bmap ip bn) h ⟨⟨hip, Prog.run_bind_ok _ hrun⟩, fun _ => hroom⟩

/-- The invariant at work: a file of three blocks gets a fourth one, block 8, and no other
position of any inode refers to it. -/
theorem blocks_owned_once_append : ∃ t,
    ((fileCalls 0).restrict fun s c => c.HasRoom s).Reachable t ∧ t.ptr ⟨1, 3, []⟩ = 8 ∧
    t.used 8 = true ∧ ∀ q : Pos, q.Valid t.sb.ninodes → t.ptr q = 8 → q = ⟨1, 3, []⟩ := by
  have hinit : Own (smallDisk true 3 1) := own_smallDisk (by omega) (by omega)
  have hreal : Prog.check (fun _ t => decide (1 < t.sb.ninodes ∧ t.ptr ⟨1, 3, []⟩ = 8))
      (Fs.run .real 0 (bmap 0 3) (smallDisk true 3 1)) = true := by decide +kernel
  have hroom : (smallDisk true 3 1).HasFree (bmapPositions 1 3) := by decide +kernel
  obtain ⟨b, t, hrun, ht⟩ := Prog.exists_of_check hreal
  obtain ⟨hn, hptr⟩ := of_decide_eq_true ht
  have hreach := reachable_bmap (.init hinit) (held_smallDisk.mpr rfl) hroom hrun
  have hv : Pos.Valid t.sb.ninodes ⟨1, 3, []⟩ := ⟨hn, by decide, by decide, by decide⟩
  obtain ⟨hinj, hused, -⟩ := blocks_owned_once hreach
  refine ⟨t, hreach, hptr, ?_, fun q hq h8 => ?_⟩
  · rw [← hptr]
    exact hused _ hv (by omega)
  · exact hinj q _ hq hv (by omega) (h8.trans hptr.symm)

/-- **The log area is not marked as used.** On a disk without free data blocks, `bmap` allocates
the block of the log header as an indirect block and the first slot of the log as a data block.
Zeroing the latter clears the copy of the bitmap block in it, which the commit then installs: the
blocks of the file are free again. -/
theorem log_area_allocated : ∃ t, (fileCalls 0).Reachable t ∧
    ∃ q : Pos, q.Valid t.sb.ninodes ∧ t.ptr q ≠ 0 ∧ t.used (t.ptr q) = false := by
  have hinit : (fileCalls 0).Reachable (smallDisk false 10 0) :=
    .init (own_smallDisk (by omega) (by omega))
  have hbegin : (fileCalls 0).Reachable (smallDisk true 10 0) :=
    .step (l := .beginTrans) hinit ⟨trivial, rfl⟩
  have hreal : Prog.check (fun _ t => decide (1 < t.commit.sb.ninodes ∧
      t.commit.ptr ⟨1, 0, []⟩ ≠ 0 ∧ t.commit.used (t.commit.ptr ⟨1, 0, []⟩) = false))
      (Fs.run .real 0 (bmap 0 10) (smallDisk true 10 0)) = true := by decide +kernel
  obtain ⟨b, t, hrun, ht⟩ := Prog.exists_of_check hreal
  obtain ⟨h1, h2, h3⟩ := of_decide_eq_true ht
  have hbmap : (fileCalls 0).Reachable t :=
    .step (l := .bmap 0 10) hbegin ⟨held_smallDisk.mpr rfl, Prog.run_bind_ok _ hrun⟩
  exact ⟨t.commit, .step (l := .commitTrans) hbmap ⟨trivial, rfl⟩, ⟨1, 0, []⟩,
    ⟨h1, by decide, by decide, by decide⟩, h2, h3⟩

end Runs

end Xv6
