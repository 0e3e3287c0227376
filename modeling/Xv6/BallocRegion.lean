import Xv6.MkfsWellFormed
import Xv6.Trunc

/-!
# The Region of the Block Allocator

`balloc` scans the bitmap bits of all `sb.size` blocks, `mkfs` marks the blocks below its counter
`usedblocks`, and `initlog` puts the log into the last `nlog` blocks, which nobody marks. So the
blocks that `balloc` returns are data blocks as long as there is one; after that they are blocks
of the log.

## Main results

* `balloc_result`: what `balloc` returns, for every bitmap.
* `balloc_in_region`: **`balloc` returns a data block if and only if there is a free one**, in
  every run of allocations and frees that starts from an image of `mkfs`.
* `balloc_in_region_first`: the first allocation on an image.
* `balloc_returns_log`: allocating until the data blocks are used up, and once more.
-/

namespace Xv6

open Mkfs (metablocks mounted)

/-! ### Runs -/

/-- The calls of a run on the block allocator. -/
inductive BlockCall
  | beginTrans
  | commitTrans
  /-- `balloc`, which returns `b` -/
  | balloc (b : ℕ)
  | bfree (b : ℕ)

/-- Runs of allocations and of frees of allocated data blocks, by any processes, from an image
that `mkfs` makes. -/
def blockCalls : Transition.System Sys (ℕ × BlockCall) where
  init s := ∃ junk files img, Mkfs.main junk files = .ok img ∧ s = mounted img
  step s l t :=
    match l with
    | (p, .beginTrans) => Fs.run .real p (perform .beginTrans) s = .ok ((), t)
    | (p, .commitTrans) => Fs.run .real p (perform .commitTrans) s = .ok ((), t)
    | (p, .balloc b) => Fs.run .real p balloc s = .ok (b, t)
    | (p, .bfree b) => (metablocks ≤ b ∧ b < s.sb.size ∧ s.used b = true) ∧
        Fs.run .real p (bfree b) s = .ok ((), t)

/-- The condition on a step: the superblock is the one that `mkfs` wrote first, and `balloc` is
called with a free data block left. -/
def DataFree (s : Sys) : ℕ × BlockCall → Prop
  | (_, .balloc _) => s.sb = Mkfs.sb ∧ s.free ≠ []
  | _ => s.sb = Mkfs.sb

section Runs

variable {p b : ℕ} {s t : Sys}

/-! ### One call -/

/-- The kernel with a log that never fills up. -/
def Mode.unlimited : Mode := ⟨false, false⟩

/-- What returns with a bounded log returns with an unlimited one. -/
theorem exec_unlimited_of_real (p : ℕ) (o : Op) (s : Sys) (x : o.Ret × Sys)
    (h : exec .real p o s = .ok x) : exec .unlimited p o s = .ok x := by
  cases o with
  | logWrite b data =>
    simp only [exec] at h ⊢
    split_ifs at h with h1 h2
    rw [if_neg (by simp [Mode.unlimited]), if_neg (by simpa using h2)]
    exact h
  | _ => exact h

/-- **What `balloc` returns**: the first block whose bit is clear. -/
theorem balloc_result (h : Fs.run .real p balloc s = .ok (b, t)) :
    (List.range s.sb.size).find? (fun b => !s.used b) = some b ∧ t = s.allocBlock b := by
  cases hbusy : s.log.busy with
  | false =>
    obtain ⟨e, he⟩ : ∃ e, Fs.run .real p balloc s = .error e := run_balloc_closed hbusy
    rw [he] at h
    cases h
  | true =>
    have hrun : Fs.run .unlimited p balloc s = .ok (b, t) :=
      Prog.run_mono (exec_unlimited_of_real p) h
    rw [Fs.run, run_balloc rfl hbusy] at hrun
    cases hf : (List.range s.sb.size).find? fun b => !s.used b with
    | none =>
      rw [hf] at hrun
      cases hrun
    | some b' =>
      rw [hf, ballocAt, if_neg (by simp [Mode.unlimited])] at hrun
      cases hrun
      exact ⟨rfl, rfl⟩

/-- What `bfree` has done when it returns. -/
theorem bfree_result (hused : s.used b = true) (h : Fs.run .real p (bfree b) s = .ok ((), t)) :
    t = s.freeBlock b := by
  cases hbusy : s.log.busy with
  | false =>
    obtain ⟨e, he⟩ : ∃ e, Fs.run .real p (bfree b) s = .error e := run_bfree_closed hbusy
    rw [he] at h
    cases h
  | true =>
    have hrun : Fs.run .unlimited p (bfree b) s = .ok ((), t) :=
      Prog.run_mono (exec_unlimited_of_real p) h
    rw [Fs.run, run_bfree (by simp [Mode.unlimited]) hbusy hused] at hrun
    cases hrun
    rfl

/-! ### The invariant -/

/-- The metadata blocks are marked, and the log has blocks of the data region only. -/
structure Region (s : Sys) : Prop where
  sb : s.sb = Mkfs.sb
  start : s.log.start = s.sb.size - s.sb.nlog
  marked : ∀ b < metablocks, s.used b = true
  logOk : LogOk s

theorem Region.start_eq (h : Region s) : s.log.start = 25035 := by
  rw [h.start, h.sb]
  rfl

theorem Region.size_eq (h : Region s) : s.sb.size = 25045 := by
  rw [h.sb]
  rfl

theorem Region.metaEnd_eq (h : Region s) : s.sb.metaEnd = metablocks := by
  rw [h.sb]
  rfl

/-- A disk with the layout of `mkfs`. -/
theorem Region.layout (h : Region s) : s.Layout := by
  have h1 := h.start_eq
  have h2 := h.size_eq
  have h3 : metablocks = 35 := rfl
  refine ⟨?_, by omega⟩
  rw [h.metaEnd_eq]
  omega

/-- An image satisfies the invariant, whatever files it is made for, unless its superblock has
been overwritten. -/
theorem region_mounted {junk : ℕ → ℕ → ℕ} {files : List Mkfs.HostFile} {img : Disk}
    (hmain : Mkfs.main junk files = .ok img) (hsb : (mounted img).sb = Mkfs.sb) :
    Region (mounted img) := by
  obtain ⟨m, hbuild, hused, rfl⟩ := Mkfs.main_cases hmain
  obtain ⟨heq, hge⟩ := Mkfs.usedblocks_build hbuild
  refine ⟨hsb, rfl, fun b hb => ?_, List.nodup_nil, ?_, ?_⟩
  · have hb : b < 35 := hb
    have hblk : BBLOCK b Mkfs.sb.ninodes = 28 := by
      rw [bblock_eq]
      simp only [Mkfs.sb, Mkfs.ninodes]
      omega
    have hmod : b % BPB = b := by
      simp only [BPB, BSIZE]
      omega
    have hdisk : (mounted (Mkfs.finish m)).disk = Mkfs.finish m := rfl
    rw [Sys.used, hsb, hblk, hmod, hdisk, Mkfs.finish, Function.update_self,
      Block.bit_usedPrefix (by omega) (by omega), decide_eq_true_eq]
    omega
  · intro x hx
    cases hx
  · intro i x hx
    cases hx

/-- **The block that `balloc` returns is a data block if and only if there is a free one.** -/
theorem Region.balloc_iff (h : Region s) (hrun : Fs.run .real p balloc s = .ok (b, t)) :
    (metablocks ≤ b ∧ b < s.sb.size - s.sb.nlog) ↔ s.free ≠ [] := by
  obtain ⟨hfind, -⟩ := balloc_result hrun
  have hunused : s.used b = false := by simpa using List.find?_some hfind
  rw [← h.start]
  constructor
  · rintro ⟨-, hlt⟩ hnil
    have := Sys.mem_free.mpr ⟨hlt, hunused⟩
    rw [hnil] at this
    cases this
  · intro hne
    have hge : metablocks ≤ b := by
      by_contra hlt
      rw [h.marked b (by omega)] at hunused
      cases hunused
    refine ⟨hge, ?_⟩
    -- a free data block comes before the blocks of the log
    obtain ⟨x, hx⟩ := List.exists_mem_of_ne_nil _ hne
    obtain ⟨hlt, hx⟩ := Sys.mem_free.mp hx
    obtain ⟨-, -, hmin⟩ := List.find?_range_eq_some.mp hfind
    by_contra hle
    have := hmin x (by omega)
    simp [hx] at this

/-- The log sector of a bit of the bitmap is below the log area. -/
theorem Region.bblock_lt (h : Region s) (hb : b < s.sb.size) :
    BBLOCK b s.sb.ninodes < s.log.start :=
  (Superblock.bblock_lt_metaEnd hb).trans_le h.layout.meta_le

/-- A data block is allocated. -/
theorem Region.allocBlock (h : Region s) (hb : metablocks ≤ b) (hlt : b < s.log.start) :
    Region (s.allocBlock b) := by
  have hge : s.sb.metaEnd ≤ b := h.metaEnd_eq ▸ hb
  have hsb := Sys.sb_allocBlock h.layout hge
  have hsize : b < s.sb.size := hlt.trans_le h.layout.start_le
  refine ⟨hsb.trans h.sb, ?_, fun x hx => ?_, ?_⟩
  · rw [Sys.allocBlock_start, hsb, h.start]
  · have := h.size_eq
    rw [Sys.used_allocBlock h.layout hge (by omega), h.marked x hx]
    simp
  · exact (h.logOk.logPut (h.bblock_lt hsize) _).logPut hlt _

/-- A data block is freed. -/
theorem Region.freeBlock (h : Region s) (hb : metablocks ≤ b) (hlt : b < s.sb.size) :
    Region (s.freeBlock b) := by
  have hsb := sb_freeBlock h.layout hlt
  refine ⟨hsb.trans h.sb, ?_, fun x hx => ?_, h.logOk.logPut (h.bblock_lt hlt) _⟩
  · rw [hsb]
    exact h.start
  · rw [used_freeBlock h.layout hlt (by omega), if_neg (by omega)]
    exact h.marked x hx

/-- A commit does not change what is in use. -/
theorem Region.used_commit (h : Region s) {x : ℕ} (hx : x < s.sb.size) :
    s.commit.used x = s.used x := by
  have h3 := h.layout.three_lt_start
  have hme := h.layout.meta_le
  exact Sys.used_congr (Sys.sb_eq_of_disk (h.logOk.disk_commit (by omega)))
    (fun y hy => h.logOk.disk_commit (by omega)) hx

/-- A commit keeps the metadata blocks in use. -/
theorem Region.commit (h : Region s) : Region s.commit := by
  have h3 := h.layout.three_lt_start
  have hsb : s.commit.sb = s.sb := Sys.sb_eq_of_disk (h.logOk.disk_commit (by omega))
  have hsize := h.size_eq
  have h35 : metablocks = 35 := rfl
  refine ⟨hsb.trans h.sb, ?_, fun x hx => ?_, List.nodup_nil, by simp [Sys.commit],
    by simp [Sys.commit]⟩
  · rw [hsb]
    exact h.start
  · rw [h.used_commit (by omega)]
    exact h.marked x hx

/-- `begin_trans` changes neither the disk nor the blocks in the log. -/
theorem Region.beginTrans (h : Region s) : Region
    { s with log := { s.log with busy := true }, owner := some p } :=
  ⟨h.sb, h.start, h.marked, h.logOk.nodup, h.logOk.lt, h.logOk.slot⟩

/-- **Every step keeps the invariant**, if it meets the condition. -/
theorem region_step {l : ℕ × BlockCall} (h : Region s) (hstep : blockCalls.step s l t)
    (hcond : DataFree s l) : Region t := by
  obtain ⟨p, c⟩ := l
  cases c with
  | beginTrans =>
    have hrun : Fs.run .real p (perform .beginTrans) s = .ok ((), t) := hstep
    rw [Fs.run, run_perform] at hrun
    simp only [exec] at hrun
    split_ifs at hrun
    cases hrun
    exact h.beginTrans
  | commitTrans =>
    have hrun : Fs.run .real p (perform .commitTrans) s = .ok ((), t) := hstep
    rw [Fs.run, run_perform] at hrun
    cases hrun
    exact h.commit
  | balloc b =>
    have hin := (h.balloc_iff hstep).mpr hcond.2
    rw [← h.start] at hin
    rw [(balloc_result hstep).2]
    exact h.allocBlock hin.1 hin.2
  | bfree b =>
    obtain ⟨⟨hge, hlt, hused⟩, hrun⟩ := hstep
    rw [bfree_result hused hrun]
    exact h.freeBlock hge hlt

/-- The metadata blocks are in use in every run in which `balloc` finds a data block. -/
theorem region_reachable (hreach : (blockCalls.restrict DataFree).Reachable s)
    (hsb : s.sb = Mkfs.sb) : Region s := by
  have hinv : s.sb = Mkfs.sb → Region s := by
    refine hreach.invariant (I := fun s => s.sb = Mkfs.sb → Region s) ?_ ?_
    · rintro s ⟨junk, files, img, hmain, rfl⟩ hsb
      exact region_mounted hmain hsb
    · rintro s ⟨p, c⟩ t h ⟨hstep, hcond⟩ -
      have hsb : s.sb = Mkfs.sb := by
        cases c with
        | balloc b => exact hcond.1
        | _ => exact hcond
      exact region_step (h hsb) hstep hcond
  exact hinv hsb

/-- **The region of `balloc`.** In every run of allocations and frees from an image of `mkfs` in
which `balloc` has been called only with a free data block left, a call of `balloc` returns a
block past the metadata and before the log area if and only if there is still a free one. -/
theorem balloc_in_region (hreach : (blockCalls.restrict DataFree).Reachable s)
    (hsb : s.sb = Mkfs.sb) (hstep : blockCalls.step s (p, .balloc b) t) :
    (metablocks ≤ b ∧ b < s.sb.size - s.sb.nlog) ↔ DataFree s (p, .balloc b) := by
  rw [(region_reachable hreach hsb).balloc_iff hstep]
  exact ⟨fun hne => ⟨hsb, hne⟩, fun hcond => hcond.2⟩

/-! ### Filling the disk -/

/-- Between transactions. -/
def Idle (s : Sys) : Prop := s.log.busy = false ∧ s.log.lh = [] ∧ s.log.size = 10

/-- There is room in an empty log. -/
theorem room_real {s : Sys} (hlh : s.log.lh = []) (hsize : s.log.size = 10) : Room .real s := by
  refine fun _ => ⟨by simp [Log.isFull, hlh, hsize], fun x data => ?_⟩
  have hlen : (s.logPut x data).log.lh.length ≤ 1 := by
    rw [Sys.logPut_lh, hlh]
    simp
  have hsize' : (s.logPut x data).log.size = 10 := hsize
  simp only [Log.isFull, hsize', LOGSIZE, decide_eq_false_iff_not, not_or, not_le]
  omega

/-- `begin_trans` when no transaction is on. -/
theorem step_begun (hidle : Idle s) : blockCalls.step s (p, .beginTrans) (s.begun p) := by
  have hbusy := hidle.1
  have : Fs.run .real p (perform .beginTrans) s = .ok ((), s.begun p) := by
    rw [Fs.run, run_perform]
    simp only [exec, hbusy]
    rfl
  exact this

/-- `balloc` at the beginning of a transaction. -/
theorem run_balloc_begun (hidle : Idle s)
    (hfind : (List.range s.sb.size).find? (fun b => !s.used b) = some b) :
    blockCalls.step (s.begun p) (p, .balloc b) ((s.begun p).allocBlock b) := by
  have : Fs.run .real p balloc (s.begun p) = .ok (b, (s.begun p).allocBlock b) := by
    have hfind' : (List.range (s.begun p).sb.size).find? (fun b => !(s.begun p).used b) = some b :=
      hfind
    have hroom : Room .real (s.begun p) := room_real hidle.2.1 hidle.2.2
    rw [Fs.run, run_balloc_room hroom rfl, hfind', ballocAt, if_neg (by simp [Mode.real])]
  exact this

/-- A transaction with one allocation takes the first free block. -/
theorem alloc_one {l : List ℕ} (hreach : blockCalls.Reachable s) (h : Region s) (hidle : Idle s)
    (hlog : s.used s.log.start = false) (hfree : s.free = b :: l) :
    ∃ t, blockCalls.Reachable t ∧ Region t ∧ Idle t ∧ t.used t.log.start = false ∧ t.free = l := by
  obtain ⟨hlt, hunused⟩ := Sys.mem_free.mp (hfree ▸ List.mem_cons_self : b ∈ s.free)
  have hge : metablocks ≤ b := by
    by_contra hlt'
    rw [h.marked b (by omega)] at hunused
    cases hunused
  have h1 : Region (s.begun 0) := h.beginTrans
  have h2 : Region ((s.begun 0).allocBlock b) := h1.allocBlock hge hlt
  have hmeta : (s.begun 0).sb.metaEnd ≤ b := h1.metaEnd_eq ▸ hge
  have hsize := h.size_eq
  have hstart := h.start_eq
  have hfree2 : ((s.begun 0).allocBlock b).free = l := Sys.free_allocBlock h1.layout hmeta hfree
  refine ⟨((s.begun 0).allocBlock b).commit, ?_, h2.commit, ⟨rfl, rfl, hidle.2.2⟩, ?_, ?_⟩
  · refine .step (l := (0, .commitTrans)) (.step (l := (0, .balloc b))
      (.step (l := (0, .beginTrans))
      hreach (step_begun hidle)) (run_balloc_begun hidle (find?_of_free h.layout hfree))) ?_
    have hrun : Fs.run .real 0 (perform .commitTrans) ((s.begun 0).allocBlock b) =
      .ok ((), ((s.begun 0).allocBlock b).commit) := run_perform _
    exact hrun
  · have hcommit : ((s.begun 0).allocBlock b).commit.log.start = s.log.start := rfl
    have hsize1 : (s.begun 0).sb.size = s.sb.size := rfl
    have hused1 : (s.begun 0).used s.log.start = s.used s.log.start := rfl
    rw [hcommit, h2.used_commit (by rw [h2.size_eq]; omega),
      Sys.used_allocBlock h1.layout hmeta (by omega), if_neg (by omega), hused1, hlog]
  · rw [← hfree2, Sys.free, Sys.free]
    refine List.filter_congr fun x hx => ?_
    have hx : x < s.log.start := List.mem_range.mp hx
    rw [h2.used_commit (by rw [h2.size_eq]; omega)]

/-- All data blocks can be allocated. -/
theorem alloc_all {l : List ℕ} (hreach : blockCalls.Reachable s) (h : Region s) (hidle : Idle s)
    (hlog : s.used s.log.start = false) (hfree : s.free = l) :
    ∃ t, blockCalls.Reachable t ∧ Region t ∧ Idle t ∧ t.used t.log.start = false ∧ t.free = [] := by
  induction l generalizing s with
  | nil => exact ⟨s, hreach, h, hidle, hlog, hfree⟩
  | cons b l ih =>
    obtain ⟨t, ht, h', hidle', hlog', hfree'⟩ := alloc_one hreach h hidle hlog hfree
    exact ih ht h' hidle' hlog' hfree'

/-- The image without files. -/
theorem exists_image : ∃ img, Mkfs.main Mkfs.zeroJunk [] = .ok img ∧ Region (mounted img) ∧
    Idle (mounted img) ∧ ∀ b, 4096 ≤ b → b < Mkfs.size → (mounted img).used b = false := by
  obtain ⟨m, c, hbuild, hc, hmain⟩ : ∃ m c, Mkfs.build Mkfs.zeroJunk [] = .ok m ∧
      Mkfs.Built [] m c ∧ Mkfs.main Mkfs.zeroJunk [] = .ok (Mkfs.finish m) :=
    Mkfs.main_ok (fun _ _ => rfl) (by decide) (by simp) (by simp) (by decide)
  have hused : m.usedblocks < 4096 := by
    by_contra hge
    rw [Mkfs.main_eq hbuild, if_pos (by omega)] at hmain
    cases hmain
  have hsb := hc.sb_mounted
  have hnlog : (mounted (Mkfs.finish m)).log.size = (mounted (Mkfs.finish m)).sb.nlog := rfl
  refine ⟨_, hmain, region_mounted hmain hsb, ⟨rfl, rfl, by rw [hnlog, hsb]; rfl⟩, ?_⟩
  intro b hb hlt
  rw [hc.used_mounted (by simp) hused hlt, decide_eq_false (by omega)]

/-- The first allocation on an image. -/
theorem balloc_in_region_first : ∃ s b t, (blockCalls.restrict DataFree).Reachable s ∧
    s.sb = Mkfs.sb ∧ blockCalls.step s (0, .balloc b) t ∧ metablocks ≤ b ∧
      b < s.sb.size - s.sb.nlog := by
  obtain ⟨img, hmain, h, hidle, hclear⟩ := exists_image
  have hstart := h.start_eq
  have hmem : 25034 ∈ (mounted img).free :=
    Sys.mem_free.mpr ⟨by omega, hclear _ (by omega) (by decide)⟩
  cases hfree : (mounted img).free with
  | nil =>
    rw [hfree] at hmem
    cases hmem
  | cons b l =>
    have hreach : (blockCalls.restrict DataFree).Reachable ((mounted img).begun 0) :=
      .step (l := (0, .beginTrans)) (.init ⟨_, _, _, hmain, rfl⟩) ⟨step_begun hidle, h.sb⟩
    have hstep : blockCalls.step ((mounted img).begun 0) (0, .balloc b) _ :=
      run_balloc_begun hidle (find?_of_free h.layout hfree)
    have hne : ((mounted img).begun 0).free ≠ [] := by
      have : ((mounted img).begun 0).free = (mounted img).free := rfl
      rw [this, hfree]
      exact List.cons_ne_nil _ _
    exact ⟨_, b, _, hreach, h.sb, hstep, (balloc_in_region hreach h.sb hstep).mpr ⟨h.sb, hne⟩⟩

/-- **When the data blocks are used up, `balloc` returns the block of the log header.** -/
theorem balloc_returns_log : ∃ s t, blockCalls.Reachable s ∧
    blockCalls.step s (0, .balloc (s.sb.size - s.sb.nlog)) t := by
  obtain ⟨img, hmain, h, hidle, hclear⟩ := exists_image
  have hlog : (mounted img).used (mounted img).log.start = false := by
    rw [h.start_eq]
    exact hclear _ (by omega) (by decide)
  obtain ⟨s, hreach, h, hidle, hlog, hfree⟩ :=
    alloc_all (.init ⟨_, _, _, hmain, rfl⟩) h hidle hlog rfl
  refine ⟨s.begun 0, (s.begun 0).allocBlock s.log.start,
    .step (l := (0, .beginTrans)) hreach (step_begun hidle), ?_⟩
  have hstart : (s.begun 0).sb.size - (s.begun 0).sb.nlog = s.log.start := h.start.symm
  have hsize := h.size_eq
  have heq := h.start_eq
  rw [hstart]
  refine run_balloc_begun hidle (List.find?_range_eq_some.mpr ⟨by simp [hlog], ?_, ?_⟩)
  · rw [List.mem_range]
    omega
  · intro j hj
    by_contra hne
    have hmem : j ∈ s.free := Sys.mem_free.mpr ⟨hj, by simpa using hne⟩
    rw [hfree] at hmem
    cases hmem

end Runs

end Xv6
