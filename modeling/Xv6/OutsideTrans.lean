import Xv6.BlockAlloc
import Xv6.FileTree

/-!
# Code Outside a Transaction

Outside a transaction `log_write` panics, so `balloc` does not return there. Code that reads a
file and returns has therefore found every block that it needed: `bmap` outside a transaction
is a lookup.

## Main results

* `run_bmap_closed`: `bmap` of a block that is not mapped fails.
* `run_readiLoop_closed`: the loop of `readi` returns only if all blocks are mapped.
-/

namespace Xv6

section Closed

variable {α : Type} {md : Mode} {p ip : ℕ} {s : Sys}

/-- `bmap` panics past the largest file. -/
theorem bmap_of_ge {bn : ℕ} (h : MAXFILE ≤ bn) : bmap ip bn = fail (.panic .bmapOutOfRange) := by
  rw [maxfile_eq] at h
  have h1 : ¬ bn < 10 := by omega
  have h2 : ¬ bn - 10 < 256 := by omega
  have h3 : ¬ bn - 10 - 256 < 16384 := by omega
  simp [bmap, h1, h2, h3]

variable (hbusy : s.log.busy = false)
include hbusy

/-- `log_write` panics outside of a transaction. -/
theorem run_logWrite_closed (b : ℕ) (data : Block) :
    ∃ e, Prog.run (exec md p) (logWrite b data) s = .error e := by
  rw [logWrite, run_perform]
  simp only [exec]
  by_cases hfull : md.limited = true ∧ s.log.isFull = true
  · exact ⟨_, if_pos hfull⟩
  · exact ⟨_, (if_neg hfull).trans (if_pos (by simp [hbusy]))⟩

/-- So does code that starts with it. -/
theorem run_logWrite_bind_closed {b : ℕ} {data : Block} (f : Unit → Fs α) :
    ∃ e, Prog.run (exec md p) (logWrite b data >>= f) s = .error e := by
  obtain ⟨e, he⟩ : ∃ e, Prog.run (exec md p) (logWrite b data) s = .error e :=
    run_logWrite_closed hbusy b data
  exact ⟨e, Prog.run_bind_error f he⟩

/-- `balloc` fails outside of a transaction: it panics at the first free block, or finds none. -/
theorem run_balloc_closed : ∃ e, Prog.run (exec md p) balloc s = .error e := by
  have hscan : ∀ ks, ∃ e, Prog.run (exec md p) (ballocScan s.sb ks) s = .error e := by
    intro ks
    induction ks with
    | nil => exact ⟨_, rfl⟩
    | cons k ks ih =>
      rw [ballocScan, Prog.run_bind, run_bread, Prog.ok_bind]
      cases findClear (s.disk (BBLOCK (BPB * k) s.sb.ninodes)) (s.sb.size - BPB * k) with
      | none => exact ih
      | some bi =>
        rw [Prog.run_bind]
        cases hm : Prog.run (exec md p) (mark (.alloc (BPB * k + bi))) s with
        | error e => exact ⟨e, rfl⟩
        | ok x =>
          obtain rfl : x.2 = s := by
            rw [mark, run_perform] at hm
            simp only [exec] at hm
            split_ifs at hm
            cases hm
            rfl
          exact run_logWrite_bind_closed hbusy _
  rw [balloc, Prog.run_bind, run_readsb, Prog.ok_bind]
  exact hscan _

/-- A walk to a position that is not mapped would have to allocate it. -/
theorem run_bmapPath_closed {r : ℕ} {js : List ℕ} (h : tree s.disk (s.icache ip).din r js = 0) :
    ∃ e, Prog.run (exec md p) (bmapPath ip r js) s = .error e := by
  obtain ⟨e, he⟩ : ∃ e, Prog.run (exec md p) balloc s = .error e := run_balloc_closed hbusy
  induction js with
  | nil =>
    refine ⟨e, ?_⟩
    have h0 : (s.icache ip).din.addr r = 0 := h
    rw [bmapPath, inodePtr, Prog.run_bind, run_getAddr, Prog.ok_bind, if_pos h0]
    exact Prog.run_bind_error _ he
  | cons j js ih =>
    by_cases hpar : tree s.disk (s.icache ip).din r js = 0
    · obtain ⟨e', he'⟩ := ih hpar
      exact ⟨e', Prog.run_bind_error _ he'⟩
    · refine ⟨e, (Prog.run_bind_ok _ (run_bmapPath hpar)).trans ?_⟩
      rw [tree, if_neg hpar] at h
      rw [blockPtr, Prog.run_bind, run_getEntry, Prog.ok_bind, if_pos h]
      exact Prog.run_bind_error _ he

/-- **`bmap` of a block that is not mapped** fails. -/
theorem run_bmap_closed {bn : ℕ} (h : bn < MAXFILE → dataPtr s.disk (s.icache ip).din bn = 0) :
    ∃ e, Prog.run (exec md p) (bmap ip bn) s = .error e := by
  by_cases hbn : bn < MAXFILE
  · rw [bmap_eq ip hbn]
    exact run_bmapPath_closed hbusy (h hbn)
  · rw [bmap_of_ge (not_lt.mp hbn)]
    exact ⟨_, rfl⟩

/-- `bmap` returns outside of a transaction only where the block is mapped. -/
theorem wp_bmap_closed (bn : ℕ) :
    Prog.wp (exec md p) (bmap ip bn)
      (fun a t => t = s ∧ bn < MAXFILE ∧ a = dataPtr s.disk (s.icache ip).din bn ∧ a ≠ 0)
      (fun _ => True) s := by
  by_cases h : bn < MAXFILE ∧ dataPtr s.disk (s.icache ip).din bn ≠ 0
  · exact Prog.wp_of_ok (run_bmap h.1 h.2) ⟨rfl, h.1, rfl, h.2⟩
  · obtain ⟨e, he⟩ : ∃ e, Prog.run (exec md p) (bmap ip bn) s = .error e :=
      run_bmap_closed hbusy fun hbn => not_not.mp fun hne => h ⟨hbn, hne⟩
    exact Prog.wp_of_error he trivial

/-- **The loop of `readi`** returns only if all the blocks that it reads are mapped. -/
theorem run_readiLoop_closed {fuel off n : ℕ} {bs : List UInt8} {t : Sys} (hfuel : n ≤ fuel)
    (hrun : Prog.run (exec md p) (readiLoop ip fuel off n) s = .ok (bs, t)) {k : ℕ}
    (hk : off ≤ k) (hk' : k < off + n) :
    k / 512 < MAXFILE ∧ dataPtr s.disk (s.icache ip).din (k / 512) ≠ 0 := by
  -- induction on the fuel, as for `run_readiLoop`
  induction fuel generalizing off n bs t with
  | zero => omega
  | succ fuel ih =>
    rw [readiLoop, if_neg (by omega), Prog.run_bind] at hrun
    cases hmap : Prog.run (exec md p) (bmap ip (off / BSIZE)) s with
    | error e =>
      rw [hmap] at hrun
      cases hrun
    | ok x =>
      obtain ⟨a, t'⟩ := x
      obtain ⟨rfl, hlt, rfl, hne⟩ := (wp_bmap_closed hbusy (off / BSIZE)).ok hmap
      rw [hmap, Prog.ok_bind, Prog.run_bind, run_bread, Prog.ok_bind, Prog.run_bind] at hrun
      simp only [BSIZE] at hrun hlt hne
      by_cases hblk : k / 512 = off / 512
      · rw [hblk]
        exact ⟨hlt, hne⟩
      · cases hrest : Prog.run (exec md p) (readiLoop ip fuel
          (off + min n (512 - off % 512)) (n - min n (512 - off % 512))) t' with
        | error e =>
          rw [hrest] at hrun
          cases hrun
        | ok y =>
          obtain ⟨bs', t''⟩ := y
          refine ih ?_ hrest ?_ ?_ <;> omega

/-- The loop of `writei` fails outside of a transaction if there are bytes to write. -/
theorem run_writeiLoop_closed {off fuel : ℕ} {src : List UInt8} (hne : src ≠ []) :
    ∃ e, Prog.run (exec md p) (writeiLoop ip (fuel + 1) off src) s = .error e := by
  rw [writeiLoop, if_neg hne, Prog.run_bind]
  cases hrun : Prog.run (exec md p) (bmap ip (off / BSIZE)) s with
  | error e => exact ⟨e, rfl⟩
  | ok x =>
    obtain ⟨rfl, -⟩ := (wp_bmap_closed hbusy (off / BSIZE)).ok hrun
    rw [Prog.ok_bind, Prog.run_bind, run_bread, Prog.ok_bind]
    exact run_logWrite_bind_closed hbusy _

end Closed

end Xv6
