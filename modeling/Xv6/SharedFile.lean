import Xv6.OwnerRun
import Xv6.QuietOps

/-!
# Writing Through One Open File

Several processes share a `struct file` on a regular file and write to it. `filewrite` cuts the
bytes into chunks; each chunk is a transaction that locks the inode, writes at the offset of the
file and advances the offset before it unlocks the inode. So a chunk is a step, and the chunks of
all writers are in the file one after the other.

This holds as long as every chunk finds enough free blocks in the data area: `balloc` goes on with
the blocks of the log area, which are not marked in the bitmap, and what is written there is gone
after the commit (`chunk_in_log_area`).

## Main results

* `OpenFile.chunk`: what one chunk does.
* `shared_file_writes`: **the file is the concatenation of the chunks**, in every run.
* `chunk_in_log_area`: a run in which a chunk is lost.
-/

open Transition
open Function (update update_of_ne update_self)

namespace Xv6

/-! ### States that differ in the tables only -/

/-- The same disk and the same inodes. -/
structure SameView (s t : Sys) : Prop where
  disk : t.disk = s.disk
  dinode : ∀ i, t.dinode i = s.dinode i

section View

variable {s t : Sys}

theorem SameView.sb (h : SameView s t) : t.sb = s.sb := Sys.sb_eq_of_disk (by rw [h.disk])

theorem SameView.ptr (h : SameView s t) (q : Pos) : t.ptr q = s.ptr q := by
  rw [Sys.ptr, Sys.ptr, h.disk, h.dinode]

theorem SameView.contents (h : SameView s t) (i k : ℕ) : t.contents i k = s.contents i k := by
  rw [Sys.contents, Sys.contents, h.ptr, h.disk]

theorem SameView.missing (h : SameView s t) (Q : Finset Pos) : t.missing Q = s.missing Q := by
  simp only [Sys.missing, h.ptr]

theorem SameView.free (h : SameView s t) (hstart : t.log.start = s.log.start) :
    t.free = s.free := by
  simp only [Sys.free, Sys.used, h.sb, h.disk, hstart]

/-- The entry of an inode becomes valid, or is locked. -/
theorem SameView.setInode {a : ℕ} {v : Inode} (hs : s.Uniq) (ha : a < NINODE)
    (href : 0 < (s.icache a).ref) (hv : 0 < v.ref) (hvalid : v.valid = true)
    (hinum : v.inum = (s.icache a).inum) (hdin : v.din = s.dinode v.inum) :
    SameView s (s.setInode a v) := by
  have huniq : (s.setInode a v).Uniq := hs.setInode fun _ => by
    rw [hinum]
    exact hs.inum_ne ha href
  refine ⟨rfl, fun i => ?_⟩
  by_cases hi : i = v.inum
  · have hself := Sys.dinode_of_held huniq (held_setInode_self.mpr ⟨ha, hv, hvalid⟩)
    rw [setInode_icache, if_pos rfl] at hself
    rw [hi, hself, hdin]
  · by_cases hex : ∃ b, s.Held b ∧ (s.icache b).inum = i
    · obtain ⟨b, hb, rfl⟩ := hex
      have hne : b ≠ a := fun he => hi (by rw [he, hinum])
      have hother := Sys.dinode_of_held huniq ((held_setInode_of_ne hne).mpr hb)
      rw [setInode_icache, if_neg hne] at hother
      rw [hother, Sys.dinode_of_held hs hb]
    · have hno : ∀ b, s.Held b → (s.icache b).inum ≠ i := fun b hb he => hex ⟨b, hb, he⟩
      rw [Sys.dinode_of_forall_ne hno, Sys.dinode_of_forall_ne]
      · rfl
      · intro b hb
        rw [setInode_icache]
        split_ifs with he
        · exact Ne.symm hi
        · exact hno b ((held_setInode_of_ne he).mp hb)

/-- **`ilock`** leaves the entry locked and valid, and nothing else changes. -/
theorem ilock_returns {md : Mode} {p a : ℕ} (h : Own s) (ha : a < NINODE)
    (href : 0 < (s.icache a).ref) (hbusy : (s.icache a).busy = false)
    (hi : (s.icache a).inum < s.sb.ninodes)
    (hrun : Prog.run (exec md p) (ilock a) s = .ok ((), t)) :
    t = s.setInode a { s.icache a with
      busy := true, valid := true, din := s.dinode (s.icache a).inum } ∧ Own t ∧ SameView s t := by
  have hview : SameView s (s.setInode a { s.icache a with
      busy := true, valid := true, din := s.dinode (s.icache a).inum }) :=
    .setInode h.uniq ha href href rfl rfl rfl
  cases hvalid : (s.icache a).valid with
  | true =>
    rw [run_ilock_valid href hbusy hvalid] at hrun
    cases hrun
    have hentry : { s.icache a with
        busy := true, valid := true, din := s.dinode (s.icache a).inum } =
        { s.icache a with busy := true } := by
      rw [Sys.dinode_of_held h.uniq ⟨ha, href, hvalid⟩]
      dsimp only
      rw [hvalid]
    rw [hentry] at hview ⊢
    exact ⟨rfl, h.setBusy ha true, hview⟩
  | false =>
    have hno : ∀ b, s.Held b → (s.icache b).inum ≠ (s.icache a).inum := fun b hb he => by
      obtain rfl := h.uniq b hb.lt a ha hb.ref href he
      exact absurd hb.valid (by simp [hvalid])
    rw [run_ilock_load href hbusy hvalid] at hrun
    split_ifs at hrun
    cases hrun
    rw [Sys.dinode_of_forall_ne hno] at hview ⊢
    refine ⟨rfl, ?_, hview⟩
    have hload := (h.setBusy ha true).load ha (by rwa [setInode_icache, if_pos rfl])
      (by rwa [setInode_icache, if_pos rfl]) (by rwa [setInode_icache, if_pos rfl])
    rw [setInode_setInode, setInode_icache, if_pos rfl] at hload
    exact hload

end View

/-! ### One chunk -/

/-- The open file `f` is a regular file with inode `i`, whose cache entry is `a`; no transaction
is open and the inode is not locked. -/
structure OpenFile (f a i : ℕ) (s : Sys) : Prop where
  own : Own s
  idle : s.log.busy = false
  lt : a < NINODE
  ref : 0 < (s.icache a).ref
  unlocked : (s.icache a).busy = false
  inum : (s.icache a).inum = i
  inum_lt : i < s.sb.ninodes
  regular : (s.dinode i).type = T_FILE
  type : (s.ftable f).type = .inode
  writable : (s.ftable f).writable = true
  ip : (s.ftable f).ip = a
  off_le : (s.ftable f).off ≤ (s.dinode i).size

section Chunk

variable {f a i p : ℕ} {s t : Sys} {src : List UInt8}

/-- `writei` of a file that is not a device leaves the open files alone. -/
theorem wp_writei_refs {md : Mode} {off : ℕ} (htype : (s.icache a).din.type ≠ T_DEV) :
    Prog.wp (exec md p) (writei a src off) (fun _ t => SameRefs s t) (fun _ => True) s := by
  refine Prog.wp_bind_of_ok (run_getInode a) ?_
  rw [if_neg htype]
  refine wp_quiet (Prog.Only.mono (P := Op.Block) ?_ fun _ => Op.Block.quiet)
  split_ifs
  · trivial
  · trivial
  · refine (only_writeiLoop _ _ _ _).bind fun _ => (only_getInode a).bind fun v => ?_
    split_ifs
    · exact (only_setDinode _ _).bind fun _ => (only_iupdate a).bind fun _ => trivial
    · trivial

/-- What a `writei` that returns has done to the file. -/
structure Written (s : Sys) (a off : ℕ) (src : List UInt8) (t : Sys) : Prop where
  own : Own t
  sb : t.sb = s.sb
  refs : SameRefs s t
  held : t.Held a
  type : (t.dinode (s.icache a).inum).type = (s.icache a).din.type
  size : (t.dinode (s.icache a).inum).size = max (s.icache a).din.size (off + src.length)
  contents : Updated s t (s.icache a).inum off src

/-- `writei` with enough blocks returns the number of bytes. -/
theorem writei_returns {off : ℕ} {r : Option ℕ} (h : WriteiPre s a off src.length)
    (hrun : Prog.run (exec .real p) (writei a src off) s = .ok (r, t)) :
    r = some src.length ∧ Written s a off src t := by
  have hm : MAXFILE * BSIZE = 8524800 := by rw [maxfile_eq]; rfl
  have hend := h.end_le
  have hrefs : SameRefs s t := (wp_writei_refs h.type).ok hrun
  obtain ⟨rfl, w, hw, rfl⟩ := wrote_of_run h hrun
  obtain ⟨e, hupd⟩ := hw
  have hi := h.own.inum_lt a h.held
  have hheld := e.held h.held
  have hlt : off + src.length < 2 ^ 32 := by omega
  have hdin : (w.resized a (off + src.length)).dinode (s.icache a).inum =
      (w.dinode (s.icache a).inum).setSize (max (s.icache a).din.size (off + src.length)) := by
    rw [Wrote.dinode_resized ⟨e, hupd⟩ h.held hend hi, if_pos rfl]
  refine ⟨rfl, own_resized e.own hheld hlt, ?_, hrefs, ⟨hheld.lt, ?_, ?_⟩, ?_, ?_, ?_⟩
  · rw [sb_resized e.own hheld hlt, e.sb]
  · rw [resized_icache]
    exact hheld.ref
  · rw [resized_icache]
    exact hheld.valid
  · obtain ⟨addrs, haddrs⟩ := e.fields
    rw [hdin, ← e.inum a, Sys.dinode_of_held e.own.uniq hheld, haddrs]
    rfl
  · rw [hdin]
    rfl
  · intro j hj k hk
    rw [contents_resized e.own hheld hlt (e.sb ▸ hj) hk]
    exact hupd j hj k hk

/-- A chunk after its `writei`: the offset is advanced, the inode unlocked, the transaction
committed. -/
def Sys.advanced (s : Sys) (f a n : ℕ) : Sys :=
  ((s.setFile f { s.ftable f with off := (s.ftable f).off + n }).setInode a
    { s.icache a with busy := false }).commit

/-- The end of a round: the offset is moved on, and the transaction committed. -/
theorem run_chunk_end {n : ℕ} (hoff : (s.ftable f).off + n < 2 ^ 32)
    (hbusy : (s.icache a).busy = true) (href : 0 < (s.icache a).ref) :
    Prog.run (exec .real p) (if 0 < (some n).getD 0 then do
        advance f ((some n).getD 0)
        iunlock a
        commitTrans
        return some n
      else do
        iunlock a
        commitTrans
        return some n) s = .ok (some n, s.advanced f a n) := by
  have hcommit : ∀ u : Sys, Prog.run (exec .real p) commitTrans u = .ok ((), u.commit) :=
    fun _ => run_perform _
  have hend : ∀ u : Sys, u.icache a = s.icache a → Prog.run (exec .real p) (do
        iunlock a
        commitTrans
        return some n) u =
      .ok (some n, (u.setInode a { u.icache a with busy := false }).commit) := by
    intro u hu
    have hunlock : Prog.run (exec .real p) (iunlock a) u =
        .ok ((), u.setInode a { u.icache a with busy := false }) := by
      rw [iunlock, run_perform]
      simp only [exec, hu, hbusy]
      rw [if_neg (by simp; omega)]
    rw [Prog.run_bind_ok _ hunlock, Prog.run_bind_ok _ (hcommit _)]
    rfl
  rw [Option.getD_some]
  split_ifs with hn
  · have hadv : Prog.run (exec .real p) (advance f n) s =
        .ok ((), s.setFile f { s.ftable f with off := (s.ftable f).off + n }) := by
      rw [advance, Prog.run_bind_ok _ (run_perform (.file f)), run_perform]
      simp only [exec, Nat.mod_eq_of_lt hoff]
    have hlast := hend (s.setFile f { s.ftable f with off := (s.ftable f).off + n }) rfl
    rw [Prog.run_bind_ok _ hadv, hlast]
    rfl
  · obtain rfl : n = 0 := by omega
    have hself : s.setFile f { s.ftable f with off := (s.ftable f).off + 0 } = s := by
      simp [Sys.setFile]
    rw [hend s rfl, Sys.advanced, hself]

/-- The end of a chunk changes no file. -/
theorem Own.advanced (h : Own s) (ha : s.Held a) (f n : ℕ) :
    Own (s.advanced f a n) ∧ (s.advanced f a n).sb = s.sb ∧
      (∀ j < s.sb.ninodes, (s.advanced f a n).dinode j = s.dinode j) ∧
      ∀ j < s.sb.ninodes, ∀ k < MAXFILE * BSIZE,
        (s.advanced f a n).contents j k = s.contents j k := by
  have hfile : Own (s.setFile f { s.ftable f with off := (s.ftable f).off + n }) :=
    h.of_log rfl rfl rfl rfl
  have hentry : SameView s (s.setInode a { s.icache a with busy := false }) :=
    .setInode h.uniq ha.lt ha.ref ha.ref ha.valid rfl (Sys.dinode_of_held h.uniq ha).symm
  have hview : SameView s ((s.setFile f { s.ftable f with off := (s.ftable f).off + n }).setInode a
      { s.icache a with busy := false }) := ⟨hentry.disk, hentry.dinode⟩
  have hown := hfile.setBusy ha.lt false
  refine ⟨hown.commit, ?_, fun j hj => ?_, fun j hj k hk => ?_⟩
  · have := hown.three_lt_start
    exact (Sys.sb_eq_of_disk (hown.disk_commit (by omega))).trans hview.sb
  · exact (hown.dinode_commit hj).trans (hview.dinode j)
  · exact (contents_commit hown hj hk).trans (hview.contents j k)

/-- **One chunk of `filewrite`** that stays within the largest file and finds enough free blocks in
the data area: if it returns, it has written all its bytes at the offset of the file, and the
offset is past them. -/
theorem OpenFile.chunk {r : Option ℕ} (h : OpenFile f a i s)
    (hmax : (s.ftable f).off + src.length ≤ MAXFILE * BSIZE)
    (henough : (s.missing (span i (s.ftable f).off src.length)).card ≤ s.free.length)
    (hrun : Fs.run .real p (filewriteChunk f src) s = .ok (r, t)) :
    r = some src.length ∧ OpenFile f a i t ∧
      (t.ftable f).off = (s.ftable f).off + src.length ∧ t.sb = s.sb ∧
      Updated s t i (s.ftable f).off src := by
  -- the transaction is opened
  obtain ⟨⟨⟨⟩, s₁⟩, h₁, hrun⟩ := Prog.bind_eq_ok.mp ((Prog.run_bind ..).symm.trans hrun)
  obtain rfl : s₁ = s.begun p := by
    rw [beginTrans, run_perform] at h₁
    simp only [exec, h.idle] at h₁
    exact (Prod.mk.inj (Except.ok.inj h₁)).2.symm
  have hown₁ : Own (s.begun p) := h.own.of_log rfl rfl rfl rfl
  have hip : ((s.begun p).ftable f).ip = a := h.ip
  dsimp only at hrun
  rw [Prog.run_bind_ok _ (run_perform (.file f))] at hrun
  -- the inode is locked
  obtain ⟨⟨⟨⟩, s₂⟩, h₂, hrun⟩ := Prog.bind_eq_ok.mp ((Prog.run_bind ..).symm.trans hrun)
  rw [hip] at h₂ hrun
  obtain ⟨hs₂, hown₂, hview⟩ := ilock_returns hown₁ h.lt h.ref h.unlocked
    (by change (s.icache a).inum < s.sb.ninodes; rw [h.inum]; exact h.inum_lt) h₂
  have hview : SameView s s₂ := ⟨hview.disk, hview.dinode⟩
  have hfile₂ : s₂.ftable = s.ftable := by rw [hs₂]; rfl
  have hentry₂ : s₂.icache a = { s.icache a with
      busy := true, valid := true, din := s.dinode i } := by
    rw [hs₂, setInode_icache, if_pos rfl, ← h.inum]
    rfl
  have hinum₂ : (s₂.icache a).inum = i := by rw [hentry₂]; exact h.inum
  have hpre : WriteiPre s₂ a (s.ftable f).off src.length :=
    { own := hown₂
      held := ⟨h.lt, by rw [hentry₂]; exact h.ref, by rw [hentry₂]⟩
      busy := by rw [hs₂]; rfl
      type := by
        rw [hentry₂, h.regular]
        decide
      off_le := by rw [hentry₂]; exact h.off_le
      end_le := hmax
      enough := by
        rw [hinum₂, hview.missing, hview.free (by rw [hs₂]; rfl)]
        exact henough }
  dsimp only at hrun
  rw [Prog.run_bind_ok _ (run_perform (.file f))] at hrun
  -- the bytes are written
  obtain ⟨⟨r', s₃⟩, h₃, hrun⟩ := Prog.bind_eq_ok.mp ((Prog.run_bind ..).symm.trans hrun)
  rw [hfile₂] at h₃
  obtain ⟨rfl, hw⟩ := writei_returns hpre h₃
  -- the offset is advanced, the inode is unlocked, the transaction is committed
  have hfile₃ : s₃.ftable = s.ftable := hw.refs.ftable.trans hfile₂
  have hm : MAXFILE * BSIZE = 8524800 := by rw [maxfile_eq]; rfl
  rw [run_chunk_end (by rw [hfile₃]; omega)
    (by rw [hw.refs.busy, hentry₂]) hw.held.ref] at hrun
  cases hrun
  have hinum₃ : (s₃.icache a).inum = i := (hw.refs.inum a).trans hinum₂
  have hdin₂ : (s₂.icache a).din = s.dinode i := by rw [hentry₂]
  have hi₃ : i < s₃.sb.ninodes := by
    rw [hw.sb, hview.sb]
    exact h.inum_lt
  obtain ⟨hown, hsb, hdin, hcont⟩ := hw.own.advanced hw.held f src.length
  have hsb : (s₃.advanced f a src.length).sb = s.sb := hsb.trans (hw.sb.trans hview.sb)
  have hfile : (s₃.advanced f a src.length).ftable f =
      { s.ftable f with off := (s.ftable f).off + src.length } := by
    rw [← hfile₃]
    exact update_self ..
  have hentry : (s₃.advanced f a src.length).icache a = { s₃.icache a with busy := false } :=
    update_self ..
  have htype := hw.type
  have hsize := hw.size
  rw [hinum₂, hdin₂] at htype hsize
  refine ⟨rfl, ?_, by rw [hfile], hsb, fun j hj k hk => ?_⟩
  · exact
      { own := hown
        idle := rfl
        lt := h.lt
        ref := by
          rw [hentry]
          exact hw.held.ref
        unlocked := by rw [hentry]
        inum := by
          rw [hentry]
          exact hinum₃
        inum_lt := by
          rw [hsb]
          exact h.inum_lt
        regular := by rw [hdin i hi₃, htype, h.regular]
        type := by
          rw [hfile]
          exact h.type
        writable := by
          rw [hfile]
          exact h.writable
        ip := by
          rw [hfile]
          exact h.ip
        off_le := by
          rw [hfile, hdin i hi₃, hsize]
          exact le_max_right _ _ }
  · have hj₂ : j < s₂.sb.ninodes := hview.sb ▸ hj
    rw [hcont j (hw.sb ▸ hj₂) k hk, hw.contents j hj₂ k hk, hinum₂, hview.contents]

end Chunk

/-! ### Runs -/

/-- The kernel and the calls of `filewrite` on the shared file: the bytes that the current call of
each process has not written yet and all bytes that the process has asked to write, and the chunks
of all processes in the order of their transactions. -/
structure Shared where
  sys : Sys
  left : ℕ → List UInt8
  asked : ℕ → List UInt8
  chunks : List (ℕ × List UInt8)

/-- A process calls `filewrite`, or goes through one round of its loop. -/
inductive SharedCall
  | write (p : ℕ) (src : List UInt8)
  | chunk (p : ℕ)

/-- The bytes that the next round of `filewrite` writes. -/
def nextChunk (src : List UInt8) : List UInt8 := src.take (min src.length filewriteMax)

namespace Shared

/-- One step. A round that returns -1 ends the call, and a short one ends in a panic. -/
def next (f : ℕ) (s : Shared) : SharedCall → Option Shared
  | .write p src =>
    if s.left p = [] then
      some { s with
        left := update s.left p src
        asked := update s.asked p (s.asked p ++ src) }
    else none
  | .chunk p =>
    if s.left p = [] then none
    else
      match Fs.run .real p (filewriteChunk f (nextChunk (s.left p))) s.sys with
      | .error _ => none
      | .ok (none, u) => some { s with sys := u, left := update s.left p [] }
      | .ok (some r, u) =>
        if r = (nextChunk (s.left p)).length then
          some { s with
            sys := u
            left := update s.left p ((s.left p).drop r)
            chunks := s.chunks ++ [(p, nextChunk (s.left p))] }
        else none

/-- The bytes of all chunks. -/
def bytes (s : Shared) : List UInt8 := (s.chunks.map Prod.snd).flatten

/-- The bytes of the chunks of one process. -/
def bytesOf (s : Shared) (p : ℕ) : List UInt8 :=
  ((s.chunks.filter fun x => x.1 = p).map Prod.snd).flatten

/-- The step stays within the largest file, and a chunk finds enough free blocks in the data
area. -/
def HasRoom (f i : ℕ) (s : Shared) : SharedCall → Prop
  | .write _ _ => True
  | .chunk p =>
    (s.sys.ftable f).off + (nextChunk (s.left p)).length ≤ MAXFILE * BSIZE ∧
      (s.sys.missing (span i (s.sys.ftable f).off (nextChunk (s.left p)).length)).card ≤
        s.sys.free.length

end Shared

/-- The runs of the writers of the open file `f`, whose offset is `off` at the start. -/
def sharedWrites (f a i off : ℕ) : System Shared SharedCall where
  init s := OpenFile f a i s.sys ∧ (s.sys.ftable f).off = off ∧ (∀ p, s.left p = []) ∧
    (∀ p, s.asked p = []) ∧ s.chunks = []
  step s l t := s.next f l = some t

section Runs

variable {f a i off p : ℕ} {s t : Shared} {src : List UInt8}

theorem length_nextChunk : (nextChunk src).length = min src.length filewriteMax := by
  rw [nextChunk, List.length_take]
  omega

theorem nextChunk_append_drop : nextChunk src ++ src.drop (nextChunk src).length = src := by
  rw [length_nextChunk, nextChunk, List.take_append_drop]

/-- The state after a round that has written its chunk. -/
def Shared.wrote (s : Shared) (p : ℕ) (u : Sys) : Shared :=
  { s with
    sys := u
    left := update s.left p ((s.left p).drop (nextChunk (s.left p)).length)
    chunks := s.chunks ++ [(p, nextChunk (s.left p))] }

/-- The state after a round that has returned -1. -/
def Shared.ended (s : Shared) (p : ℕ) (u : Sys) : Shared :=
  { s with sys := u, left := update s.left p [] }

/-- **A round of `filewrite`.** -/
theorem Shared.next_chunk : s.next f (.chunk p) = some t ↔ s.left p ≠ [] ∧ ∃ r u,
    Fs.run .real p (filewriteChunk f (nextChunk (s.left p))) s.sys = .ok (r, u) ∧
      ((r = none ∧ t = s.ended p u) ∨
        (r = some (nextChunk (s.left p)).length ∧ t = s.wrote p u)) := by
  rw [Shared.next]
  by_cases hnil : s.left p = []
  · simp [hnil]
  · rw [if_neg hnil]
    rcases Fs.run .real p (filewriteChunk f (nextChunk (s.left p))) s.sys with e | ⟨r | r, u⟩
    · simp
    · simp [hnil, Shared.ended, eq_comm]
    · by_cases hr : r = (nextChunk (s.left p)).length
      · subst hr
        simp [hnil, Shared.wrote, eq_comm]
      · simp [hr]

/-- **A call of `filewrite` is a sequence of rounds**: where the loop returns, the steps of its
process lead to the same state. -/
theorem filewriteLoop_steps {fuel : ℕ} {b : Bool} {u : Sys} (hleft : s.left p = src)
    (hfuel : src.length ≤ fuel)
    (hrun : Fs.run .real p (filewriteLoop f fuel src) s.sys = .ok (b, u)) :
    ∃ k t, (List.replicate k (SharedCall.chunk p)).foldlM (Shared.next f) s = some t ∧
      t.sys = u ∧ t.left p = [] := by
  induction fuel generalizing s src with
  | zero =>
    obtain rfl : src = [] := List.length_eq_zero_iff.mp (by omega)
    cases hrun
    exact ⟨0, s, rfl, rfl, hleft⟩
  | succ fuel ih =>
    rw [filewriteLoop] at hrun
    by_cases hnil : src = []
    · rw [if_pos hnil] at hrun
      cases hrun
      exact ⟨0, s, rfl, rfl, hleft.trans hnil⟩
    · rw [if_neg hnil] at hrun
      obtain ⟨⟨r, v⟩, hchunk, hrun⟩ := Prog.bind_eq_ok.mp ((Prog.run_bind ..).symm.trans hrun)
      have hlen : min src.length filewriteMax = (nextChunk src).length := length_nextChunk.symm
      have hpos : 0 < (nextChunk src).length := by
        have := List.length_pos_iff.mpr hnil
        rw [length_nextChunk]
        exact lt_min this (by decide)
      cases r with
      | none =>
        cases hrun
        have hstep : s.next f (.chunk p) = some (s.ended p v) :=
          Shared.next_chunk.mpr ⟨hleft ▸ hnil, none, v, by rw [hleft]; exact hchunk,
            Or.inl ⟨rfl, rfl⟩⟩
        exact ⟨1, s.ended p v, by simp [hstep], rfl, update_self ..⟩
      | some r =>
        dsimp only at hrun
        split_ifs at hrun with hr
        · have hstep : s.next f (.chunk p) = some (s.wrote p v) :=
            Shared.next_chunk.mpr ⟨hleft ▸ hnil, some r, v, by rw [hleft]; exact hchunk,
              Or.inr ⟨by rw [hr, hlen, hleft], rfl⟩⟩
          have hrest : (s.wrote p v).left p = src.drop (min src.length filewriteMax) := by
            simp only [Shared.wrote, update_self]
            rw [hleft, hlen]
          obtain ⟨k, t, ht, hu, hnone⟩ := ih hrest (by rw [List.length_drop, hlen]; omega) hrun
          exact ⟨k + 1, t, by simp [List.replicate_succ, hstep, ht], hu, hnone⟩
        · cases hrun

/-- The bytes of a chunk are in the file after those before it. -/
theorem slice_updated {s t : Sys} {off₀ n : ℕ} (hupd : Updated s t i (off₀ + n) src)
    (hi : i < s.sb.ninodes) (hmax : off₀ + n + src.length ≤ MAXFILE * BSIZE) :
    t.slice i off₀ (n + src.length) = s.slice i off₀ n ++ src := by
  have hold : ∀ k < n, t.contents i (off₀ + k) = s.contents i (off₀ + k) := fun k hk => by
    rw [hupd i hi _ (by omega), if_neg (by omega)]
  have hnew : ∀ k < src.length, t.contents i (off₀ + (n + k)) = src.getD k 0 := fun k hk => by
    rw [hupd i hi _ (by omega), if_pos ⟨rfl, by omega, by omega⟩]
    congr 1
    omega
  rw [Sys.slice, Sys.slice, List.range_add, List.map_append, List.map_map]
  congr 1
  · exact List.map_congr_left fun k hk => hold k (List.mem_range.mp hk)
  · refine List.ext_getElem (by simp) fun k h1 h2 => ?_
    rw [List.getElem_map, List.getElem_range]
    exact (hnew k h2).trans (by simp [h2])

/-- What holds between the steps. -/
structure Shared.Ok (f a i off : ℕ) (s : Shared) : Prop where
  file : OpenFile f a i s.sys
  off_eq : (s.sys.ftable f).off = off + s.bytes.length
  slice_eq : s.sys.slice i off s.bytes.length = s.bytes
  order : ∀ p, s.asked p = s.bytesOf p ++ s.left p

/-- **One step** appends a chunk, or asks for more. -/
theorem Shared.Ok.step {l : SharedCall} (h : s.Ok f a i off) (hstep : s.next f l = some t)
    (hroom : s.HasRoom f i l) : t.Ok f a i off := by
  cases l with
  | write p src =>
    rw [Shared.next] at hstep
    split_ifs at hstep with hnil
    cases hstep
    refine { h with order := fun q => ?_ }
    by_cases hq : q = p
    · subst hq
      have hord := h.order q
      rw [hnil, List.append_nil] at hord
      simp only [update_self]
      rw [hord]
      rfl
    · simp only [update_of_ne hq]
      exact h.order q
  | chunk p =>
    obtain ⟨hmax, henough⟩ := hroom
    obtain ⟨-, r, u, hrun, hcases⟩ := Shared.next_chunk.mp hstep
    obtain ⟨rfl, hfile, hoff, hsb, hupd⟩ := h.file.chunk hmax henough hrun
    obtain rfl : t = s.wrote p u := by
      rcases hcases with ⟨hr, -⟩ | ⟨-, ht⟩
      · cases hr
      · exact ht
    have hbytes : (s.wrote p u).bytes = s.bytes ++ nextChunk (s.left p) := by
      simp [Shared.bytes, Shared.wrote]
    refine ⟨hfile, ?_, ?_, fun q => ?_⟩
    · rw [hbytes, List.length_append]
      change (u.ftable f).off = _
      rw [hoff, h.off_eq, Nat.add_assoc]
    · rw [h.off_eq] at hupd hmax
      rw [hbytes, List.length_append]
      change u.slice i off _ = _
      rw [slice_updated hupd h.file.inum_lt hmax, h.slice_eq]
    · by_cases hq : q = p
      · subst hq
        have hof : (s.wrote q u).bytesOf q = s.bytesOf q ++ nextChunk (s.left q) := by
          simp [Shared.bytesOf, Shared.wrote]
        rw [hof, List.append_assoc]
        simp only [Shared.wrote, update_self]
        rw [nextChunk_append_drop]
        exact h.order q
      · have hof : (s.wrote p u).bytesOf q = s.bytesOf q := by
          simp [Shared.bytesOf, Shared.wrote, Ne.symm hq]
        rw [hof]
        simp only [Shared.wrote, update_of_ne hq]
        exact h.order q

/-- **Concurrent writes through one open file**: in every run of any number of writers that stays
within the largest file and whose chunks find enough free blocks in the data area, the bytes of the
file from the initial offset on are the chunks in the order of their transactions, the offset is
past them, and the chunks of each writer are what it has asked to write, in its order, up to what
is left of its current call. -/
theorem shared_file_writes
    (h : ((sharedWrites f a i off).restrict (Shared.HasRoom f i)).Reachable s) :
    s.sys.slice i off (s.chunks.map Prod.snd).flatten.length = (s.chunks.map Prod.snd).flatten ∧
      (s.sys.ftable f).off = off + (s.chunks.map Prod.snd).flatten.length ∧
      ∀ p, s.asked p =
        ((s.chunks.filter fun x => x.1 = p).map Prod.snd).flatten ++ s.left p := by
  have hok : s.Ok f a i off := by
    refine h.invariant (I := Shared.Ok f a i off) ?_ ?_
    · rintro t ⟨hfile, hoff, hleft, hasked, hchunks⟩
      refine ⟨hfile, ?_, ?_, fun p => ?_⟩
      · simp [Shared.bytes, hchunks, hoff]
      · simp [Shared.bytes, hchunks, Sys.slice]
      · simp [Shared.bytesOf, hchunks, hleft, hasked]
    · rintro t l u ht ⟨hstep, hroom⟩
      exact ht.step hstep hroom
  exact ⟨hok.slice_eq, hok.off_eq, hok.order⟩

end Runs

/-! ### On a small file system -/

instance (f i : ℕ) (s : Shared) (l : SharedCall) : Decidable (s.HasRoom f i l) :=
  match l with
  | .write _ _ => instDecidableTrue
  | .chunk _ => inferInstanceAs (Decidable (_ ∧ _))

/-- The file of the small file system, with `k` blocks, is open at the offset `off`. -/
def openDisk (k off : ℕ) : Sys :=
  { (smallDisk false k 0).setInode 0 { (smallDisk false k 0).icache 0 with busy := false } with
    ftable := fun f => if f = 0 then ⟨.inode, 2, true, true, 0, off⟩
      else ⟨.none, 0, false, false, 0, 0⟩ }

/-- Nobody has written yet. -/
def openShared (k off : ℕ) : Shared := ⟨openDisk k off, fun _ => [], fun _ => [], []⟩

/-- A file of `k` blocks that is open at the offset `off`. -/
theorem openFile_openDisk {k off : ℕ} (hk : k ≤ 10) (hoff : off ≤ 512 * k) :
    OpenFile 0 0 1 (openDisk k off) := by
  have hown : Own (smallDisk false k 0) := own_smallDisk hk (by omega)
  have hheld : (smallDisk false k 0).Held 0 := held_smallDisk.mpr rfl
  have hdin : (smallDisk false k 0).dinode 1 = smallFile k := by
    rw [dinode_smallDisk (by omega), if_pos rfl]
  have hview : SameView (smallDisk false k 0) ((smallDisk false k 0).setInode 0
      { (smallDisk false k 0).icache 0 with busy := false }) :=
    .setInode hown.uniq hheld.lt hheld.ref hheld.ref hheld.valid rfl
      (Sys.dinode_of_held hown.uniq hheld).symm
  have hdin' : (openDisk k off).dinode 1 = smallFile k := (hview.dinode 1).trans hdin
  have hsb : (openDisk k off).sb = smallSb k 0 := hview.sb.trans (sb_smallDisk (by omega))
  exact
    { own := (hown.setBusy hheld.lt false).of_log rfl rfl rfl rfl
      idle := rfl
      lt := hheld.lt
      ref := hheld.ref
      unlocked := rfl
      inum := rfl
      inum_lt := by
        rw [hsb]
        exact Nat.one_lt_ofNat
      regular := by rw [hdin', smallFile]
      type := rfl
      writable := rfl
      ip := rfl
      off_le := by
        rw [hdin', smallFile]
        exact hoff }

theorem init_openShared {k off : ℕ} (hk : k ≤ 10) (hoff : off ≤ 512 * k) :
    (sharedWrites 0 0 1 off).init (openShared k off) :=
  ⟨openFile_openDisk hk hoff, rfl, fun _ => rfl, fun _ => rfl, rfl⟩

/-- Two processes write, and the second one comes first. -/
theorem shared_file_writes_two : ∃ s,
    ((sharedWrites 0 0 1 0).restrict (Shared.HasRoom 0 1)).Reachable s ∧
      s.chunks = [(1, [3]), (0, [1, 2])] ∧ s.sys.slice 1 0 3 = [3, 1, 2] := by
  have hrun : (([.write 0 [1, 2], .write 1 [3], .chunk 1, .chunk 0] : List SharedCall).foldlM
      (fun s l => if Shared.HasRoom 0 1 s l then Shared.next 0 s l else none) (openShared 1 0)).map
        Shared.chunks = some [(1, [3]), (0, [1, 2])] := by decide +kernel
  obtain ⟨s, hs, hchunks⟩ := Option.map_eq_some_iff.mp hrun
  have hreach : ((sharedWrites 0 0 1 0).restrict (Shared.HasRoom 0 1)).Reachable s := by
    refine System.Reachable.foldlM (fun s l t h => ?_)
      (.init (init_openShared (by omega) (by omega))) hs
    split_ifs at h with hroom
    exact ⟨h, hroom⟩
  have hslice := (shared_file_writes hreach).1
  rw [hchunks] at hslice
  exact ⟨s, hreach, hchunks, hslice⟩

/-- A file of ten blocks fills the data area. The chunk takes the block of the log header as
indirect block and the first slot of the log for the data, and the commit overwrites both: the
byte is not in the file. -/
theorem chunk_in_log_area : ∃ s, (sharedWrites 0 0 1 5120).Reachable s ∧
    s.chunks = [(0, [7])] ∧ (s.sys.ftable 0).off = 5121 ∧ s.sys.slice 1 5120 1 ≠ [7] := by
  have hrun : (([.write 0 [7], .chunk 0] : List SharedCall).foldlM (Shared.next 0)
      (openShared 10 5120)).map (fun s => (s.chunks, (s.sys.ftable 0).off, s.sys.slice 1 5120 1)) =
        some ([(0, [7])], 5121, [0]) := by decide +kernel
  obtain ⟨s, hs, hobs⟩ := Option.map_eq_some_iff.mp hrun
  obtain ⟨hchunks, hobs⟩ := Prod.mk.inj hobs
  obtain ⟨hoff, hslice⟩ := Prod.mk.inj hobs
  refine ⟨s, System.Reachable.foldlM (fun _ _ _ h => h)
    (.init (init_openShared (by omega) (by omega))) hs, hchunks, hoff, ?_⟩
  rw [hslice]
  decide

end Xv6
