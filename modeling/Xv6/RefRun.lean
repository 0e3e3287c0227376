import Xv6.HeldRefs
import Xv6.SmallDisk
import Xv6.Transition

/-!
# The Reference Counts of the Inode Cache

Every system call about files gives back the references and the locks that it has taken, on each
of its paths, except for those that it puts into the table of open files or into a current
directory. So between calls the count of a cache entry is the number of current directories and
open files that refer to it, and no entry is locked.

## Main results

* `refRules`: the rules for what calls hold.
* `wp_forkFiles`: the reference that a child gets.
* `inode_refs_exact`: **the counts between the calls of a run.**
-/

open Transition

namespace Xv6

section Calls

variable {α β : Type} {md : Mode} {p : ℕ} {L X Y : List Item} {s t : Sys} {a b f q : ℕ}

/-! ### Open files -/

/-- `filealloc` takes a file that is not in use. -/
theorem leaves_filealloc : Leaves md p L (perform .filealloc) fun r => allocated r ++ L := by
  intro s h
  refine wp_exec fun r t hexec => ?_
  simp only [exec] at hexec
  split at hexec
  · rename_i f hf
    cases hexec
    have hlt : f < NFILE := List.mem_range.mp (List.mem_of_find?_eq_some hf)
    have h0 : (s.ftable f).ref = 0 := by simpa using List.find?_some hf
    have htype := h.closed f h0
    have hfresh := h.fresh f
    refine Holds.setFile (X := []) (Y := [.file f]) h (by simp) hlt (fun b => ?_) (by simp) ?_
    · simp [File.inode, h0, htype]
    · simp only [File.isNew, h0, htype] at hfresh ⊢
      simpa using hfresh
  · cases hexec
    exact h

/-- The count of an open file changes and it stays open. -/
theorem Holds.setCount (h : Holds L s) {n : ℤ} (hpos : 0 < (s.ftable f).ref) (hn : 0 < n) :
    Holds L (s.setFile f { s.ftable f with ref := n }) := by
  refine Holds.setFile (X := []) (Y := []) h (by simp) (h.lt_file f hpos) (fun b => ?_) ?_ ?_
  · simp only [File.inode, hpos, hn]
  · intro h0
    exact absurd h0 hn.ne'
  · have hfresh := h.fresh f
    simp only [File.isNew, hpos, hn] at hfresh ⊢
    exact hfresh

/-- `filedup` does not concern inodes. -/
theorem leaves_filedup : Leaves md p L (perform (.filedup f)) fun _ => L := by
  intro s h
  refine wp_exec fun r t hexec => ?_
  simp only [exec] at hexec
  split_ifs at hexec
  cases hexec
  exact h.setCount (by omega) (by omega)

/-- `fileclose` takes the inode out of a file with its last reference. -/
theorem leaves_fileDrop (hf : .file f ∉ L) :
    Leaves md p L (perform (.fileDrop f)) fun r => dropped r ++ L := by
  intro s h
  refine wp_exec fun r t hexec => ?_
  simp only [exec] at hexec
  split_ifs at hexec with h1 h2
  · cases hexec
    exact h.setCount (by omega) (by omega)
  · cases hexec
    have hpos : 0 < (s.ftable f).ref := by omega
    have hcount : L.count (.file f) = 0 := List.count_eq_zero.mpr hf
    refine Holds.setFile (X := []) h (fun i hi => ?_) (h.lt_file f hpos) (fun b => ?_)
      (fun _ => rfl) ?_
    · rw [List.nil_append, dropped] at hi
      split_ifs at hi
      · exact Or.inr ⟨_, List.mem_singleton.mp hi⟩
      · cases hi
    · by_cases htype : (s.ftable f).type = .inode
      · simp [dropped, File.inode, htype, hpos, List.count_singleton]
      · simp [dropped, File.inode, htype]
    · rw [List.count_append, hcount, dropped]
      split_ifs
      · simp
      · simp

/-- An open file that the call has allocated gets an inode. -/
theorem leaves_setInode (readable writable : Bool) :
    Leaves md p (.file f :: .ref a :: L)
      (perform (.setFile f ⟨.inode, 0, readable, writable, a, 0⟩)) fun _ => L := by
  intro s h
  refine wp_exec fun r t hexec => ?_
  cases hexec
  have hfresh := h.fresh f
  rw [List.count_cons_self, List.count_cons_of_ne (by simp)] at hfresh
  have hle := Bool.toNat_le (s.ftable f).isNew
  have hnew : (s.ftable f).isNew = true := by
    by_contra hne
    rw [Bool.eq_false_iff.mpr hne, Bool.toNat_false] at hfresh
    omega
  have hpos : 0 < (s.ftable f).ref ∧ (s.ftable f).type = .none := by simpa [File.isNew] using hnew
  refine Holds.setFile (X := [.file f, .ref a]) (Y := []) h (by simp) (h.lt_file f hpos.1)
    (fun b => ?_) (fun h0 => absurd h0 hpos.1.ne') ?_
  · simp [File.inode, hpos, List.count_cons]
  · simp only [List.nil_append]
    omega

/-- The call may forget that a file is new. -/
theorem Holds.forget (h : Holds (.file f :: L) s) : Holds L s := by
  have hcwd : s.cwdOf L = s.cwdOf (.file f :: L) := funext fun q => by simp [Sys.cwdOf]
  refine { h with count := fun b => ?_, busy := fun b => ?_, fresh := fun g => ?_ }
  · have hb := h.count b
    rw [Sys.cwdRefs, ← hcwd] at hb
    simpa [refsTo, Sys.cwdRefs] using hb
  · simpa using h.busy b
  · exact (List.count_le_count_cons ..).trans (h.fresh g)

/-- An open file that the call has allocated is closed. -/
theorem leaves_fileDrop_new :
    Leaves md p (.file f :: L) (perform (.fileDrop f)) fun r => dropped r ++ L := by
  intro s h
  have hfresh := h.fresh f
  rw [List.count_cons_self] at hfresh
  have hle := Bool.toNat_le (s.ftable f).isNew
  have hf : .file f ∉ L := List.count_eq_zero.mp (by omega)
  exact leaves_fileDrop hf s h.forget

/-! ### Current directories -/

/-- **A current directory changes**, and the call holds `Y` instead of `X`. -/
theorem Holds.moveCwd (h : Holds (X ++ L) s) (hq : q < NPROC)
    (hitem : ∀ i ∈ X ++ Y, i = .cwd q ∨ ∃ b, i = .ref b)
    (hic : t.icache = s.icache) (hft : t.ftable = s.ftable)
    (hproc : ∀ r, r ≠ q → (t.proc r).cwd = (s.proc r).cwd)
    (hmove : ∀ b, X.count (.ref b) + (if s.cwdOf (X ++ L) q = some b then 1 else 0) =
      Y.count (.ref b) + if t.cwdOf (Y ++ L) q = some b then 1 else 0) : Holds (Y ++ L) t := by
  have hX : ∀ i, i ≠ .cwd q → (∀ b, i ≠ .ref b) → X.count i = 0 := fun i h1 h2 =>
    List.count_eq_zero.mpr fun hi =>
      (hitem i (List.mem_append_left _ hi)).elim h1 fun ⟨b, hb⟩ => h2 b hb
  have hY : ∀ i, i ≠ .cwd q → (∀ b, i ≠ .ref b) → Y.count i = 0 := fun i h1 h2 =>
    List.count_eq_zero.mpr fun hi =>
      (hitem i (List.mem_append_right _ hi)).elim h1 fun ⟨b, hb⟩ => h2 b hb
  have hcwd : t.cwdOf (Y ++ L) =
      Function.update (s.cwdOf (X ++ L)) q (t.cwdOf (Y ++ L) q) := by
    funext r
    rw [Function.update_apply]
    split_ifs with hr
    · rw [hr]
    · have h1 : Item.cwd r ∉ X := List.count_eq_zero.mp (hX _ (by simpa using hr) (by simp))
      have h2 : Item.cwd r ∉ Y := List.count_eq_zero.mp (hY _ (by simpa using hr) (by simp))
      simp only [Sys.cwdOf, List.mem_append, h1, h2, false_or, hproc r hr]
  refine ⟨?_, ?_, fun b => ?_, fun b => ?_, ?_, ?_, fun g => ?_⟩
  · intro b hb c hc
    rw [hic]
    exact h.uniq b hb c hc
  · intro b
    rw [hic]
    exact h.lt b
  · have hb := h.count b
    have hupd := RefCount.count_update (h := s.cwdOf (X ++ L)) (Finset.mem_range.mpr hq)
      (t.cwdOf (Y ++ L) q) b
    have hmv := hmove b
    have h1 : refsTo X b = X.count (.ref b) := by simp [refsTo, hX]
    have h2 : refsTo Y b = Y.count (.ref b) := by simp [refsTo, hY]
    have hfiles : t.fileRefs b = s.fileRefs b := by rw [Sys.fileRefs, Sys.fileRefs, hft]
    rw [refsTo_append, h1, Sys.cwdRefs] at hb
    rw [refsTo_append, h2, hic, hfiles, Sys.cwdRefs, hcwd, hb]
    congr 1
    omega
  · have hb := h.busy b
    rw [List.count_append, hX _ (by simp) (by simp)] at hb
    rw [List.count_append, hY _ (by simp) (by simp), hic]
    exact hb
  · rw [hft]
    exact h.lt_file
  · rw [hft]
    exact h.closed
  · have hg := h.fresh g
    rw [List.count_append, hX _ (by simp) (by simp)] at hg
    rw [List.count_append, hY _ (by simp) (by simp), hft]
    exact hg

/-- The call takes over the reference of a current directory. -/
theorem Holds.takeCwd (h : Holds L s) (hq : q < NPROC) (hL : .cwd q ∉ L)
    (hc : (s.proc q).cwd = some a) : Holds (.ref a :: .cwd q :: L) s := by
  refine Holds.moveCwd (X := []) (Y := [.ref a, .cwd q]) h hq (by simp) rfl rfl (fun _ _ => rfl)
    fun b => ?_
  simp [Sys.cwdOf, hL, hc, List.count_cons]

/-- A current directory is assigned. -/
theorem leaves_setCwd (hp : p < NPROC) (hL : .cwd p ∉ L) (v : Option ℕ) :
    Leaves md p (.cwd p :: (found v ++ L)) (perform (.setCwd v)) fun _ => L := by
  intro s h
  refine wp_exec fun _ t hexec => ?_
  cases hexec
  refine Holds.moveCwd (X := .cwd p :: found v) (Y := []) h hp (fun i hi => ?_) rfl rfl
    (fun r hr => by simp [Sys.setProc, hr]) fun b => ?_
  · rw [List.append_nil] at hi
    rcases List.mem_cons.mp hi with rfl | hi
    · exact Or.inl rfl
    · obtain ⟨c, -, rfl⟩ := List.mem_map.mp hi
      exact Or.inr ⟨c, rfl⟩
  · cases v with
    | none => simp [Sys.cwdOf, Sys.setProc, found, hL]
    | some c => simp [Sys.cwdOf, Sys.setProc, found, hL, List.count_cons]

/-- The call takes over the reference of its current directory. -/
theorem Leaves.takeCwd {M : α → List Item} {k : Option ℕ → Fs α} (hp : p < NPROC)
    (hL : .cwd p ∉ L) (hnone : Leaves md p L (k none) M)
    (hsome : ∀ a, Leaves md p (.ref a :: .cwd p :: L) (k (some a)) M) :
    Leaves md p L (perform .cwd >>= k) M := by
  intro s h
  refine Prog.wp_bind_of_ok (run_perform .cwd) ?_
  cases hc : (s.proc p).cwd with
  | none => exact hnone s h
  | some c => exact hsome c s (h.takeCwd hp hL hc)

/-- The rules for what the calls of process `p` hold. -/
def refRules (md : Mode) (hp : p < NPROC) : Rules p where
  Ok _ L c _ M := Leaves md p L c M
  pure r h := .pure r h
  bind hc hk := hc.bind hk
  fail e := .fail e
  perm hp hr hc := hc.perm hp hr
  plain hc := .block (hc.mono fun _ => Op.Plain.block)
  block hc := .block hc
  bmap a bn := .block (only_bmap a bn)
  beginTrans := .quiet (Prog.only_lift trivial)
  commitTrans := .quiet (Prog.only_lift trivial)
  iget inum := leaves_iget inum
  ilock := leaves_ilock
  iunlock := leaves_iunlock
  iput := leaves_iput
  filealloc := leaves_filealloc
  fileDrop hf := leaves_fileDrop hf
  fileDrop_new := leaves_fileDrop_new
  setFile readable writable := leaves_setInode readable writable
  idupCwd hcwd hk := .idupCwd hp hcwd hk
  takeCwd hcwd hnone hsome := .takeCwd hp hcwd hnone hsome
  setCwd v hcwd := leaves_setCwd hp hcwd v

/-! ### Processes -/

/-- **`fork` and `thread_create`** hold a reference to the current directory for the child. -/
theorem wp_forkFiles (hp : p < NPROC) (h : Holds [] s) :
    Prog.wp (exec md p) forkFiles (fun _ t => ∃ c, (t.proc p).cwd = some c ∧ Holds [.ref c] t)
      (fun _ => True) s := by
  have hdup : ∀ fds, Leaves md p [] (dupFiles fds) fun _ => [] := by
    intro fds
    induction fds with
    | nil => exact .pure _ rfl
    | cons fd fds ih =>
      refine (Leaves.block (only_perform (o := .ofile fd) trivial)).bind fun r => ?_
      cases r with
      | none => exact ih
      | some f => exact leaves_filedup.bind fun _ => ih
  refine Prog.wp.bind (hdup _ s h) (fun _ t ht => ?_) fun _ _ => trivial
  refine Prog.wp_bind_of_ok (run_perform .cwd) ?_
  cases hc : (t.proc p).cwd with
  | none => trivial
  | some c =>
    have hpos : 0 < (t.icache c).ref := ht.cwd_pos hp ((if_neg (by simp)).trans hc)
    exact ⟨c, hc, ht.addRef hpos⟩

/-- The processes change only when the child gets what `fork` has prepared. -/
theorem wp_forkFiles_proc :
    Prog.wp (exec md p) forkFiles (fun _ t => t.proc = s.proc) (fun _ => True) s := by
  let P : Op → Prop := fun o => ∀ s r t, exec md p o s = .ok (r, t) → t.proc = s.proc
  have hofile : ∀ fd, P (.ofile fd) := fun fd s r t h => by
    cases h
    rfl
  have hcwd : P .cwd := fun s r t h => by
    cases h
    rfl
  have hidup : ∀ c, P (.idup c) := fun c s r t h => by
    cases h
    rfl
  have hfiledup : ∀ f, P (.filedup f) := fun f s r t h => by
    simp only [exec] at h
    split_ifs at h
    cases h
    rfl
  have hdup : ∀ fds, (dupFiles fds).Only P := by
    intro fds
    induction fds with
    | nil => trivial
    | cons fd fds ih =>
      exact (Prog.only_lift (hofile fd)).option ih fun f =>
        (Prog.only_lift (hfiledup f)).bind fun _ => ih
  have honly : forkFiles.Only P := by
    exact (hdup _).bind fun _ => (Prog.only_lift hcwd).option ⟨fun s r => r.elim, fun r => r.elim⟩
      fun c => (Prog.only_lift (hidup c)).bind fun _ => trivial
  exact honly.wp (I := fun t => t.proc = s.proc) (fun o u r t ho hu h => (ho u r t h).trans hu) rfl

end Calls

/-! ### Runs -/

/-- The calls, with the arguments that they fetch and the answers of the memory management. A
`fork` or a `thread_create` gets a slot for the child, or fails. -/
inductive RefCall
  | open (path : Option (List UInt8)) (omode : BitVec 32)
  | close (fd : ℤ)
  | link (old new : Option (List UInt8))
  | unlink (path : Option (List UInt8))
  | mkdir (path : Option (List UInt8))
  | mknod (path : Option (List UInt8)) (major minor : BitVec 16)
  | chdir (path : Option (List UInt8))
  | exec (mem : Memory) (path : Option (List UInt8))
  | fork (child : Option ℕ)
  | threadCreate (child : Option ℕ)
  | exit

/-- The code returns in the state `t`. -/
def Returns {α : Type} (p : ℕ) (c : Fs α) (s t : Sys) : Prop := ∃ r, Fs.run .real p c s = .ok (r, t)

/-- A new process in the slot `child`, which is not in use, or a call that fails. A pointer that
the parent has not set is left as it is. -/
def spawn (p : ℕ) (child : Option ℕ) (s t : Sys) : Prop :=
  match child with
  | none => t = s
  | some c => c < NPROC ∧ c ≠ p ∧ (s.proc c).cwd = none ∧ ∃ u, Returns p forkFiles s u ∧
      t = u.setProc c ⟨fun fd => ((u.proc p).ofile fd).or ((u.proc c).ofile fd), (u.proc p).cwd⟩

/-- Process `p` makes a call, which returns. -/
def RefCall.step (p : ℕ) : RefCall → Sys → Sys → Prop
  | .open path omode => Returns p (sysOpen path omode)
  | .close fd => Returns p (sysClose fd)
  | .link old new => Returns p (sysLink old new)
  | .unlink path => Returns p (sysUnlink path)
  | .mkdir path => Returns p (sysMkdir path)
  | .mknod path major minor => Returns p (sysMknod path major minor)
  | .chdir path => Returns p (sysChdir path)
  | .exec mem path => Returns p (execFile mem path)
  | .fork child => spawn p child
  | .threadCreate child => spawn p child
  | .exit => Returns p exitFiles

/-- The state that `userinit` leaves: there is one process, whose current directory is the root,
and no file is open. The disk is arbitrary. -/
structure Booted (s : Sys) : Prop where
  root : s.icache 0 = { noInode with inum := ROOTINO, ref := 1 }
  icache : ∀ a, a ≠ 0 → s.icache a = noInode
  ftable : ∀ f, s.ftable f = ⟨.none, 0, false, false, 0, 0⟩
  proc : ∀ q, s.proc q = ⟨fun _ => none, if q = 0 then some 0 else none⟩

/-- The runs of the kernel, a call at a time. -/
def refRuns : System Sys (ℕ × RefCall) where
  init := Booted
  step s l t := l.1 < NPROC ∧ l.2.step l.1 s t

/-- `userinit` leaves the counts right. -/
theorem Booted.holds {s : Sys} (h : Booted s) : Holds [] s := by
  have href : ∀ a, (s.icache a).ref = if a = 0 then 1 else 0 := fun a => by
    by_cases ha : a = 0
    · rw [ha, h.root, if_pos rfl]
    · rw [h.icache a ha, if_neg ha, noInode]
  have hcwd : s.cwdOf [] = Function.update (fun _ => none) 0 (some 0) := by
    funext q
    rw [Sys.cwdOf, if_neg (by simp), h.proc q, Function.update_apply]
  refine ⟨fun a _ b _ ha hb _ => ?_, fun a ha => ?_, fun a => ?_, fun a => ?_, fun f hf => ?_,
    fun f _ => ?_, fun f => ?_⟩
  · rw [href] at ha hb
    split_ifs at ha hb with h1 h2
    · rw [h1, h2]
    all_goals omega
  · rw [href] at ha
    split_ifs at ha with h1
    · rw [h1]
      decide
    · omega
  · have hupd := RefCount.count_update (h := fun _ : ℕ => none)
      (Finset.mem_range.mpr (show 0 < NPROC by decide)) (some 0) a
    have hnone : RefCount.count (Finset.range NPROC) (fun _ => none) a = 0 :=
      RefCount.count_eq_zero.mpr fun _ _ => by simp
    have hfiles : s.fileRefs a = 0 := RefCount.count_eq_zero.mpr fun f _ => by
      simp [h.ftable f, File.inode]
    rw [hnone, if_neg (by simp)] at hupd
    rw [href, Sys.cwdRefs, hcwd, hfiles]
    simp only [refsTo, List.count_nil]
    by_cases ha : a = 0
    · subst ha
      rw [if_pos rfl] at hupd ⊢
      omega
    · rw [if_neg ha]
      rw [if_neg (by simpa using Ne.symm ha)] at hupd
      omega
  · by_cases ha : a = 0
    · rw [ha, h.root]
      rfl
    · rw [h.icache a ha]
      rfl
  · rw [h.ftable f] at hf
    exact absurd hf (lt_irrefl 0)
  · rw [h.ftable f]
  · simp

/-- **One call** gives back everything it has taken. -/
theorem Holds.step {p : ℕ} {call : RefCall} {s t : Sys} (h : Holds [] s) (hp : p < NPROC)
    (hstep : call.step p s t) : Holds [] t := by
  have hret : ∀ {α : Type} {c : Fs α}, Returns p c s t → Leaves .real p [] c (fun _ => []) →
      Holds [] t := fun ⟨_, hr⟩ hc => (hc s h).ok hr
  have hspawn : ∀ {child}, spawn p child s t → Holds [] t := by
    rintro (_ | c) hs
    · rw [spawn] at hs
      exact hs ▸ h
    · obtain ⟨hc, hcp, hnone, u, ⟨r, hu⟩, rfl⟩ := hs
      obtain ⟨d, hd, hh⟩ := (wp_forkFiles hp h).ok hu
      have hproc := wp_forkFiles_proc.ok hu
      rw [hproc] at hd
      refine Holds.moveCwd (X := [.ref d]) (Y := []) hh hc (by simp) rfl rfl
        (fun q hq => by simp [Sys.setProc, hq]) fun b => ?_
      simp [Sys.cwdOf, Sys.setProc, hd, hproc, hnone, List.count_singleton]
  cases call with
  | «open» path omode => exact hret hstep ((refRules .real hp).sysOpen path omode)
  | close fd => exact hret hstep ((refRules .real hp).sysClose fd)
  | link old new => exact hret hstep ((refRules .real hp).sysLink old new)
  | unlink path => exact hret hstep ((refRules .real hp).sysUnlink path)
  | mkdir path | mknod path major minor =>
    exact hret hstep ((refRules .real hp).makeNode path _ _ _)
  | chdir path => exact hret hstep ((refRules .real hp).sysChdir path)
  | exec mem path => exact hret hstep ((refRules .real hp).execFile mem path)
  | fork child => exact hspawn hstep
  | threadCreate child => exact hspawn hstep
  | exit => exact hret hstep (refRules .real hp).exitFiles

/-- **The reference counts of the inode cache**: between the calls of every run there is at most
one entry in use for an inode, its count is the number of processes whose current directory it is
plus the number of open files that refer to it, and no entry is locked. -/
theorem inode_refs_exact {s : Sys} (h : refRuns.Reachable s) :
    (∀ a < NINODE, ∀ b < NINODE, 0 < (s.icache a).ref → 0 < (s.icache b).ref →
      (s.icache a).inum = (s.icache b).inum → a = b) ∧
    (∀ a, (s.icache a).ref =
      (((Finset.range NPROC).filter fun q => (s.proc q).cwd = some a).card +
        ((Finset.range NFILE).filter fun f => 0 < (s.ftable f).ref ∧
          (s.ftable f).type = .inode ∧ (s.ftable f).ip = a).card : ℕ)) ∧
    ∀ a, (s.icache a).busy = false := by
  have hholds : Holds [] s := by
    refine h.invariant (I := Holds []) (fun t (ht : Booted t) => ht.holds) ?_
    rintro t ⟨p, call⟩ u ht ⟨hp, hstep⟩
    exact ht.step hp hstep
  refine ⟨hholds.uniq, fun a => ?_, fun a => ?_⟩
  · have hcwd : s.cwdOf [] = fun q => (s.proc q).cwd := funext fun q => if_neg (by simp)
    have hfile : ∀ f, (s.ftable f).inode = some a ↔
        0 < (s.ftable f).ref ∧ (s.ftable f).type = .inode ∧ (s.ftable f).ip = a := fun f => by
      simp only [File.inode, Option.ite_none_right_eq_some, Option.some.injEq, and_assoc]
    have hcount := hholds.count a
    simp only [Sys.cwdRefs, Sys.fileRefs, RefCount.count, hcwd, hfile, refsTo, List.count_nil,
      Nat.add_zero] at hcount
    exact hcount
  · have hbusy := hholds.busy a
    rw [List.count_nil] at hbusy
    exact Bool.toNat_eq_zero.mp hbusy.symm

/-- A disk whose only inode is an empty root directory. -/
def rootDisk : Sys :=
  { smallDisk false 0 0 with
    disk := fun b => if b = 2 then putDinode Block.zero 1 ⟨T_DIR, 0, 0, 1, 0, fun _ => 0⟩
      else Block.zero
    icache := fun a => if a = 0 then { noInode with inum := ROOTINO, ref := 1 } else noInode
    proc := fun q => ⟨fun _ => none, if q = 0 then some 0 else none⟩ }

/-- `init` has opened the root directory, which is also its current one. -/
theorem inode_refs_exact_root : ∃ s, refRuns.Reachable s ∧ (s.icache 0).ref = 2 ∧
    ((Finset.range NPROC).filter fun q => (s.proc q).cwd = some 0).card +
      ((Finset.range NFILE).filter fun f => 0 < (s.ftable f).ref ∧
        (s.ftable f).type = .inode ∧ (s.ftable f).ip = 0).card = 2 := by
  have hinit : Booted rootDisk :=
    ⟨rfl, fun a ha => if_neg ha, fun _ => rfl, fun _ => rfl⟩
  -- the process opens its current directory
  have hrun : Prog.check (fun _ t => decide ((t.icache 0).ref = 2))
      (Fs.run .real 0 (sysOpen (some [slash]) 0) rootDisk) = true := by decide +kernel
  obtain ⟨r, t, hr, ht⟩ := Prog.exists_of_check hrun
  have hreach : refRuns.Reachable t :=
    .step (l := (0, .open (some [slash]) 0)) (.init hinit) ⟨by decide, r, hr⟩
  have href := of_decide_eq_true ht
  have hcount := (inode_refs_exact hreach).2.1 0
  exact ⟨t, hreach, href, by omega⟩

end Xv6
