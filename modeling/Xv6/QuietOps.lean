import Xv6.Sysfile

/-!
# The Operations of Code on Blocks

Most operations leave alone which references there are: the counts, the locks and the inode
numbers of the inode cache, the open files and the current directories (`Op.Quiet`). Among them
are those of the code that works on blocks (`Op.Block`): the block allocator, the block tree of an
inode and the loops of `readi`, `writei` and `itrunc` perform no others. They neither open nor
close a transaction.

## Main results

* `exec_quiet`: what a quiet operation leaves alone.
* `only_balloc`, `only_bmap`, `only_itrunc`, `only_writeiLoop`: code that works on blocks.
-/

namespace Xv6

/-- The operation changes no reference. -/
def Op.Quiet : Op → Prop
  | .iget _ | .idup _ | .lock _ | .unlock _ | .putEnter _ | .putLeave _ => False
  | .filealloc | .filedup _ | .fileDrop _ | .setFile _ _ | .setCwd _ => False
  | _ => True

/-- The operation reads, or assigns a field that is neither a reference nor part of the log. -/
def Op.Plain : Op → Prop
  | .bread _ | .inode _ | .setDinode _ _ | .setValid _ | .file _ | .ofile _ | .setOfile _ _ => True
  | .cwd | .devRead _ | .fail _ => True
  | _ => False

/-- The operation is one of those that code performs on blocks. -/
def Op.Block : Op → Prop
  | .logWrite _ _ | .mark _ | .addr _ _ | .entry _ _ => True
  | o => o.Plain

theorem Op.Block.quiet {o : Op} (h : o.Block) : o.Quiet := by
  cases o <;> trivial

theorem Op.Plain.block {o : Op} (h : o.Plain) : o.Block := by
  cases o <;> trivial

/-- The same references, locks, open files and current directories. -/
structure SameRefs (s t : Sys) : Prop where
  ref : ∀ a, (t.icache a).ref = (s.icache a).ref
  busy : ∀ a, (t.icache a).busy = (s.icache a).busy
  inum : ∀ a, (t.icache a).inum = (s.icache a).inum
  ftable : t.ftable = s.ftable
  cwd : ∀ q, (t.proc q).cwd = (s.proc q).cwd

section Refs

variable {s t u : Sys}

theorem SameRefs.refl (s : Sys) : SameRefs s s :=
  ⟨fun _ => rfl, fun _ => rfl, fun _ => rfl, rfl, fun _ => rfl⟩

/-- Two stretches of code one after the other. -/
theorem SameRefs.trans (h : SameRefs s t) (h' : SameRefs t u) : SameRefs s u where
  ref a := (h'.ref a).trans (h.ref a)
  busy a := (h'.busy a).trans (h.busy a)
  inum a := (h'.inum a).trans (h.inum a)
  ftable := h'.ftable.trans h.ftable
  cwd q := (h'.cwd q).trans (h.cwd q)

/-- A change of an entry that keeps its count, its lock and its inode number. -/
theorem SameRefs.setInode {a : ℕ} {v : Inode} (href : v.ref = (s.icache a).ref)
    (hbusy : v.busy = (s.icache a).busy) (hinum : v.inum = (s.icache a).inum) :
    SameRefs s (s.setInode a v) := by
  refine ⟨fun b => ?_, fun b => ?_, fun b => ?_, rfl, fun _ => rfl⟩
  all_goals
    by_cases hb : b = a
    · subst hb
      simpa [Sys.setInode]
    · simp [Sys.setInode, hb]

variable {md : Mode} {p : ℕ}

/-- **A quiet operation** leaves the references alone. -/
theorem exec_quiet {o : Op} {r : o.Ret} (ho : o.Quiet) (h : exec md p o s = .ok (r, t)) :
    SameRefs s t := by
  cases o with
  | bread b | inode a | addr a k | entry b k | file f | ofile fd | cwd =>
    cases h
    exact .refl _
  | setDinode a d | setValid a =>
    cases h
    exact .setInode rfl rfl rfl
  | commitTrans =>
    cases h
    exact ⟨fun _ => rfl, fun _ => rfl, fun _ => rfl, rfl, fun _ => rfl⟩
  | logWrite b data | beginTrans | devRead n =>
    simp only [exec] at h
    split_ifs at h
    cases h
    exact ⟨fun _ => rfl, fun _ => rfl, fun _ => rfl, rfl, fun _ => rfl⟩
  | mark m =>
    cases m with
    | alloc b =>
      simp only [exec] at h
      split_ifs at h
      cases h
      exact .refl _
    | free ip =>
      cases h
      exact .refl _
  | setOfile fd v =>
    cases h
    refine ⟨fun _ => rfl, fun _ => rfl, fun _ => rfl, rfl, fun q => ?_⟩
    by_cases hq : q = p
    · subst hq
      simp [Sys.setProc]
    · simp [Sys.setProc, hq]
  | fail e => cases h
  | _ => exact ho.elim

/-- Code all of whose operations are quiet leaves the references alone. -/
theorem wp_quiet {α : Type} {c : Fs α} (hc : c.Only Op.Quiet) :
    Prog.wp (exec md p) c (fun _ t => SameRefs s t) (fun _ => True) s :=
  hc.wp (fun _ _ _ _ ho hs h => hs.trans (exec_quiet ho h)) (.refl s)

end Refs

/-! ### Code on blocks -/

section Blocks

variable {α : Type}

theorem only_perform {o : Op} (ho : o.Block) : (perform o).Only Op.Block := Prog.only_lift ho

theorem only_fail (e : Fault) : (fail e : Fs α).Only Op.Block := ⟨trivial, fun r => r.elim⟩

theorem only_bread (b : ℕ) : (bread b).Only Op.Block := only_perform trivial

theorem only_logWrite (b : ℕ) (data : Block) : (logWrite b data).Only Op.Block :=
  only_perform trivial

theorem only_getInode (ip : ℕ) : (getInode ip).Only Op.Block := only_perform trivial

theorem only_setDinode (ip : ℕ) (d : Dinode) : (setDinode ip d).Only Op.Block :=
  only_perform trivial

theorem only_readsb : readsb.Only Op.Block := (only_bread 1).bind fun _ => trivial

/-- `balloc` uses blocks and the log only. -/
theorem only_balloc : balloc.Only Op.Block := by
  refine only_readsb.bind fun sb => ?_
  generalize List.range ((sb.size + (BPB - 1)) / BPB) = ks
  induction ks with
  | nil => exact only_fail _
  | cons k ks ih =>
    refine (only_bread _).bind fun bp => ?_
    cases findClear bp (sb.size - BPB * k) with
    | none => exact ih
    | some bi =>
      exact (only_perform (o := .mark _) trivial).bind fun _ => (only_logWrite _ _).bind fun _ =>
        ((only_bread _).bind fun _ => only_logWrite _ _).bind fun _ => trivial

/-- `bfree` uses blocks and the log only. -/
theorem only_bfree (b : ℕ) : (bfree b).Only Op.Block := by
  refine only_readsb.bind fun sb => (only_bread _).bind fun bp => ?_
  split_ifs
  · exact only_logWrite _ _
  · exact only_fail _

theorem only_iupdate (ip : ℕ) : (iupdate ip).Only Op.Block :=
  (only_getInode ip).bind fun _ => (only_bread _).bind fun _ => only_logWrite _ _

theorem only_updateInode (ip : ℕ) (f : Dinode → Dinode) : (updateInode ip f).Only Op.Block :=
  (only_getInode ip).bind fun _ => (only_setDinode _ _).bind fun _ => only_iupdate ip

/-- So does a pointer in the inode. -/
theorem only_inodePtr (ip k : ℕ) : (inodePtr ip k).Only Op.Block := by
  refine Prog.Only.bind (only_perform trivial) fun addr => ?_
  split_ifs
  · exact only_balloc.bind fun a => (only_getInode ip).bind fun _ =>
      (only_setDinode _ _).bind fun _ => trivial
  · trivial

/-- So does an entry of an indirect block. -/
theorem only_blockPtr (blk k : ℕ) : (blockPtr blk k).Only Op.Block := by
  refine Prog.Only.bind (only_perform trivial) fun addr => ?_
  split_ifs
  · exact only_balloc.bind fun a => (only_bread blk).bind fun _ =>
      (only_logWrite _ _).bind fun _ => trivial
  · trivial

/-- So does `bmap`. -/
theorem only_bmap (ip bn : ℕ) : (bmap ip bn).Only Op.Block := by
  unfold bmap
  -- the limit is a large number: keep it out of the case splits
  generalize NDOUBLE = limit
  split
  · exact only_inodePtr _ _
  · simp only []
    split
    · exact (only_inodePtr _ _).bind fun _ => only_blockPtr _ _
    · split
      · exact (only_inodePtr _ _).bind fun _ => (only_blockPtr _ _).bind fun _ =>
          only_blockPtr _ _
      · exact only_fail _

/-- So does the loop of `itrunc` over the direct blocks. -/
theorem only_itruncDirect (ip : ℕ) (is : List ℕ) : (itruncDirect ip is).Only Op.Block := by
  induction is with
  | nil => trivial
  | cons i is ih =>
    refine (only_getInode ip).bind fun v => ?_
    split_ifs
    · exact (only_bfree _).bind fun _ => (only_getInode ip).bind fun _ =>
        (only_setDinode _ _).bind fun _ => ih
    · exact ih

/-- So does the loop over the entries of an indirect block. -/
theorem only_itruncIndirect (blk : ℕ) (js : List ℕ) : (itruncIndirect blk js).Only Op.Block := by
  induction js with
  | nil => trivial
  | cons j js ih =>
    refine (only_bread _).bind fun bp => ?_
    split_ifs
    · exact only_fail _
    · exact (only_bfree _).bind fun _ => ih
    · exact ih

/-- So does `itrunc`. -/
theorem only_itrunc (ip : ℕ) : (itrunc ip).Only Op.Block := by
  have hend : Prog.Only Op.Block (do
      let v ← getInode ip
      setDinode ip { v.din with size := 0 }
      iupdate ip) :=
    (only_getInode ip).bind fun _ => (only_setDinode _ _).bind fun _ => only_iupdate ip
  refine (only_itruncDirect _ _).bind fun _ => (only_getInode ip).bind fun v => ?_
  split_ifs
  · exact (only_itruncIndirect _ _).bind fun _ => (only_bfree _).bind fun _ =>
      (only_getInode ip).bind fun _ => (only_setDinode _ _).bind fun _ => hend
  · exact hend

/-- So does the loop of `writei`. -/
theorem only_writeiLoop (ip fuel off : ℕ) (src : List UInt8) :
    (writeiLoop ip fuel off src).Only Op.Block := by
  induction fuel generalizing off src with
  | zero => trivial
  | succ fuel ih =>
    rw [writeiLoop]
    split_ifs
    · trivial
    · exact (only_bmap _ _).bind fun _ => (only_bread _).bind fun _ =>
        (only_logWrite _ _).bind fun _ => ih _ _

end Blocks

end Xv6
