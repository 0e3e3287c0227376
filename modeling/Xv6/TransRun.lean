import Xv6.CallRules
import Xv6.Interleave
import Xv6.SmallDisk
import Xv6.Transition

/-!
# Transactions and System Calls

Processes make system calls, whose operations are interleaved in any way. Each call opens and
closes its transactions in pairs, and calls `log_write` only in between (`Phased`), with two
exceptions: `bmap` allocates a block where it finds a hole, and `iput` frees an inode without links
when it gives back the last reference, wherever they are called from. So as long as neither happens
to a process outside its own transaction, every `log_write` belongs to the transaction of the
process that calls it.

`iput` does get there outside a transaction: in `exit`, for a current directory that has been
unlinked, for instance (`exit_outside_trans`).

## Main results

* `phaseRules`: the rules for transactions, and `phased_call`: every call obeys them.
* `log_write_in_own_trans`: **every `log_write` is in a transaction of its own process.**
* `exit_outside_trans`: a run that reaches the panic "write outside of trans".
-/

open Transition
open Function (update update_of_ne update_self)

namespace Xv6

/-! ### Phases -/

/-- Whether a process is in a transaction after an operation, if it may perform it inside
(`b = true`) or outside one. -/
def Op.phase (b : Bool) : Op → Option Bool
  | .logWrite _ _ => if b then some true else none
  | .beginTrans => if b then none else some true
  | .commitTrans => if b then some false else none
  | _ => some b

/-- The answers to an operation that are looked at: outside a transaction `bmap` finds no null
pointer, and `iput` does not have to free the inode. -/
def Op.Expected (b : Bool) : (o : Op) → o.Ret → Prop
  | .addr _ _, r => b = false → r ≠ 0
  | .entry _ _, r => b = false → r ≠ 0
  | .putEnter _, r => b = false → r = false
  | _, _ => True

/-- Code that starts inside or outside a transaction as `b` says and ends as `b'` says, and calls
`log_write` inside only. -/
def Phased {α : Type} : Bool → Fs α → Bool → Prop
  | b, .ret _, b' => b = b'
  | b, .op o k, b' => ∃ b₁, o.phase b = some b₁ ∧ ∀ r, o.Expected b r → Phased b₁ (k r) b'

namespace Phased

variable {α β : Type} {b b' b'' : Bool}

theorem pure (a : α) : Phased b (Pure.pure a : Fs α) b := rfl

theorem fail (e : Fault) : Phased b (Xv6.fail e : Fs α) b' := ⟨b, rfl, fun r => r.elim⟩

/-- The second part goes on in the phase in which the first one ends. -/
theorem bind {c : Fs α} {f : α → Fs β} (hc : Phased b c b') (hf : ∀ a, Phased b' (f a) b'') :
    Phased b (c >>= f) b'' := by
  induction c generalizing b with
  | ret a =>
    obtain rfl : b = b' := hc
    exact hf a
  | op o k ih =>
    obtain ⟨b₁, hb, hk⟩ := hc
    exact ⟨b₁, hb, fun r hr => ih r (hk r hr)⟩

/-- Code that may find nothing comes first. -/
theorem option {c : Fs (Option α)} {f : Option α → Fs β} (hc : Phased b c b')
    (hnone : Phased b' (f none) b'') (hsome : ∀ a, Phased b' (f (some a)) b'') :
    Phased b (c >>= f) b'' := by
  refine hc.bind fun r => ?_
  cases r with
  | none => exact hnone
  | some r => exact hsome r

/-- Both branches end in the same phase. -/
theorem ite {q : Prop} [Decidable q] {c c' : Fs α} (hc : Phased b c b') (hc' : Phased b c' b') :
    Phased b (if q then c else c') b' := by
  split_ifs
  · exact hc
  · exact hc'

theorem perform {o : Op} (ho : o.phase b = some b') : Phased b (Xv6.perform o) b' :=
  ⟨b', ho, fun _ _ => rfl⟩

/-- One operation comes first, of which only some answers are looked at. -/
theorem op_bind {o : Op} {f : o.Ret → Fs β} (ho : o.phase b = some b')
    (hf : ∀ r, o.Expected b r → Phased b' (f r) b'') : Phased b (Xv6.perform o >>= f) b'' :=
  ⟨b', ho, fun r hr => hf r hr⟩

/-- A transaction is opened outside of one. -/
theorem beginTrans : Phased false Xv6.beginTrans true := .perform rfl

/-- The transaction is committed by the process that is in it. -/
theorem commitTrans : Phased true Xv6.commitTrans false := .perform rfl

/-- Code all of whose operations may be performed in this phase and keep it. -/
theorem of_only {P : Op → Prop} {c : Fs α} (hP : ∀ o, P o → o.phase b = some b)
    (hc : c.Only P) : Phased b c b := by
  induction c with
  | ret a => rfl
  | op o k ih => exact ⟨b, hP o hc.1, fun r _ => ih r (hc.2 r)⟩

theorem plain {c : Fs α} (hc : c.Only Op.Plain) : Phased b c b :=
  of_only (fun o ho => by cases o <;> first | rfl | exact ho.elim) hc

theorem block {c : Fs α} (hc : c.Only Op.Block) : Phased true c true :=
  of_only (fun o ho => by cases o <;> first | rfl | exact ho.elim) hc

/-- `ilock` may be called in both phases. -/
theorem ilock (a : ℕ) : Phased b (Xv6.ilock a) b := by
  refine .bind (.perform (o := .lock a) rfl) fun _ => .plain ?_
  refine (Prog.only_lift (o := Op.inode a) trivial).bind fun v => ?_
  split_ifs
  · trivial
  · refine (Prog.only_lift (o := Op.bread _) trivial).bind fun bp =>
      (Prog.only_lift (o := Op.setDinode a _) trivial).bind fun _ =>
        (Prog.only_lift (o := Op.setValid a) trivial).bind fun _ => ?_
    split_ifs
    · exact ⟨trivial, fun r => r.elim⟩
    · trivial

theorem inodePtr (a k : ℕ) : Phased false (Xv6.inodePtr a k) false := by
  refine op_bind (o := .addr a k) rfl fun r hr => ?_
  rw [if_neg (hr rfl)]
  rfl

theorem blockPtr (blk k : ℕ) : Phased false (Xv6.blockPtr blk k) false := by
  refine op_bind (o := .entry blk k) rfl fun r hr => ?_
  rw [if_neg (hr rfl)]
  rfl

/-- `bmap` outside a transaction meets no hole. -/
theorem bmap (a bn : ℕ) : Phased b (Xv6.bmap a bn) b := by
  cases b with
  | true => exact .block (only_bmap a bn)
  | false =>
    unfold Xv6.bmap
    -- the limit is a large number: keep it out of the case splits
    generalize NDOUBLE = limit
    exact .ite (inodePtr _ _) (.ite (.bind (inodePtr _ _) fun _ => blockPtr _ _)
      (.ite (.bind (inodePtr _ _) fun _ => .bind (blockPtr _ _) fun _ => blockPtr _ _) (.fail _)))

/-- `iput` outside a transaction does not free the inode. -/
theorem iput (a : ℕ) : Phased b (Xv6.iput a) b := by
  refine op_bind (o := .putEnter a) rfl fun r hr => ?_
  cases b with
  | false =>
    obtain rfl : r = false := hr rfl
    rfl
  | true =>
    refine .ite (.bind (.block (only_perform (o := .mark (.free a)) trivial)) fun _ =>
      .bind (.block (only_itrunc a)) fun _ => .bind (.block (only_getInode a)) fun _ =>
        .bind (.block (only_setDinode a _)) fun _ => .bind (.block (only_iupdate a)) fun _ =>
          .perform rfl) (.pure _)

end Phased

/-- The rules for transactions. -/
def phaseRules (p : ℕ) : Rules p where
  Ok b _ c b' _ := Phased b c b'
  pure r _ := .pure r
  bind hc hk := hc.bind hk
  fail e := .fail e
  perm _ _ hc := hc
  plain hc := .plain hc
  block hc := .block hc
  bmap a bn := .bmap a bn
  beginTrans := .beginTrans
  commitTrans := .commitTrans
  iget _ := .perform rfl
  ilock := .ilock _
  iunlock := .perform rfl
  iput := .iput _
  filealloc := .perform rfl
  fileDrop _ := .perform rfl
  fileDrop_new := .perform rfl
  setFile _ _ := .perform rfl
  idupCwd _ hk := .option (.perform rfl) (.fail _) fun _ =>
    .bind (.bind (.perform rfl) fun _ => .pure _) hk
  takeCwd _ hnone hsome := .option (.perform rfl) hnone hsome
  setCwd _ _ := .perform rfl

/-! ### Reading and writing files -/

section Functions

variable {b : Bool}

theorem phased_readi (a off n : ℕ) : Phased b (readi a off n) b :=
  (phaseRules 0).readi (L := [.lock a]) List.mem_cons_self off n

theorem phased_writei (a : ℕ) (src : List UInt8) (off : ℕ) : Phased true (writei a src off) true :=
  (phaseRules 0).writei (L := [.lock a]) List.mem_cons_self src off

theorem phased_fdalloc (f : ℕ) : Phased b (fdalloc f) b := (phaseRules 0).fdalloc (L := []) f

/-- `exit` closes the files, each with transactions of its own. -/
theorem phased_closeAll (fs : List ℕ) : Phased false (closeAll fs) false := by
  induction fs with
  | nil => exact .pure _
  | cons f fs ih =>
    exact .bind ((phaseRules 0).fileclose (L := []) (f := f) (by simp)) fun _ => ih

theorem phased_advance (f r : ℕ) : Phased b (advance f r) b :=
  .bind (.perform (o := .file f) rfl) fun _ => .perform rfl

/-- `read` starts and ends outside of transactions. -/
theorem phased_fileread (f n : ℕ) (pipe : Option (List UInt8)) :
    Phased false (fileread f n pipe) false := by
  refine .bind (.perform (o := .file f) rfl) fun ff => .ite (.pure _) ?_
  cases ff.type with
  | none => exact .fail _
  | pipe => exact .pure _
  | inode =>
    refine .bind (.ilock _) fun _ => .bind (.perform (o := .file f) rfl) fun now =>
      .bind (phased_readi _ _ _) fun r => ?_
    dsimp only
    split_ifs
    · exact .bind (phased_advance _ _) fun _ => .bind (.perform rfl) fun _ => .pure _
    · exact .bind (.perform rfl) fun _ => .pure _

/-- One chunk of `filewrite` is one transaction. -/
theorem phased_filewriteChunk (f : ℕ) (src : List UInt8) :
    Phased false (filewriteChunk f src) false := by
  refine .bind .beginTrans fun _ => .bind (.perform (o := .file f) rfl) fun ff =>
    .bind (.ilock _) fun _ => .bind (.perform (o := .file f) rfl) fun now =>
      .bind (phased_writei _ _ _) fun r => ?_
  have hend : Phased true (do
      iunlock ff.ip
      commitTrans
      return r) false :=
    .bind (.perform rfl) fun _ => .bind .commitTrans fun _ => .pure _
  dsimp only
  split_ifs
  · exact .bind (phased_advance _ _) fun _ => hend
  · exact hend

/-- `write` has a transaction for each piece. -/
theorem phased_filewrite (f : ℕ) (src : List UInt8) (pipe : Option ℕ) :
    Phased false (filewrite f src pipe) false := by
  have hloop : ∀ fuel src, Phased false (filewriteLoop f fuel src) false := by
    intro fuel
    induction fuel with
    | zero => exact fun src => .pure _
    | succ fuel ih =>
      exact fun src => .ite (.pure _) (.option (phased_filewriteChunk _ _) (.pure _)
        fun r => .ite (ih _) (.fail _))
  refine .bind (.perform (o := .file f) rfl) fun ff => .ite (.pure _) ?_
  cases ff.type with
  | none => exact .fail _
  | pipe => exact .pure _
  | inode => exact .bind (hloop _ _) fun r => .ite (.pure _) (.pure _)

/-- `fstat` starts and ends outside of transactions. -/
theorem phased_filestat (f : ℕ) : Phased false (filestat f) false :=
  .bind (.perform (o := .file f) rfl) fun ff => .ite
    (.bind (.ilock _) fun _ => .bind (.bind (.perform (o := .inode ff.ip) rfl) fun _ => .pure _)
      fun _ => .bind (.perform rfl) fun _ => .pure _)
    (.pure _)

/-- `pipe` starts and ends outside of transactions, also where it closes the files again. -/
theorem phased_sysPipe (fd kalloc : Bool) : Phased false (sysPipe fd kalloc) false := by
  have hclose : ∀ {α : Type} (fs : List ℕ) (r : α), Phased false (do closeAll fs; return r) false :=
    fun fs r => .bind (phased_closeAll fs) fun _ => .pure _
  have halloc : Phased false (pipealloc kalloc) false :=
    .option (.perform rfl) (.pure _) fun f0 => .option (.perform rfl) (hclose _ _) fun f1 =>
      .ite (.bind (.perform rfl) fun _ => .bind (.perform rfl) fun _ => .pure _) (hclose _ _)
  refine .ite (.pure _) (.option halloc (.pure _) fun x => ?_)
  exact .option (phased_fdalloc x.1) (hclose _ _) fun fd0 => .option (phased_fdalloc x.2)
    (.bind (.perform rfl) fun _ => hclose _ _) fun fd1 => .pure _

/-- `fork` only takes references. -/
theorem phased_forkFiles : Phased false forkFiles false := by
  have hdup : ∀ fds, Phased false (dupFiles fds) false := by
    intro fds
    induction fds with
    | nil => exact .pure _
    | cons fd fds ih =>
      exact .option (.perform (o := .ofile fd) rfl) ih fun f =>
        .bind (.perform (o := .filedup f) rfl) fun _ => ih
  exact .bind (hdup _) fun _ => .option (.perform rfl) (.fail _) fun c =>
    .bind (.bind (.perform rfl) fun _ => .pure _) fun _ => .pure _

end Functions

/-! ### Runs -/

/-- The system calls about files, with the arguments that they fetch and the answers of the other
parts of the kernel. A `fork` or a `thread_create` gets a slot for the child, or fails. -/
inductive SysCall
  | dup (fd : ℤ)
  | read (fd : ℤ) (n : Option ℕ) (answer : Option (List UInt8))
  | write (fd : ℤ) (src : Option (List UInt8)) (answer : Option ℕ)
  | close (fd : ℤ)
  | fstat (fd : ℤ) (st : Bool)
  | link (old new : Option (List UInt8))
  | unlink (path : Option (List UInt8))
  | open (path : Option (List UInt8)) (omode : BitVec 32)
  | mkdir (path : Option (List UInt8))
  | mknod (path : Option (List UInt8)) (major minor : BitVec 16)
  | chdir (path : Option (List UInt8))
  | pipe (fd kalloc : Bool)
  | exec (mem : Memory) (path : Option (List UInt8))
  | fork (child : Option ℕ)
  | threadCreate (child : Option ℕ)
  | exit

/-- What `fork` and `thread_create` do, up to the point where the child gets its files: the child
is returned. -/
def forkCode : Option ℕ → Fs (Option ℕ)
  | none => return none
  | some child => do
    forkFiles
    return some child

/-- A call that makes no process. -/
def noChild {α : Type} (c : Fs α) : Fs (Option ℕ) := do
  let _ ← c
  return none

/-- The code of a call; a new process that has to get its files is returned. -/
def SysCall.code : SysCall → Fs (Option ℕ)
  | .dup fd => noChild (sysDup fd)
  | .read fd n answer => noChild (sysRead fd n answer)
  | .write fd src answer => noChild (sysWrite fd src answer)
  | .close fd => noChild (sysClose fd)
  | .fstat fd st => noChild (sysFstat fd st)
  | .link old new => noChild (sysLink old new)
  | .unlink path => noChild (sysUnlink path)
  | .open path omode => noChild (sysOpen path omode)
  | .mkdir path => noChild (sysMkdir path)
  | .mknod path major minor => noChild (sysMknod path major minor)
  | .chdir path => noChild (sysChdir path)
  | .pipe fd kalloc => noChild (sysPipe fd kalloc)
  | .exec mem path => noChild (execFile mem path)
  | .fork child => forkCode child
  | .threadCreate child => forkCode child
  | .exit => noChild exitFiles

/-- **Every call** opens and closes transactions in pairs. -/
theorem phased_call (c : SysCall) : Phased false c.code false := by
  have hdone : ∀ {α : Type} {c : Fs α}, Phased false c false → Phased false (noChild c) false :=
    fun hc => hc.bind fun _ => .pure _
  have hfork : ∀ child, Phased false (forkCode child) false := by
    rintro (_ | child)
    · exact .pure _
    · exact phased_forkFiles.bind fun _ => .pure _
  -- a call that looks up a descriptor first
  have hfd : ∀ {α : Type} (fd : ℤ) {k : Option ℕ → Fs α}, Phased false (k none) false →
      (∀ f, Phased false (k (some f)) false) → Phased false (argfd fd >>= k) false :=
    fun fd _ hnone hsome => .option ((phaseRules 0).argfd (L := []) fd) hnone hsome
  cases c with
  | dup fd =>
    exact hdone (hfd fd (.pure _) fun f => .option (phased_fdalloc f) (.pure _) fun fd =>
      .bind (.perform rfl) fun _ => .pure _)
  | read fd n answer =>
    refine hdone (hfd fd (.pure _) fun f => ?_)
    cases n with
    | none => exact .pure _
    | some n => exact phased_fileread f n answer
  | write fd src answer =>
    refine hdone (hfd fd (.pure _) fun f => ?_)
    cases src with
    | none => exact .pure _
    | some src => exact phased_filewrite f src answer
  | close fd => exact hdone ((phaseRules 0).sysClose fd)
  | fstat fd st => exact hdone (hfd fd (.pure _) fun f => .ite (phased_filestat f) (.pure _))
  | link old new => exact hdone ((phaseRules 0).sysLink old new)
  | unlink path => exact hdone ((phaseRules 0).sysUnlink path)
  | «open» path omode => exact hdone ((phaseRules 0).sysOpen path omode)
  | mkdir path | mknod path major minor => exact hdone ((phaseRules 0).makeNode path _ _ _)
  | chdir path => exact hdone ((phaseRules 0).sysChdir path)
  | pipe fd kalloc => exact hdone (phased_sysPipe fd kalloc)
  | exec mem path => exact hdone ((phaseRules 0).execFile mem path)
  | fork child => exact hfork child
  | threadCreate child => exact hfork child
  | exit => exact hdone (phaseRules 0).exitFiles

/-- The kernel, with the rest of the system call that each process is in. -/
abbrev Kernel := Pool Sys Op Op.Ret (Option ℕ)

/-- A process makes a call, performs its next operation, or gives its files to a child. -/
inductive KernelStep
  | call (c : SysCall)
  | op
  | spawn

/-- The runs of the kernel: the operations of the calls of all processes, in any order. At the start
no process is in a call and no transaction is open; the rest of the state is arbitrary. -/
def kernelRuns : System Kernel (ℕ × KernelStep) where
  init x := x.state.log.busy = false ∧ x.state.owner = none ∧ ∀ p, x.code p = .ret none
  step x l y :=
    match l.2 with
    | .call c => x.code l.1 = .ret none ∧ y = ⟨x.state, update x.code l.1 c.code⟩
    | .op => Pool.Step (exec .real) l.1 x y
    | .spawn => ∃ c, x.code l.1 = .ret (some c) ∧ x.code c = .ret none ∧
        (x.state.proc c).cwd = none ∧
        y = ⟨x.state.setProc c ⟨(x.state.proc l.1).ofile, (x.state.proc l.1).cwd⟩,
          update x.code l.1 (.ret none)⟩

/-- In the state `s` the operation finds neither a hole in a file nor the last reference to an inode
without links. -/
def Op.Calm (s : Sys) : Op → Prop
  | .addr ip k => (s.icache ip).din.addr k ≠ 0
  | .entry blk k => (s.disk blk).word k ≠ 0
  | .putEnter ip =>
    ¬ ((s.icache ip).ref = 1 ∧ (s.icache ip).valid = true ∧ (s.icache ip).din.nlink = 0)
  | _ => True

instance (s : Sys) (o : Op) : Decidable (o.Calm s) := by
  unfold Op.Calm
  split <;> infer_instance

/-- A process that is not in its own transaction calls `bmap` for no hole, and does not give back
the last reference to an inode without links. -/
def CalmOutside (x : Kernel) (l : ℕ × KernelStep) : Prop :=
  l.2 = .op → x.state.owner ≠ some l.1 → ∀ o k, x.code l.1 = .op o k → o.Calm x.state

section Runs

variable {md : Mode} {p : ℕ} {s t : Sys} {x y : Kernel}

/-- Operations other than `begin_trans` and `commit_trans` leave the owner of the transaction. -/
theorem exec_owner {o : Op} {r : o.Ret} (h : exec md p o s = .ok (r, t)) (hb : o ≠ .beginTrans)
    (hc : o ≠ .commitTrans) : t.owner = s.owner ∧ t.log.busy = s.log.busy := by
  cases o with
  | beginTrans => exact absurd rfl hb
  | commitTrans => exact absurd rfl hc
  | logWrite b data =>
    simp only [exec] at h
    split_ifs at h
    cases h
    exact ⟨rfl, Sys.logPut_busy ..⟩
  | _ =>
    simp only [exec] at h
    (repeat' split at h) <;>
      first
        | (cases h; done)
        | (cases h; exact ⟨rfl, rfl⟩)

/-- An operation that finds no hole and no inode to be freed has the answer that is looked at. -/
theorem Op.expected_of_calm {o : Op} {r : o.Ret} {b : Bool} (h : exec md p o s = .ok (r, t))
    (hcalm : b = false → o.Calm s) : o.Expected b r := by
  cases o with
  | addr ip k | entry blk k =>
    cases h
    exact hcalm
  | putEnter ip =>
    intro hb
    simp only [exec] at h
    rw [if_neg (hcalm hb)] at h
    cases h
    rfl
  | _ => trivial

/-- What holds between the steps: a transaction is open if it has an owner, and every process goes
on as it has to inside or outside its own transaction. -/
structure TransInv (x : Kernel) : Prop where
  busy : x.state.log.busy = x.state.owner.isSome
  code : ∀ p, Phased (decide (x.state.owner = some p)) (x.code p) false

/-- **One operation.** -/
theorem TransInv.op (h : TransInv x) (hstep : Pool.Step (exec .real) p x y)
    (hcalm : x.state.owner ≠ some p → ∀ o k, x.code p = .op o k → o.Calm x.state) :
    TransInv y := by
  obtain ⟨o, k, r, t, hcode, hexec, rfl⟩ := hstep
  have hp := h.code p
  rw [hcode] at hp
  obtain ⟨b', hphase, hk⟩ := hp
  have hrest : Phased b' (k r) false :=
    hk r (Op.expected_of_calm hexec fun hout => hcalm (of_decide_eq_false hout) o k hcode)
  -- the owner and the flag of the log after the operation
  have hnext : t.log.busy = t.owner.isSome ∧ decide (t.owner = some p) = b' ∧
      ∀ q, q ≠ p → decide (t.owner = some q) = decide (x.state.owner = some q) := by
    have hstay : o ≠ .beginTrans → o ≠ .commitTrans → b' = decide (x.state.owner = some p) →
        t.log.busy = t.owner.isSome ∧ decide (t.owner = some p) = b' ∧
          ∀ q, q ≠ p → decide (t.owner = some q) = decide (x.state.owner = some q) := by
      intro h1 h2 hb
      obtain ⟨howner, hbusy⟩ := exec_owner hexec h1 h2
      rw [howner, hbusy]
      exact ⟨h.busy, hb.symm, fun _ _ => rfl⟩
    cases o with
    | beginTrans =>
      simp only [exec] at hexec
      split_ifs at hexec with hbusy
      cases hexec
      have hnone : x.state.owner = none := by
        have := h.busy
        rw [Bool.eq_false_iff.mpr hbusy] at this
        exact Option.isSome_eq_false_iff.mp this.symm |> Option.isNone_iff_eq_none.mp
      simp only [Op.phase, hnone] at hphase
      cases hphase
      refine ⟨rfl, by simp, fun q hq => ?_⟩
      rw [hnone]
      simp [Ne.symm hq]
    | commitTrans =>
      cases hexec
      simp only [Op.phase] at hphase
      split_ifs at hphase with hin
      cases hphase
      have howner : x.state.owner = some p := of_decide_eq_true hin
      refine ⟨rfl, rfl, fun q hq => ?_⟩
      rw [howner]
      simp [Sys.commit, Ne.symm hq]
    | logWrite b data =>
      refine hstay (by simp) (by simp) ?_
      simp only [Op.phase] at hphase
      split_ifs at hphase with hin
      rw [hin]
      exact (Option.some.inj hphase).symm
    | _ => exact hstay (by simp) (by simp) (Option.some.inj hphase).symm
  obtain ⟨hbusy, hself, hother⟩ := hnext
  refine ⟨hbusy, fun q => ?_⟩
  by_cases hq : q = p
  · subst hq
    simp only [update_self, hself]
    exact hrest
  · simp only [update_of_ne hq, hother q hq]
    exact h.code q

/-- **One step.** -/
theorem TransInv.step {l : ℕ × KernelStep} (h : TransInv x) (hstep : kernelRuns.step x l y)
    (hcalm : CalmOutside x l) : TransInv y := by
  obtain ⟨p, l⟩ := l
  -- a process that is not in a call is outside
  have hout : ∀ {r}, x.code p = .ret r → decide (x.state.owner = some p) = false := fun hr => by
    have hp := h.code p
    rwa [hr] at hp
  cases l with
  | call c =>
    obtain ⟨hnone, rfl⟩ := hstep
    refine ⟨h.busy, fun q => ?_⟩
    by_cases hq : q = p
    · subst hq
      simp only [update_self, hout hnone]
      exact phased_call c
    · simp only [update_of_ne hq]
      exact h.code q
  | op => exact h.op hstep (hcalm rfl)
  | spawn =>
    obtain ⟨c, hsome, -, -, rfl⟩ := hstep
    refine ⟨h.busy, fun q => ?_⟩
    by_cases hq : q = p
    · subst hq
      simp only [update_self]
      exact hout hsome
    · simp only [update_of_ne hq]
      exact h.code q

/-- **Every `log_write` is in a transaction of its own process**, in every run in which processes
outside their own transactions meet no hole in a file and do not give back the last reference to an
inode without links; so none of them panics with "write outside of trans". -/
theorem log_write_in_own_trans (h : (kernelRuns.restrict CalmOutside).Reachable x) :
    ∀ p b data k, x.code p = .op (.logWrite b data) k →
      x.state.log.busy = true ∧ x.state.owner = some p ∧
        exec .real p (.logWrite b data) x.state ≠ .error (.panic .writeOutsideTrans) := by
  have hinv : TransInv x := by
    refine h.invariant (I := TransInv) ?_ ?_
    · rintro y ⟨hbusy, howner, hcode⟩
      refine ⟨by rw [hbusy, howner]; rfl, fun p => ?_⟩
      rw [hcode p, howner]
      rfl
    · rintro y l z hy ⟨hstep, hcalm⟩
      exact hy.step hstep hcalm
  intro p b data k hcode
  have hp := hinv.code p
  rw [hcode] at hp
  obtain ⟨b', hphase, -⟩ := hp
  simp only [Op.phase] at hphase
  split_ifs at hphase with hin
  have howner : x.state.owner = some p := of_decide_eq_true hin
  have hbusy : x.state.log.busy = true := by rw [hinv.busy, howner]; rfl
  refine ⟨hbusy, howner, ?_⟩
  by_cases hfull : Mode.real.limited = true ∧ x.state.log.isFull = true
  · simp [exec, hfull]
  · simp [exec, hbusy, hfull]

end Runs

/-! ### On a small file system -/

/-- A block of directory entries. -/
def entryBlock (es : List (List UInt8)) : Block := Block.ofBytes fun k => es.flatten.getD k 0

/-- A disk with the directories `/` and `/d`, and two processes of which the second is in `/d`. -/
def twoDirs : Sys :=
  { smallDisk false 2 4 with
    disk := fun b =>
      if b = 1 then (smallSb 2 4).toBlock
      else if b = 4 then Block.usedPrefix 7
      else if b = 2 then
        putDinode (putDinode Block.zero 1 ⟨T_DIR, 0, 0, 2, 48, fun i => if i.val = 0 then 5 else 0⟩)
          2 ⟨T_DIR, 0, 0, 1, 32, fun i => if i.val = 0 then 6 else 0⟩
      else if b = 5 then entryBlock [mkDirent dot 1, mkDirent dotdot 1, mkDirent [100] 2]
      else if b = 6 then entryBlock [mkDirent dot 2, mkDirent dotdot 1]
      else Block.zero
    icache := fun a =>
      if a = 0 then { noInode with inum := ROOTINO, ref := 1 }
      else if a = 1 then { noInode with inum := 2, ref := 1 }
      else noInode
    proc := fun q =>
      ⟨fun _ => none, if q = 0 then some 0 else if q = 1 then some 1 else none⟩ }

/-- The state before the calls. -/
def twoDirsIdle : Kernel := ⟨twoDirs, fun _ => .ret none⟩

theorem init_twoDirsIdle : kernelRuns.init twoDirsIdle := ⟨rfl, rfl, fun _ => rfl⟩

/-- The next operation of a process, if it meets no hole and frees no inode. -/
def nextCalm (x : Kernel) (l : ℕ × KernelStep) : Option Kernel :=
  match l.2, x.code l.1 with
  | .op, .op o _ => if o.Calm x.state then x.next (exec .real) l.1 else none
  | _, _ => none

/-- The computed step is a step. -/
theorem step_of_nextCalm {x y : Kernel} {l : ℕ × KernelStep} (h : nextCalm x l = some y) :
    (kernelRuns.restrict CalmOutside).step x l y := by
  obtain ⟨p, l⟩ := l
  cases l with
  | call c => cases h
  | spawn => cases h
  | op =>
    cases hc : x.code p with
    | ret a =>
      simp only [nextCalm, hc] at h
      cases h
    | op o k =>
      simp only [nextCalm, hc] at h
      split_ifs at h with hcalm
      refine ⟨Pool.step_of_next h, fun _ _ o' k' hm => ?_⟩
      cases hc.symm.trans hm
      exact hcalm

/-- The sector of a `log_write` that a process is about to call. -/
def logging (x : Kernel) (p : ℕ) : Option ℕ :=
  match x.code p with
  | .op (.logWrite b _) _ => some b
  | _ => none

/-- A process that has called `mkdir` is about to write to the log. -/
theorem log_write_in_own_trans_mkdir : ∃ x b data k,
    (kernelRuns.restrict CalmOutside).Reachable x ∧ x.code 1 = .op (.logWrite b data) k ∧
      x.state.owner = some 1 := by
  -- `mkdir` has found a free inode after twenty-five operations
  have hrun : ((List.replicate 25 (1, KernelStep.op)).foldlM nextCalm ⟨twoDirs,
      update twoDirsIdle.code 1 (SysCall.mkdir (some [slash, 101])).code⟩).map
        (fun x => logging x 1) = some (some 2) := by decide +kernel
  obtain ⟨x, hx, hlog⟩ := Option.map_eq_some_iff.mp hrun
  have hreach : (kernelRuns.restrict CalmOutside).Reachable x :=
    System.Reachable.foldlM (fun _ _ _ h => step_of_nextCalm h)
      (.step (l := (1, .call (.mkdir (some [slash, 101])))) (.init init_twoDirsIdle)
        ⟨⟨rfl, rfl⟩, fun h => by cases h⟩) hx
  obtain ⟨b, data, k, hcode⟩ : ∃ b data k, x.code 1 = .op (.logWrite b data) k := by
    unfold logging at hlog
    split at hlog
    · rename_i b data k hcode
      exact ⟨b, data, k, hcode⟩
    · cases hlog
  exact ⟨x, b, data, k, hreach, hcode, (log_write_in_own_trans hreach 1 b data k hcode).2.1⟩

/-- **The directory of a process is unlinked, and then the process exits**: the last reference to
the directory is given back outside a transaction, and `iput` gets to the panic of `log_write`. -/
theorem exit_outside_trans : ∃ x, kernelRuns.Reachable x ∧ ∃ o k, x.code 1 = .op o k ∧
    exec .real 1 o x.state = .error (.panic .writeOutsideTrans) := by
  have hstep : ∀ x y, kernelRuns.Reachable x → Pool.Step (exec .real) 1 x y →
      kernelRuns.Reachable y := fun x y hx h => hx.step (l := (1, .op)) h
  have hunlink : Prog.check (fun r _ => r.isNone)
      (Fs.run .real 1 (SysCall.unlink (some [slash, 100])).code twoDirs) = true := by decide +kernel
  have hexit : Prog.fault ((Fs.run .real 1 (SysCall.unlink (some [slash, 100])).code twoDirs).bind
      fun y => Fs.run .real 1 SysCall.exit.code y.2) = some (.panic .writeOutsideTrans) := by
    decide +kernel
  obtain ⟨r, t, hrun, hr⟩ := Prog.exists_of_check hunlink
  obtain rfl : r = none := Option.isNone_iff_eq_none.mp hr
  rw [hrun] at hexit
  have hcall : kernelRuns.Reachable ⟨twoDirs, update twoDirsIdle.code 1
      (SysCall.unlink (some [slash, 100])).code⟩ :=
    .step (l := (1, .call (.unlink (some [slash, 100])))) (.init init_twoDirsIdle) ⟨rfl, rfl⟩
  have hdone := Pool.run_steps hstep hcall rfl hrun
  have hlast : kernelRuns.Reachable ⟨t, update (update (update
      twoDirsIdle.code 1 (SysCall.unlink (some [slash, 100])).code) 1 (.ret none)) 1
        SysCall.exit.code⟩ := hdone.step (l := (1, .call .exit)) ⟨rfl, rfl⟩
  obtain ⟨x, o, k, hx, hcode, herr⟩ :=
    Pool.run_fails hstep hlast rfl (Prog.eq_error_of_fault hexit)
  exact ⟨x, hx, o, k, hcode, herr⟩

end Xv6
