import Xv6.ExitWait

/-!
# Ownership of Page Directories

`thread_create` lets several slots of the process table share one page directory, without a
count of them; `wait` frees the directory of every child it reaps, `exec` the one it replaces,
and `thread_join` none. So a directory can be freed while another slot still has it
(`freevm_in_use`). What rules this out is a discipline of the callers (`Disciplined`): a process
joins all its threads before it exits or calls `exec`, a thread does not call `exec`, and `wait`
does not reap a thread of its caller.

Under the discipline the processes that share a directory form a tree under `parent`
(`Forest.tree`) in which no zombie has children, so that a process whose parent is outside the
tree and that has no threads is alone in it (`alone`).

## Main results

* `freevm_in_use`: without the discipline, `wait` frees the caller's own page directory.
* `freevm_exclusive`: **in every run that keeps the discipline, `freevm` is only called on a
  directory that no other slot has**, and never twice on one.
-/

open Transition

namespace Xv6.Ptable

section Ownership

variable {n : ℕ} {initproc : Fin n} {s t : State n}

/-- Process `p` has no thread left: no child shares its page directory. -/
def State.NoThreads (s : State n) (p : Fin n) : Prop :=
  ∀ c, (s.proc c).state.Live → (s.proc c).parent = some p → (s.proc c).pgdir ≠ (s.proc p).pgdir

/-- What the callers have to respect: threads are joined, by `thread_join`, before their maker
exits or calls `exec`, and they do not call `exec` themselves. -/
def Disciplined (s : State n) : Act n → Prop
  | .exit p => s.NoThreads p
  | .wait p c => (s.proc c).pgdir ≠ (s.proc p).pgdir
  | .exec p => s.NoThreads p ∧
      ∀ q, (s.proc p).parent = some q → (s.proc q).pgdir ≠ (s.proc p).pgdir
  | .other => True

/-- What holds of the page directories in a run that keeps the discipline. -/
structure Forest (s : State n) : Prop where
  /-- of the processes that share a directory, only the oldest has its parent outside -/
  tree : ∀ p q, (s.proc p).state.Live → (s.proc q).state.Live →
    (s.proc p).pgdir = (s.proc q).pgdir → (s.birth p).uid < (s.birth q).uid →
    ∃ r, (s.proc q).parent = some r ∧ (s.proc r).pgdir = (s.proc q).pgdir
  zombie : ∀ z, (s.proc z).state = .zombie → s.NoThreads z
  freed_lt : ∀ d ∈ s.freed, d < s.nextPgdir
  freed : ∀ d ∈ s.freed, ∀ q, (s.proc q).state.Live → (s.proc q).pgdir ≠ d
  nodup : s.freed.Nodup

variable {p np c : Fin n}

/-- The parent inside the tree is active, and older. -/
theorem Forest.tree_active (hcore : Core initproc s) (h : Forest s) {q : Fin n}
    (hp : (s.proc p).state.Live) (hq : (s.proc q).state.Live)
    (hpg : (s.proc p).pgdir = (s.proc q).pgdir) (hlt : (s.birth p).uid < (s.birth q).uid) :
    ∃ r, (s.proc q).parent = some r ∧ (s.proc r).pgdir = (s.proc q).pgdir ∧
      (s.proc r).state.Active ∧ (s.birth r).uid < (s.birth q).uid := by
  obtain ⟨r, hr, hrpg⟩ := h.tree p q hp hq hpg hlt
  have hqi : q ≠ initproc := by
    rintro rfl
    rw [hcore.init_uid] at hlt
    omega
  obtain ⟨r', hr', hact, huid⟩ := hcore.parent q hq hqi
  obtain rfl : r = r' := by simpa [hr] using hr'
  exact ⟨r, hr, hrpg, hact, huid⟩

/-- **Who shares a directory with nobody**: a process that has no threads and whose parent has
another directory. -/
theorem alone (hcore : Core initproc s) (h : Forest s) (hp : (s.proc p).state.Live)
    (hkids : s.NoThreads p)
    (hpar : ∀ q, (s.proc p).parent = some q → (s.proc q).pgdir ≠ (s.proc p).pgdir) (q : Fin n)
    (hq : (s.proc q).state.Live) (hpg : (s.proc q).pgdir = (s.proc p).pgdir) : q = p := by
  -- strong induction on the age of `q`: its parent is older and in the same tree
  induction hk : (s.birth q).uid using Nat.strong_induction_on generalizing q with
  | _ k ih =>
    subst hk
    by_contra hne
    rcases Nat.lt_trichotomy (s.birth q).uid (s.birth p).uid with hlt | heq | hlt
    · obtain ⟨r, hr, hrpg⟩ := h.tree q p hq hp hpg hlt
      exact hpar r hr hrpg
    · exact hne (hcore.uid_inj q p hq.ne_unused hp.ne_unused heq)
    · obtain ⟨r, hr, hrpg, hact, huid⟩ := h.tree_active hcore hp hq hpg.symm hlt
      obtain rfl := ih _ huid r hact.live (hrpg.trans hpg) rfl
      exact hkids q hq hr hpg

/-- A step that makes no process, passes none to another parent, and frees no directory but a
new one. -/
theorem Forest.mono (h : Forest s) (hcore : Core initproc s)
    (hsame : ∀ q, (t.proc q).state.Live → Same s t q)
    (hpar : ∀ q, (t.proc q).state.Live → (t.proc q).parent = (s.proc q).parent)
    (hpg : ∀ r, (s.proc r).state.Active → (t.proc r).pgdir = (s.proc r).pgdir)
    (hz : ∀ q, (t.proc q).state = .zombie → (s.proc q).state = .zombie)
    (hle : s.nextPgdir ≤ t.nextPgdir) (hfreed : t.freed = s.freed) : Forest t where
  tree p q hp hq := by
    have hsp := hsame p hp
    have hsq := hsame q hq
    rw [hsp.pgdir, hsq.pgdir, hsp.birth, hsq.birth, hpar q hq]
    intro heq hlt
    obtain ⟨r, hr, hrpg, hact, -⟩ := h.tree_active hcore hsp.live hsq.live heq hlt
    exact ⟨r, hr, by rw [hpg r hact, hrpg]⟩
  zombie z hzt c hc hcpar := by
    rw [hpar c hc] at hcpar
    rw [(hsame c hc).pgdir, (hsame z (by simp [hzt])).pgdir]
    exact h.zombie z (hz z hzt) c (hsame c hc).live hcpar
  freed_lt d hd := (h.freed_lt d (hfreed ▸ hd)).trans_le hle
  freed d hd q hq := by
    rw [(hsame q hq).pgdir]
    exact h.freed d (hfreed ▸ hd) q (hsame q hq).live
  nodup := hfreed ▸ h.nodup

/-- Giving up a page directory that was never in the table. -/
theorem Forest.discard (h : Forest s) (hcl : Classes s) : Forest s.discard where
  tree := h.tree
  zombie := h.zombie
  freed_lt d hd := by
    rcases List.mem_cons.mp hd with rfl | hd
    · exact Nat.lt_succ_self _
    · exact (h.freed_lt d hd).trans (Nat.lt_succ_self _)
  freed d hd q hq := by
    rcases List.mem_cons.mp hd with rfl | hd
    · exact (hcl.pgdir_lt q hq).ne
    · exact h.freed d hd q hq
  nodup := List.nodup_cons.mpr ⟨fun hd => lt_irrefl _ (h.freed_lt _ hd), h.nodup⟩

/-- `fork` starts a tree of its own. -/
theorem Forest.fork (h : Forest s) (hcore : Core initproc s) (hcl : Classes s)
    (hpc : (s.proc p).pc = .alloced .fork np) : Forest (s.fork p np) := by
  obtain ⟨hp, hnp, -⟩ := hcore.alloced p _ np hpc
  have hne := (hcore.alloced_ne hpc).symm
  have hk : ∀ q, q ≠ np → Kept s (s.fork p np) q := fun q => kept_fork
  have hnew : ((s.fork p np).proc np).pgdir = s.nextPgdir := by
    simp [State.fork, State.create, hne]
  constructor
  · intro q r hq hr hqr hu
    obtain ⟨hqn, hrn⟩ := hcl.ne_fresh hnew (fun q hqn => (hk q hqn).same) hq hr hqr hu
    have hsq := (hk q hqn).same hq
    have hsr := (hk r hrn).same hr
    rw [hsq.pgdir, hsr.pgdir] at hqr
    rw [hsq.birth, hsr.birth] at hu
    obtain ⟨x, hx, hxpg, hact, -⟩ := h.tree_active hcore hsq.live hsr.live hqr hu
    have hxn : x ≠ np := by rintro rfl; simp [hnp] at hact
    exact ⟨x, (hk r hrn).parent.trans hx, by rw [(hk x hxn).pgdir, hsr.pgdir, hxpg]⟩
  · intro z hz c hc hcpar
    have hzn : z ≠ np := by
      rintro rfl
      simp [State.fork, State.create, hne] at hz
    have hzs := ((hk z hzn).state.eq_iff (by simp)).mp hz
    rw [(hk z hzn).pgdir]
    rcases eq_or_ne c np with rfl | hcn
    · rw [hnew]
      exact (hcl.pgdir_lt z (by simp [hzs])).ne'
    · rw [(hk c hcn).parent] at hcpar
      rw [(hk c hcn).pgdir]
      exact h.zombie z hzs c ((hk c hcn).state.live_iff.mp hc) hcpar
  · exact fun d hd => (h.freed_lt d hd).trans (Nat.lt_succ_self _)
  · intro d hd q hq
    rcases eq_or_ne q np with rfl | hqn
    · rw [hnew]
      exact (h.freed_lt d hd).ne'
    · rw [(hk q hqn).pgdir]
      exact h.freed d hd q ((hk q hqn).state.live_iff.mp hq)
  · exact h.nodup

/-- `thread_create` adds a leaf to the tree of its maker. -/
theorem Forest.threadCreate (h : Forest s) (hcore : Core initproc s) {st : BitVec 32}
    (hpc : (s.proc p).pc = .alloced (.thread st) np) : Forest (s.threadCreate p np st) := by
  obtain ⟨hp, hnp, hlt⟩ := hcore.alloced p _ np hpc
  have hne := (hcore.alloced_ne hpc).symm
  have hk : ∀ q, q ≠ np → Kept s (s.threadCreate p np st) q := fun q => kept_create
  have hnew : ((s.threadCreate p np st).proc np).pgdir = (s.proc p).pgdir := by
    simp [State.threadCreate, State.create, hne]
  have hparn : ((s.threadCreate p np st).proc np).parent = some p := by
    simp [State.threadCreate, State.create, hne]
  have huid : ((s.threadCreate p np st).birth np).uid = (s.birth np).uid := by
    simp [State.threadCreate, State.create]
  constructor
  · intro q r hq hr hqr hu
    rcases eq_or_ne r np with rfl | hrn
    · exact ⟨p, hparn, by rw [hnew, (hk p hne.symm).pgdir]⟩
    · have hsr := (hk r hrn).same hr
      rw [hsr.pgdir] at hqr
      rw [hsr.birth] at hu
      have key : ∃ x, (s.proc r).parent = some x ∧ (s.proc x).pgdir = (s.proc r).pgdir ∧
          (s.proc x).state.Active ∧ (s.birth x).uid < (s.birth r).uid := by
        rcases eq_or_ne q np with rfl | hqn
        · -- the maker stands in for the new thread
          rw [hnew] at hqr
          rw [huid] at hu
          exact h.tree_active hcore hp.live hsr.live hqr (hlt.trans hu)
        · have hsq := (hk q hqn).same hq
          rw [hsq.pgdir] at hqr
          rw [hsq.birth] at hu
          exact h.tree_active hcore hsq.live hsr.live hqr hu
      obtain ⟨x, hx, hxpg, hact, -⟩ := key
      have hxn : x ≠ np := by rintro rfl; simp [hnp] at hact
      exact ⟨x, (hk r hrn).parent.trans hx, by rw [(hk x hxn).pgdir, hsr.pgdir, hxpg]⟩
  · intro z hz c hc hcpar
    have hzn : z ≠ np := by
      rintro rfl
      simp [State.threadCreate, State.create, hne] at hz
    have hzs := ((hk z hzn).state.eq_iff (by simp)).mp hz
    rcases eq_or_ne c np with rfl | hcn
    · obtain rfl : p = z := by simpa [hparn] using hcpar
      simp [hzs] at hp
    · rw [(hk c hcn).parent] at hcpar
      rw [(hk c hcn).pgdir, (hk z hzn).pgdir]
      exact h.zombie z hzs c ((hk c hcn).state.live_iff.mp hc) hcpar
  · exact h.freed_lt
  · intro d hd q hq
    rcases eq_or_ne q np with rfl | hqn
    · rw [hnew]
      exact h.freed d hd p hp.live
    · rw [(hk q hqn).pgdir]
      exact h.freed d hd q ((hk q hqn).state.live_iff.mp hq)
  · exact h.nodup

/-- `exit` of a process without threads. -/
theorem Forest.exit (h : Forest s) (hcore : Core initproc s) (hr : s.Ready p) (hp : p ≠ initproc)
    (hkids : s.NoThreads p) : Forest (s.exit initproc p) := by
  have hsame : ∀ q, ((s.exit initproc p).proc q).state.Live → Same s (s.exit initproc p) q :=
    fun q => same_exit hr hp
  have hpg : ∀ q, ((s.exit initproc p).proc q).pgdir = (s.proc q).pgdir :=
    fun q => by rw [State.exit_proc hp]
  constructor
  · intro q r hq hr' hqr hu
    have hsq := hsame q hq
    have hsr := hsame r hr'
    rw [hpg, hpg] at hqr
    obtain ⟨x, hx, hxpg⟩ := h.tree q r hsq.live hsr.live hqr hu
    rcases eq_or_ne x p with rfl | hxp
    · exact absurd hxpg.symm (hkids r hsr.live hx)
    · refine ⟨x, ?_, by rw [hpg, hpg, hxpg]⟩
      rw [State.exit_proc hp]
      simp [hx, hxp]
  · intro z hz c hc hcpar
    rw [hpg, hpg]
    have hcs := (hsame c hc).live
    simp only [State.exit_proc hp] at hz hcpar
    split_ifs at hcpar with hcp
    · -- an adopted child has `init` for its parent, which is no zombie
      obtain rfl : initproc = z := by simpa using hcpar
      rw [if_neg hp.symm] at hz
      split_ifs at hz
      have := hcore.init_active
      simp [hz] at this
    · rcases eq_or_ne z p with rfl | hzp
      · exact absurd hcpar hcp
      · rw [if_neg hzp] at hz
        split_ifs at hz
        exact h.zombie z hz c hcs hcpar
  · exact h.freed_lt
  · intro d hd q hq
    rw [hpg]
    exact h.freed d hd q (hsame q hq).live
  · exact h.nodup

/-- A child that `wait` reaps in a disciplined run is alone with its page directory. -/
theorem Forest.alone_zombie (h : Forest s) (hcore : Core initproc s)
    (hpar : (s.proc c).parent = some p) (hz : (s.proc c).state = .zombie)
    (hpg : (s.proc c).pgdir ≠ (s.proc p).pgdir) (q : Fin n) (hq : (s.proc q).state.Live)
    (hqc : (s.proc q).pgdir = (s.proc c).pgdir) : q = c := by
  refine alone hcore h (by simp [hz]) (h.zombie c hz) (fun r hr => ?_) q hq hqc
  obtain rfl : p = r := by simpa [hpar] using hr
  exact hpg.symm

/-- `thread_join`, and `wait` for a child that is not a thread of the caller. -/
theorem Forest.reap (h : Forest s) (hcore : Core initproc s) (hcl : Classes s) {join : Bool}
    (hs : s.Scans join p) (hpar : (s.proc c).parent = some p) (hz : (s.proc c).state = .zombie)
    (hd : join = false → (s.proc c).pgdir ≠ (s.proc p).pgdir) : Forest (s.reap join p c) := by
  have hne := hs.ne hz
  have hk : ∀ q, q ≠ c → Kept s (s.reap join p c) q := fun q => kept_reap join hs.active
  -- all but the list of freed directories, as for the steps that free none
  have hkeep : Forest { s.reap join p c with freed := s.freed } := by
    refine h.mono hcore (fun q hq => { same_reap hs hz hq with })
      (fun q hq => (hk q ?_).parent) (fun r hr => (hk r ?_).pgdir)
      (fun q hq => ((hk q ?_).state.eq_iff (by simp)).mp hq) le_rfl rfl <;> rintro rfl
    · simp [reap_state join hne] at hq
    · simp [hz] at hr
    · simp [reap_state join hne] at hq
  cases join with
  | true => exact hkeep
  | false =>
    have hfreed : (s.reap false p c).freed = (s.proc c).pgdir :: s.freed := rfl
    have halone := h.alone_zombie hcore hpar hz (hd rfl)
    have hsame : ∀ q, ((s.reap false p c).proc q).state.Live → Same s (s.reap false p c) q :=
      fun q => same_reap hs hz
    have hclive : (s.proc c).state.Live := by simp [hz]
    refine ⟨hkeep.tree, hkeep.zombie, fun d hdm => ?_, fun d hdm q hq => ?_, ?_⟩
    · rw [hfreed] at hdm
      rcases List.mem_cons.mp hdm with rfl | hdm
      · exact hcl.pgdir_lt c hclive
      · exact h.freed_lt d hdm
    · rw [hfreed] at hdm
      rcases List.mem_cons.mp hdm with rfl | hdm
      · intro heq
        rw [(hsame q hq).pgdir] at heq
        obtain rfl := halone q (hsame q hq).live heq
        simp [reap_state false hne] at hq
      · exact hkeep.freed d hdm q hq
    · rw [hfreed]
      exact List.nodup_cons.mpr ⟨fun hdm => h.freed _ hdm c hclive rfl, h.nodup⟩

/-- `exec` by a process that is alone with its page directory. -/
theorem Forest.exec (h : Forest s) (hcore : Core initproc s) (hcl : Classes s) (hr : s.Ready p)
    (hkids : s.NoThreads p)
    (hpar : ∀ q, (s.proc p).parent = some q → (s.proc q).pgdir ≠ (s.proc p).pgdir) :
    Forest (s.exec p) := by
  have hp : (s.proc p).state.Live := by simp [hr.1]
  have halone := alone hcore h hp hkids hpar
  have hq' := Quiet.exec (s := s) p
  have hnew : ((s.exec p).proc p).pgdir = s.nextPgdir := by simp [State.exec]
  have hpg : ∀ q, q ≠ p → ((s.exec p).proc q).pgdir = (s.proc q).pgdir := by
    intro q hq
    simp [State.exec, hq]
  have hfreed : (s.exec p).freed = (s.proc p).pgdir :: s.freed := rfl
  constructor
  · intro q r hq hr' hqr hu
    obtain ⟨hqp, hrp⟩ :=
      hcl.ne_fresh hnew (fun q hqp => (hq'.kept (hpg q hqp)).same) hq hr' hqr hu
    rw [hq'.live_iff] at hq hr'
    rw [hpg q hqp, hpg r hrp] at hqr
    obtain ⟨x, hx, hxpg⟩ := h.tree q r hq hr' hqr hu
    have hxp : x ≠ p := by
      rintro rfl
      exact hrp (halone r hr' hxpg.symm)
    exact ⟨x, by rw [hq'.parent, hx], by rw [hpg x hxp, hpg r hrp, hxpg]⟩
  · intro z hz c hc hcpar
    rw [hq'.state_iff z (by simp)] at hz
    rw [hq'.live_iff] at hc
    rw [hq'.parent] at hcpar
    have hzp : z ≠ p := by rintro rfl; simp [hr.1] at hz
    rw [hpg z hzp]
    rcases eq_or_ne c p with rfl | hcp
    · rw [hnew]
      exact (hcl.pgdir_lt z (by simp [hz])).ne'
    · rw [hpg c hcp]
      exact h.zombie z hz c hc hcpar
  · intro d hd
    rw [hfreed] at hd
    rcases List.mem_cons.mp hd with rfl | hd
    · exact (hcl.pgdir_lt p hp).trans (Nat.lt_succ_self _)
    · exact (h.freed_lt d hd).trans (Nat.lt_succ_self _)
  · intro d hd q hq
    rw [hfreed] at hd
    rw [hq'.live_iff] at hq
    rcases eq_or_ne q p with rfl | hqp
    · rw [hnew]
      rcases List.mem_cons.mp hd with rfl | hd
      · exact (hcl.pgdir_lt q hq).ne'
      · exact (h.freed_lt d hd).ne'
    · rw [hpg q hqp]
      rcases List.mem_cons.mp hd with rfl | hd
      · exact fun heq => hqp (halone q hq heq)
      · exact h.freed d hd q hq
  · rw [hfreed]
    exact List.nodup_cons.mpr ⟨fun hd => h.freed _ hd p hp rfl, h.nodup⟩

/-- Every step that keeps the discipline keeps the forest. -/
theorem Forest.step {a : Act n} (h : Forest s) (hinv : Inv initproc s)
    (hs : Step initproc s a t) (hd : Disciplined s a) : Forest t := by
  have hcore := hinv.core
  have hcl := hinv.classes
  cases hs.kind with
  | quiet hq hpg hfreed =>
    exact h.mono hcore (fun q => (hq.kept (hpg q)).same) (fun q _ => hq.parent q) (fun q _ => hpg q)
      (fun q => (hq.state_iff q (by simp)).mp) hq.nextPgdir hfreed
  | discard => exact h.discard hcl
  | @allocproc p np m hr hnp =>
    have hk : ∀ q, q ≠ np → Kept s (s.allocproc p np m) q := fun q => kept_allocproc
    refine h.mono hcore (fun q => same_allocproc hr hnp) (fun q hq => (hk q ?_).parent)
      (fun q hq => (hk q ?_).pgdir) (fun q hq => ((hk q ?_).state.eq_iff (by simp)).mp hq)
      le_rfl rfl <;> rintro rfl
    · simp [allocproc_state hr hnp] at hq
    · simp [hnp] at hq
    · simp [allocproc_state hr hnp] at hq
  | @giveUp p np m f _ hf hpc ht =>
    have hne := hcore.alloced_ne hpc
    have hnp := (hcore.alloced p m np hpc).2.1
    have hk : ∀ q, q ≠ np → Kept s (s.giveUp p np f) q := fun q => kept_giveUp
    have h' : Forest (s.giveUp p np f) := by
      refine h.mono hcore (fun q => same_giveUp hne) (fun q hq => (hk q ?_).parent)
        (fun q hq => (hk q ?_).pgdir) (fun q hq => ((hk q ?_).state.eq_iff (by simp)).mp hq)
        le_rfl rfl <;> rintro rfl
      · simp [giveUp_state hne] at hq
      · simp [hnp] at hq
      · simp [giveUp_state hne] at hq
    have hcl' : Classes (s.giveUp p np f) := hcl.mono le_rfl fun q => same_giveUp hne
    rcases ht with rfl | rfl
    · exact h'
    · exact h'.discard hcl'
  | fork hpc => exact h.fork hcore hcl hpc
  | threadCreate hpc => exact h.threadCreate hcore hpc
  | exit hr hp => exact h.exit hcore hr hp hd
  | @reap join p c hsc hpar hpg hz =>
    refine h.reap hcore hcl hsc hpar hz fun hj => ?_
    subst hj
    exact hd
  | exec hr => exact h.exec hcore hcl hr hd.1 hd.2

/-- The first process has a directory of its own. -/
theorem forest_init (initproc : Fin n) : Forest (initState initproc) where
  tree _ _ _ _ _ h := absurd h (lt_irrefl _)
  zombie z hz := by
    simp only [initState] at hz
    split_ifs at hz
  freed_lt d hd := by simp [initState] at hd
  freed d hd := by simp [initState] at hd
  nodup := List.nodup_nil

/-- The forest stands in every state of a disciplined run. -/
theorem forest_reachable (hs : ((system initproc).restrict Disciplined).Reachable s) :
    Forest s := by
  induction hs with
  | init h =>
    obtain rfl : _ = initState initproc := h
    exact forest_init initproc
  | step hr hst ih => exact ih.step (inv_reachable hr.mono) hst.1 hst.2

/-- A step calls `freevm` rightly: on a directory that was not freed before and that no slot
has, other than the one that is reaped or replaced. -/
def FreevmOk (s : State n) (a : Act n) (t : State n) : Prop :=
  ∀ d, t.freed = d :: s.freed → d ∉ s.freed ∧
    ∀ q, (s.proc q).state.Live → (s.proc q).pgdir = d → a.freesOf = some q

/-- **Without the discipline the caller of `wait` can lose its own page directory**: `init`
makes a thread, the thread exits, and `wait` frees the directory that both of them have. -/
theorem freevm_in_use : ∃ (s t : State 2) (a : Act 2), (system 0).Reachable s ∧
    (system 0).step s a t ∧ (s.proc 0).state = .running ∧
    t.freed = (s.proc 0).pgdir :: s.freed ∧ a.freesOf ≠ some 0 ∧ ¬ FreevmOk s a t := by
  have h₀ : (system (0 : Fin 2)).Reachable (initState 0) := .init rfl
  have h₁ := h₀.step (.schedule (p := 0) rfl (by decide) (by decide))
  have h₂ := h₁.step (.allocproc (p := 0) (m := .thread 4096) ⟨rfl, rfl⟩ rfl)
  have h₃ := h₂.step (.threadCreate (p := 0) rfl rfl)
  have h₄ := h₃.step (.schedule (p := 1) rfl (by decide) (by decide))
  have h₅ := h₄.step (.exit (p := 1) ⟨rfl, rfl⟩ (by decide))
  refine ⟨_, _, _, h₅, @Step.reap _ _ _ false 0 1 (Or.inl ⟨rfl, rfl⟩) rfl, rfl, rfl, ?_, ?_⟩
  · simp [Act.freesOf, Act.reap]
  · intro h
    have := (h 1 rfl).2 0 (by simp [ProcState.Live, State.exit_proc]; decide) rfl
    simp [Act.freesOf, Act.reap] at this

/-- **Page directories are freed by their last owner.** In every run whose steps all keep the
discipline, no directory is freed twice, and every call of `freevm` is right. -/
theorem freevm_exclusive (hs : ((system initproc).restrict Disciplined).Reachable s) :
    s.freed.Nodup ∧
      ∀ a t, ((system initproc).restrict Disciplined).step s a t → FreevmOk s a t := by
  have hinv := inv_reachable hs.mono
  have h := forest_reachable hs
  have hnew : s.nextPgdir ∉ s.freed ∧ ∀ q, (s.proc q).state.Live →
      (s.proc q).pgdir ≠ s.nextPgdir :=
    ⟨fun hd => lt_irrefl _ (h.freed_lt _ hd), fun q hq => (hinv.classes.pgdir_lt q hq).ne⟩
  refine ⟨h.nodup, fun a t hst d hd => ?_⟩
  obtain ⟨hstep, hdis⟩ : Step initproc s a t ∧ Disciplined s a := hst
  cases hstep.kind with
  | quiet _ _ hfreed => simp [hfreed] at hd
  | discard =>
    obtain ⟨rfl, -⟩ := List.cons.inj hd
    exact ⟨hnew.1, fun q hq heq => absurd heq (hnew.2 q hq)⟩
  | allocproc => simp [State.allocproc, State.setBirth, State.set] at hd
  | giveUp _ _ ht =>
    rcases ht with rfl | rfl
    · simp [State.giveUp, State.set] at hd
    · obtain ⟨rfl, -⟩ := List.cons.inj hd
      exact ⟨hnew.1, fun q hq heq => absurd heq (hnew.2 q hq)⟩
  | fork => simp [State.fork, State.create, State.setBirth, State.set] at hd
  | threadCreate => simp [State.threadCreate, State.create, State.setBirth, State.set] at hd
  | exit => simp [State.exit] at hd
  | @reap join p c hsc hpar hpg hz =>
    have hclive : (s.proc c).state.Live := by simp [hz]
    cases join with
    | true => simp [State.reap] at hd
    | false =>
      obtain ⟨rfl, -⟩ := List.cons.inj hd
      refine ⟨fun hdm => h.freed _ hdm c hclive rfl, fun q hq heq => ?_⟩
      obtain rfl := h.alone_zombie hinv.core hpar hz hdis q hq heq
      rfl
  | @exec p hr =>
    have hp : (s.proc p).state.Live := by simp [hr.1]
    obtain ⟨rfl, -⟩ := List.cons.inj hd
    refine ⟨fun hdm => h.freed _ hdm p hp rfl, fun q hq heq => ?_⟩
    obtain rfl := alone hinv.core h hp hdis.1 hdis.2 q hq heq
    rfl

/-- A disciplined run in which `wait` frees the directory of a forked child. -/
theorem freevm_exclusive_fork : ∃ s : State 2,
    ((system 0).restrict Disciplined).Reachable s ∧ s.freed = [2] ∧ s.freed.Nodup := by
  have h₀ : ((system (0 : Fin 2)).restrict Disciplined).Reachable (initState 0) := .init rfl
  have h₁ := h₀.step ⟨.schedule (p := 0) rfl (by decide) (by decide), trivial⟩
  have h₂ := h₁.step ⟨.allocproc (p := 0) (m := .fork) ⟨rfl, rfl⟩ rfl, trivial⟩
  have h₃ := h₂.step ⟨.fork (p := 0) rfl rfl, trivial⟩
  have h₄ := h₃.step ⟨.schedule (p := 1) rfl (by decide) (by decide), trivial⟩
  have h₅ := h₄.step ⟨.exit (p := 1) ⟨rfl, rfl⟩ (by decide), Fin.forall_fin_two.mpr
    ⟨fun _ hc => absurd hc (by decide), fun _ hc => absurd hc (by decide)⟩⟩
  have h₆ := h₅.step ⟨@Step.reap _ _ _ false 0 1 (Or.inl ⟨rfl, rfl⟩) rfl,
    (by decide : (2 : ℕ) ≠ 1)⟩
  exact ⟨_, h₆, rfl, (freevm_exclusive h₆).1⟩

end Ownership

end Xv6.Ptable
