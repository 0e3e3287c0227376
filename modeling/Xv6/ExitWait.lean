import Xv6.Ptable

/-!
# Exit, Wait and Join

What holds of the process table in every run of `fork`, `thread_create`, `exit`, `wait`,
`thread_join`, `kill` and `exec`: a child is reaped once, after it exited, by its parent and
under the right number and stack; no live process is without a parent to reap it; and no
process sleeps in `wait` or `thread_join` next to a zombie it should have found.

Most steps only change `state` between its three active values, `chan`, `killed` and the
control state (`Quiet`); the invariants below are preserved by all of these at once, and then
by each of the steps that allocate, fill in, abandon, leave or reap a slot.

## Main results

* `Core.step`, `Hist.step`, `Classes.step`, `Asleep.step`: the four parts of the invariant are
  preserved by every step.
* `exit_wait_protocol`: **the protocol of exit, wait and join** holds in every reachable
  state.
-/

open Transition

namespace Xv6.Ptable

section Protocol

variable {n : ℕ} {initproc : Fin n} {s t : State n}

/-- The states of a process that can still run. -/
def ProcState.Active (st : ProcState) : Prop :=
  st = .sleeping ∨ st = .runnable ∨ st = .running

/-- The states of a process whose slot has been filled in. -/
def ProcState.Live (st : ProcState) : Prop :=
  st ≠ .unused ∧ st ≠ .embryo

theorem ProcState.Active.live {st : ProcState} (h : st.Active) : st.Live := by
  rcases h with rfl | rfl | rfl <;> simp [ProcState.Live]

theorem ProcState.Live.ne_unused {st : ProcState} (h : st.Live) : st ≠ .unused := h.1

@[simp] theorem ProcState.not_active : ¬ Active .unused ∧ ¬ Active .embryo ∧ ¬ Active .zombie := by
  simp [Active]

@[simp] theorem ProcState.live_cases :
    ¬ Live .unused ∧ ¬ Live .embryo ∧ Live .running ∧ Live .zombie := by
  simp [Live]

/-- A process stays in its state, or goes from one active state to another. -/
def ProcState.Steady (st st' : ProcState) : Prop := st' = st ∨ st.Active ∧ st'.Active

/-- A step that is steady does not start or end a process. -/
theorem ProcState.Steady.active_iff {st st' : ProcState} (h : st.Steady st') :
    st'.Active ↔ st.Active := by
  rcases h with rfl | ⟨hs, ht⟩
  · exact Iff.rfl
  · exact ⟨fun _ => hs, fun _ => ht⟩

/-- It does not change a state that is not active. -/
theorem ProcState.Steady.eq_iff {st st' x : ProcState} (h : st.Steady st') (hx : ¬ x.Active) :
    st' = x ↔ st = x := by
  rcases h with rfl | ⟨hs, ht⟩
  · exact Iff.rfl
  · exact ⟨fun h => absurd (h ▸ ht) hx, fun h => absurd (h ▸ hs) hx⟩

theorem ProcState.Steady.live_iff {st st' : ProcState} (h : st.Steady st') :
    st'.Live ↔ st.Live := by
  rw [Live, Live, Ne, Ne, h.eq_iff not_active.1, h.eq_iff not_active.2.1]

/-! ### What the steps do -/

/-- A step that leaves every process in its place: it changes no identity and no parent, and
`state` only between active values. -/
structure Quiet (s t : State n) : Prop where
  parent : ∀ q, (t.proc q).parent = (s.proc q).parent
  pid : ∀ q, (t.proc q).pid = (s.proc q).pid
  stack : ∀ q, (t.proc q).threadStackTop = (s.proc q).threadStackTop
  state : ∀ q, (t.proc q).state = (s.proc q).state ∨
    (s.proc q).state.Active ∧ (t.proc q).state.Active
  alloced : ∀ q m np, (t.proc q).pc = .alloced m np → (s.proc q).pc = .alloced m np
  birth : t.birth = s.birth
  nextUid : t.nextUid = s.nextUid
  nextPgdir : s.nextPgdir ≤ t.nextPgdir
  hist : t.hist = s.hist

theorem Quiet.active_iff (h : Quiet s t) (q : Fin n) :
    (t.proc q).state.Active ↔ (s.proc q).state.Active :=
  ProcState.Steady.active_iff (h.state q)

/-- A quiet step neither makes nor unmakes a process that is not active. -/
theorem Quiet.state_iff (h : Quiet s t) (q : Fin n) {st : ProcState} (hst : ¬ st.Active) :
    (t.proc q).state = st ↔ (s.proc q).state = st :=
  ProcState.Steady.eq_iff (h.state q) hst

theorem Quiet.live_iff (h : Quiet s t) (q : Fin n) :
    (t.proc q).state.Live ↔ (s.proc q).state.Live :=
  ProcState.Steady.live_iff (h.state q)

/-- Changing one process within its active states is quiet. -/
theorem Quiet.set {p : Fin n} {f : Proc n → Proc n}
    (hid : ∀ q, (f q).parent = q.parent ∧ (f q).pid = q.pid ∧
      (f q).threadStackTop = q.threadStackTop)
    (hst : (f (s.proc p)).state = (s.proc p).state ∨
      (s.proc p).state.Active ∧ (f (s.proc p)).state.Active)
    (hpc : (f (s.proc p)).pc = (s.proc p).pc ∨ ∀ m np, (f (s.proc p)).pc ≠ .alloced m np) :
    Quiet s (s.set p f) := by
  constructor <;> try (first | rfl | exact le_rfl)
  all_goals
    intro q
    rcases eq_or_ne q p with rfl | hq <;> simp [*]
  intro m np hm
  rcases hpc with h | h
  · rw [← h, hm]
  · exact absurd hm (h m np)

/-- Waking sleepers is quiet. -/
theorem Quiet.wakeup1 (chan : Chan n) :
    Quiet s { s with proc := wakeup1 chan s.proc } := by
  constructor <;> try (first | rfl | exact le_rfl)
  all_goals
    intro q
    simp only [wakeup1_apply]
  · split
    · rename_i h
      exact Or.inr ⟨Or.inl h.1, Or.inr (Or.inl rfl)⟩
    · exact Or.inl rfl
  · exact fun m np h => h

/-- A scan by `p` is made by a process that can run. -/
theorem State.Scans.active {join : Bool} {p : Fin n} (h : s.Scans join p) :
    (s.proc p).state.Active := by
  rcases h with h | h
  · exact Or.inr (Or.inr h.1)
  · exact Or.inr (Or.inl h.1)

/-- A scan that finds no zombie is quiet. -/
theorem Quiet.noZombie {join : Bool} {p : Fin n} (h : s.Scans join p) :
    Quiet s (s.noZombie join p) := by
  refine Quiet.set (fun q => ?_) (Or.inr ⟨h.active, ?_⟩) (Or.inr fun m np => ?_)
  · split <;> exact ⟨rfl, rfl, rfl⟩
  · split
    · exact Or.inr (Or.inr rfl)
    · exact Or.inl rfl
  · split
    · simp
    · cases join <;> simp

/-- Nothing but the count and the fate of page directories changes. -/
theorem Quiet.pgdirs (s : State n) (k : ℕ) (ds : List ℕ) :
    Quiet s { s with nextPgdir := s.nextPgdir + k, freed := ds } where
  parent _ := rfl
  pid _ := rfl
  stack _ := rfl
  state _ := Or.inl rfl
  alloced _ _ _ h := h
  birth := rfl
  nextUid := rfl
  nextPgdir := Nat.le_add_right _ _
  hist := rfl

/-- `exec` is quiet: it changes nothing but a page directory. -/
theorem Quiet.exec (p : Fin n) : Quiet s (s.exec p) where
  parent q := by rcases eq_or_ne q p with rfl | h <;> simp [State.exec, *]
  pid q := by rcases eq_or_ne q p with rfl | h <;> simp [State.exec, *]
  stack q := by rcases eq_or_ne q p with rfl | h <;> simp [State.exec, *]
  state q := Or.inl (by rcases eq_or_ne q p with rfl | h <;> simp [State.exec, *])
  alloced q m np := by rcases eq_or_ne q p with rfl | h <;> simp [State.exec, *]
  birth := rfl
  nextUid := rfl
  nextPgdir := Nat.le_succ _
  hist := rfl

/-- The critical section of `exit`, slot by slot. -/
theorem State.exit_proc {p : Fin n} (hp : p ≠ initproc) (q : Fin n) :
    (s.exit initproc p).proc q =
      { s.proc q with
        parent := if (s.proc q).parent = some p then some initproc else (s.proc q).parent
        state :=
          if q = p then .zombie
          else if (s.proc q).state = .sleeping ∧ ((s.proc q).chan = .ofPtr (s.proc p).parent ∨
              (s.proc q).chan = .proc initproc ∧
                ∃ j, (s.proc j).parent = some p ∧ (s.proc j).state = .zombie) then .runnable
          else (s.proc q).state } := by
  have hz : ∀ j, (if (s.proc j).state = .sleeping ∧ (s.proc j).chan = .ofPtr (s.proc p).parent
      then ProcState.runnable else (s.proc j).state) = .zombie ↔ (s.proc j).state = .zombie := by
    intro j
    split <;> simp_all
  rcases eq_or_ne q p with rfl | hq
  · simp [State.exit, adopt_apply hp, wakeup1_apply]
  · simp only [State.exit, Function.update_of_ne hq, adopt_apply hp, wakeup1_apply, if_neg hq, hz]
    by_cases h1 : (s.proc q).state = .sleeping <;>
      by_cases h2 : (s.proc q).chan = .ofPtr (s.proc p).parent <;> simp [h1, h2]

theorem State.exit_state_self {p : Fin n} (hp : p ≠ initproc) :
    ((s.exit initproc p).proc p).state = .zombie := by
  simp [State.exit_proc hp]

/-- `exit` takes no other process out of its active states. -/
theorem State.exit_state {p q : Fin n} (hp : p ≠ initproc) (hq : q ≠ p) :
    (s.proc q).state.Steady ((s.exit initproc p).proc q).state := by
  simp only [State.exit_proc hp, if_neg hq]
  split
  · rename_i h
    exact Or.inr ⟨Or.inl h.1, Or.inr (Or.inl rfl)⟩
  · exact Or.inl rfl

/-- What a step can do, with all steps that leave the processes in their places taken as
one. -/
inductive Kind (initproc : Fin n) (s : State n) : Act n → State n → Prop
  | quiet {u} : Quiet s u → (∀ q, (u.proc q).pgdir = (s.proc q).pgdir) → u.freed = s.freed →
      Kind initproc s .other u
  | discard : Kind initproc s .other s.discard
  | allocproc {p np m} : s.Ready p → (s.proc np).state = .unused →
      Kind initproc s .other (s.allocproc p np m)
  | giveUp {p np m f u} : (∀ q, (f q).pc = q.pc) → (s.proc p).pc = .alloced m np →
      u = s.giveUp p np f ∨ u = (s.giveUp p np f).discard → Kind initproc s .other u
  | fork {p np} : (s.proc p).pc = .alloced .fork np → Kind initproc s .other (s.fork p np)
  | threadCreate {p np stack} : (s.proc p).pc = .alloced (.thread stack) np →
      Kind initproc s .other (s.threadCreate p np stack)
  | exit {p} : s.Ready p → p ≠ initproc → Kind initproc s (.exit p) (s.exit initproc p)
  | reap {join p c} : s.Scans join p → (s.proc c).parent = some p →
      (join → (s.proc c).pgdir = (s.proc p).pgdir) → (s.proc c).state = .zombie →
      Kind initproc s (.reap join p c) (s.reap join p c)
  | exec {p} : s.Ready p → Kind initproc s (.exec p) (s.exec p)

variable {a : Act n} {q np p c : Fin n} {m : Maker} {f : Proc n → Proc n} {join : Bool}

/-- **Inversion of steps.** -/
theorem Step.kind (h : Step initproc s a t) : Kind initproc s a t := by
  have hset : ∀ {p : Fin n} {f : Proc n → Proc n}, (∀ q, (f q).pgdir = q.pgdir) →
      ∀ q, ((s.set p f).proc q).pgdir = (s.proc q).pgdir := by
    intro p f hf q
    rw [State.set_proc]
    split <;> simp [hf]
  cases h with
  | allocproc hr hnp => exact .allocproc hr (findUnused_spec hnp)
  | noStack _ hpc => exact .giveUp (fun _ => rfl) hpc (Or.inl rfl)
  | noPgdir _ hpc =>
    exact .giveUp (f := fun q => { q with pgdir := 0 }) (fun _ => rfl) hpc (Or.inl rfl)
  | noMemory _ hpc =>
    exact .giveUp (f := fun q => { q with pgdir := 0 }) (fun _ => rfl) hpc (Or.inr rfl)
  | fork _ hpc => exact .fork hpc
  | threadCreate _ hpc => exact .threadCreate hpc
  | exit hr hp => exact .exit hr hp
  | reap hs hz =>
    obtain ⟨h1, h2, h3⟩ := findZombie_spec hz
    exact .reap hs h1 h2 h3
  | noZombie hs hz =>
    refine .quiet (Quiet.noZombie hs) (hset fun q => ?_) rfl
    split <;> rfl
  | exec hr => exact .exec hr
  | execFail hr => exact .discard
  | @kill pid p hpid =>
    refine .quiet (Quiet.set (fun _ => ⟨rfl, rfl, rfl⟩) ?_ (Or.inl rfl)) (hset fun _ => rfl) rfl
    by_cases h : (s.proc p).state = .sleeping
    · exact Or.inr ⟨Or.inl h, Or.inr (Or.inl (if_pos h))⟩
    · exact Or.inl (if_neg h)
  | schedule hst h1 h2 =>
    exact .quiet (Quiet.set (fun _ => ⟨rfl, rfl, rfl⟩)
      (Or.inr ⟨Or.inr (Or.inl hst), Or.inr (Or.inr rfl)⟩) (Or.inl rfl)) (hset fun _ => rfl) rfl
  | yield hst =>
    exact .quiet (Quiet.set (fun _ => ⟨rfl, rfl, rfl⟩)
      (Or.inr ⟨Or.inr (Or.inr hst), Or.inr (Or.inl rfl)⟩) (Or.inl rfl)) (hset fun _ => rfl) rfl
  | sleep hst =>
    exact .quiet (Quiet.set (fun _ => ⟨rfl, rfl, rfl⟩)
      (Or.inr ⟨Or.inr (Or.inr hst), Or.inl rfl⟩) (Or.inl rfl)) (hset fun _ => rfl) rfl
  | wakeup =>
    exact .quiet (Quiet.wakeup1 _) (fun q => by simp only [wakeup1_apply]) rfl

/-! ### Which processes a step leaves alone -/

/-- Slot `q` holds the same process before and after a step. -/
structure Same (s t : State n) (q : Fin n) : Prop where
  live : (s.proc q).state.Live
  pid : (t.proc q).pid = (s.proc q).pid
  pgdir : (t.proc q).pgdir = (s.proc q).pgdir
  stack : (t.proc q).threadStackTop = (s.proc q).threadStackTop
  birth : t.birth q = s.birth q

/-- Slot `q` is as before a step, but for its channel, its mark and its control state. -/
structure Kept (s t : State n) (q : Fin n) : Prop where
  state : (s.proc q).state.Steady (t.proc q).state
  parent : (t.proc q).parent = (s.proc q).parent
  pid : (t.proc q).pid = (s.proc q).pid
  pgdir : (t.proc q).pgdir = (s.proc q).pgdir
  stack : (t.proc q).threadStackTop = (s.proc q).threadStackTop
  birth : t.birth q = s.birth q

theorem Kept.same (h : Kept s t q) (hq : (t.proc q).state.Live) : Same s t q :=
  ⟨h.state.live_iff.mp hq, h.pid, h.pgdir, h.stack, h.birth⟩

theorem Kept.used_iff (h : Kept s t q) :
    (t.proc q).state ≠ .unused ↔ (s.proc q).state ≠ .unused :=
  (h.state.eq_iff (by simp)).not

theorem Quiet.kept (h : Quiet s t) (hpg : (t.proc q).pgdir = (s.proc q).pgdir) : Kept s t q :=
  ⟨h.state q, h.parent q, h.pid q, hpg, h.stack q, by rw [h.birth]⟩

theorem kept_allocproc (hq : q ≠ np) : Kept s (s.allocproc p np m) q := by
  rcases eq_or_ne q p with rfl | hqp <;> constructor <;>
    simp [State.allocproc, ProcState.Steady, *]

theorem kept_giveUp (hq : q ≠ np) : Kept s (s.giveUp p np f) q := by
  rcases eq_or_ne q p with rfl | hqp <;> constructor <;>
    simp [State.giveUp, ProcState.Steady, *]

theorem kept_create (hq : q ≠ np) : Kept s (s.create p np m f) q := by
  rcases eq_or_ne q p with rfl | hqp <;> constructor <;>
    simp [State.create, ProcState.Steady, *]

theorem kept_fork (hq : q ≠ np) : Kept s (s.fork p np) q :=
  { kept_create hq with }

/-- A scan that takes a zombie off the table leaves the other slots. -/
theorem kept_reap (join : Bool) (hp : (s.proc p).state.Active) (hq : q ≠ c) :
    Kept s (s.reap join p c) q := by
  rcases eq_or_ne q p with rfl | hqp
  · have hst : ((s.reap join q c).proc q).state = .running := by simp [State.reap]
    refine ⟨Or.inr ⟨hp, hst ▸ Or.inr (Or.inr rfl)⟩, ?_, ?_, ?_, ?_, rfl⟩ <;>
      simp [State.reap, hq]
  · constructor <;> simp [State.reap, ProcState.Steady, *]

/-- A process that scans is not the zombie that it finds. -/
theorem State.Scans.ne (h : s.Scans join p) (hz : (s.proc c).state = .zombie) : c ≠ p := by
  rintro rfl
  simpa [hz] using h.active

theorem allocproc_state (hr : s.Ready p) (hnp : (s.proc np).state = .unused) :
    ((s.allocproc p np m).proc np).state = .embryo := by
  have hne : np ≠ p := by rintro rfl; simp [hr.1] at hnp
  simp [State.allocproc, hne]

theorem giveUp_state (hne : p ≠ np) : ((s.giveUp p np f).proc np).state = .unused := by
  simp [State.giveUp, hne.symm]

theorem reap_state (join : Bool) (hne : c ≠ p) : ((s.reap join p c).proc c).state = .unused := by
  simp [State.reap, hne]

/-- The live processes after `allocproc` were there before. -/
theorem same_allocproc (hr : s.Ready p) (hnp : (s.proc np).state = .unused)
    (hq : ((s.allocproc p np m).proc q).state.Live) : Same s (s.allocproc p np m) q := by
  refine (kept_allocproc ?_).same hq
  rintro rfl
  simp [allocproc_state hr hnp] at hq

/-- The live processes after a failed `fork` were there before. -/
theorem same_giveUp (hne : p ≠ np) (hq : ((s.giveUp p np f).proc q).state.Live) :
    Same s (s.giveUp p np f) q := by
  refine (kept_giveUp ?_).same hq
  rintro rfl
  simp [giveUp_state hne] at hq

/-- The live processes after `wait` were there before. -/
theorem same_reap (hs : s.Scans join p) (hz : (s.proc c).state = .zombie)
    (hq : ((s.reap join p c).proc q).state.Live) : Same s (s.reap join p c) q := by
  refine (kept_reap join hs.active ?_).same hq
  rintro rfl
  simp [reap_state join (hs.ne hz)] at hq

/-- The live processes after `exit` were there before. -/
theorem same_exit (hr : s.Ready p) (hp : p ≠ initproc)
    (hq : ((s.exit initproc p).proc q).state.Live) : Same s (s.exit initproc p) q := by
  refine ⟨?_, ?_, ?_, ?_, rfl⟩
  · rcases eq_or_ne q p with rfl | hqp
    · simp [hr.1]
    · exact (State.exit_state hp hqp).live_iff.mp hq
  all_goals rw [State.exit_proc hp]

/-! ### Who is in the table -/

/-- The part of the invariant that speaks of identities, parents and slots being filled. -/
structure Core (initproc : Fin n) (s : State n) : Prop where
  init_active : (s.proc initproc).state.Active
  init_uid : (s.birth initproc).uid = 0
  uid_lt : ∀ p, (s.proc p).state ≠ .unused → (s.birth p).uid < s.nextUid
  uid_inj : ∀ p q, (s.proc p).state ≠ .unused → (s.proc q).state ≠ .unused →
    (s.birth p).uid = (s.birth q).uid → p = q
  /-- a process that fills in a slot is active, and older than the process it makes -/
  alloced : ∀ p m np, (s.proc p).pc = .alloced m np → (s.proc p).state.Active ∧
    (s.proc np).state = .embryo ∧ (s.birth p).uid < (s.birth np).uid
  /-- no slot is filled in twice -/
  claim : ∀ p q m m' np, (s.proc p).pc = .alloced m np → (s.proc q).pc = .alloced m' np → p = q
  /-- every process but `init` has a parent that can reap it -/
  parent : ∀ p, (s.proc p).state.Live → p ≠ initproc → ∃ q, (s.proc p).parent = some q ∧
    (s.proc q).state.Active ∧ (s.birth q).uid < (s.birth p).uid

/-- Steps that change no slot for good keep the invariant. -/
theorem Core.quiet (h : Core initproc s) (hq : Quiet s t) : Core initproc t where
  init_active := (hq.active_iff _).mpr h.init_active
  init_uid := by rw [hq.birth, h.init_uid]
  uid_lt p hp := by
    rw [Ne, hq.state_iff p (by simp)] at hp
    rw [hq.birth, hq.nextUid]
    exact h.uid_lt p hp
  uid_inj p q hp hp' := by
    rw [Ne, hq.state_iff _ (by simp)] at hp hp'
    rw [hq.birth]
    exact h.uid_inj p q hp hp'
  alloced p m np hpc := by
    rw [hq.birth, hq.active_iff, hq.state_iff np (by simp)]
    exact h.alloced p m np (hq.alloced p m np hpc)
  claim p q m m' np hp hq' := h.claim p q m m' np (hq.alloced _ _ _ hp) (hq.alloced _ _ _ hq')
  parent p hp hne := by
    obtain ⟨q, hpar, hact, hlt⟩ := h.parent p ((hq.live_iff p).mp hp) hne
    exact ⟨q, by rw [hq.parent, hpar], (hq.active_iff q).mpr hact, by rw [hq.birth]; exact hlt⟩

/-- `allocproc` takes an unused slot. -/
theorem Core.allocproc (h : Core initproc s) (hr : s.Ready p) (hnp : (s.proc np).state = .unused) :
    Core initproc (s.allocproc p np m) := by
  have hne : p ≠ np := by rintro rfl; simp [hr.1] at hnp
  have hk : ∀ q, q ≠ np → Kept s (s.allocproc p np m) q := fun q => kept_allocproc
  have hst : ((s.allocproc p np m).proc np).state = .embryo := allocproc_state hr hnp
  have huid : ((s.allocproc p np m).birth np).uid = s.nextUid := by simp [State.allocproc]
  have hpc : ∀ q, ((s.allocproc p np m).proc q).pc =
      if q = p then .alloced m np else (s.proc q).pc := by
    intro q
    simp only [State.allocproc, State.setBirth_proc, State.set_proc]
    split_ifs <;> rfl
  have hact : ∀ q, (s.proc q).state.Active → q ≠ np := by
    rintro q hq rfl
    simp [hnp] at hq
  have hinit := hk _ (hact _ h.init_active)
  constructor
  · exact hinit.state.active_iff.mpr h.init_active
  · rw [hinit.birth, h.init_uid]
  · intro q hq
    rcases eq_or_ne q np with rfl | hqn
    · rw [huid]
      exact Nat.lt_succ_self _
    · rw [(hk q hqn).birth]
      exact (h.uid_lt q ((hk q hqn).used_iff.mp hq)).trans (Nat.lt_succ_self _)
  · intro q q' hq hq' heq
    by_cases h1 : q = np <;> by_cases h2 : q' = np
    · exact h1.trans h2.symm
    · have := h.uid_lt q' ((hk q' h2).used_iff.mp hq')
      rw [h1, huid, (hk q' h2).birth] at heq
      omega
    · have := h.uid_lt q ((hk q h1).used_iff.mp hq)
      rw [h2, huid, (hk q h1).birth] at heq
      omega
    · rw [(hk q h1).birth, (hk q' h2).birth] at heq
      exact h.uid_inj q q' ((hk q h1).used_iff.mp hq) ((hk q' h2).used_iff.mp hq') heq
  · intro q m' np' hq
    rw [hpc] at hq
    split_ifs at hq with hqp
    · obtain ⟨rfl, rfl⟩ : m = m' ∧ np = np' := by simpa using hq
      subst hqp
      have hp : (s.proc q).state.Active := Or.inr (Or.inr hr.1)
      rw [(hk q hne).birth, huid]
      exact ⟨(hk q hne).state.active_iff.mpr hp, hst, h.uid_lt q hp.live.ne_unused⟩
    · obtain ⟨h1, h2, h3⟩ := h.alloced q m' np' hq
      have hq' := hk q (hact q h1)
      have hnp' := hk np' (by rintro rfl; simp [hnp] at h2)
      rw [hq'.birth, hnp'.birth]
      exact ⟨hq'.state.active_iff.mpr h1, (hnp'.state.eq_iff (by simp)).mpr h2, h3⟩
  · intro q q' m₁ m₂ np' hq hq'
    have hfree : ∀ q m', (s.proc q).pc ≠ .alloced m' np := by
      intro q m' hq
      simpa [hnp] using (h.alloced q m' np hq).2.1
    rw [hpc] at hq hq'
    split_ifs at hq hq' with h1 h2 h2
    · exact h1.trans h2.symm
    · obtain ⟨-, rfl⟩ : m = m₁ ∧ np = np' := by simpa using hq
      exact absurd hq' (hfree q' m₂)
    · obtain ⟨-, rfl⟩ : m = m₂ ∧ np = np' := by simpa using hq'
      exact absurd hq (hfree q m₁)
    · exact h.claim q q' m₁ m₂ np' hq hq'
  · intro q hq hqi
    have hqn : q ≠ np := by rintro rfl; simp [hst] at hq
    obtain ⟨r, h1, h2, h3⟩ := h.parent q ((hk q hqn).state.live_iff.mp hq) hqi
    have hr := hk r (hact r h2)
    refine ⟨r, (hk q hqn).parent.trans h1, hr.state.active_iff.mpr h2, ?_⟩
    rwa [(hk q hqn).birth, hr.birth]

/-- A step that changes the role of one allocated slot `c`, and is quiet elsewhere, keeps the
invariant if it keeps the clause on parents. -/
theorem Core.change (h : Core initproc s) (hc : (s.proc c).state ≠ .unused) (hci : c ≠ initproc)
    (huid : ∀ q, (t.birth q).uid = (s.birth q).uid) (hnext : t.nextUid = s.nextUid)
    (hstate : ∀ q, q ≠ c → (s.proc q).state.Steady (t.proc q).state)
    (hpc : ∀ q m np, (t.proc q).pc = .alloced m np →
      (s.proc q).pc = .alloced m np ∧ q ≠ c ∧ np ≠ c)
    (hpar : ∀ p, (t.proc p).state.Live → p ≠ initproc → ∃ q, (t.proc p).parent = some q ∧
      (t.proc q).state.Active ∧ (s.birth q).uid < (s.birth p).uid) : Core initproc t := by
  have hused : ∀ q, (t.proc q).state ≠ .unused → (s.proc q).state ≠ .unused := by
    intro q hq
    rcases eq_or_ne q c with rfl | hqc
    · exact hc
    · exact ((hstate q hqc).eq_iff (by simp)).not.mp hq
  constructor
  · exact (hstate _ hci.symm).active_iff.mpr h.init_active
  · rw [huid, h.init_uid]
  · intro q hq
    rw [huid, hnext]
    exact h.uid_lt q (hused q hq)
  · intro q q' hq hq' heq
    rw [huid, huid] at heq
    exact h.uid_inj q q' (hused q hq) (hused q' hq') heq
  · intro q m np hq
    obtain ⟨hs, hqc, hnc⟩ := hpc q m np hq
    obtain ⟨h1, h2, h3⟩ := h.alloced q m np hs
    rw [huid, huid]
    exact ⟨(hstate q hqc).active_iff.mpr h1, ((hstate np hnc).eq_iff (by simp)).mpr h2, h3⟩
  · intro q q' m m' np hq hq'
    exact h.claim q q' m m' np (hpc q m np hq).1 (hpc q' m' np hq').1
  · intro p hp hpi
    obtain ⟨q, h1, h2, h3⟩ := hpar p hp hpi
    exact ⟨q, h1, h2, by rw [huid, huid]; exact h3⟩

/-- The slot that a process fills in, as the other processes see it. -/
theorem Core.alloced_other (h : Core initproc s) (hpc : (s.proc p).pc = .alloced m np) {np' : Fin n}
    {m' : Maker} (hq : q ≠ p) (hq' : (s.proc q).pc = .alloced m' np') : q ≠ np ∧ np' ≠ np := by
  refine ⟨?_, ?_⟩
  · rintro rfl
    have h1 := (h.alloced q m' np' hq').1
    rw [(h.alloced p m q hpc).2.1] at h1
    simp [ProcState.Active] at h1
  · rintro rfl
    exact hq (h.claim q p m' m np' hq' hpc)

/-- The slot that a process is filling in is not that of `init`. -/
theorem Core.alloced_ne_init (h : Core initproc s) (hpc : (s.proc p).pc = .alloced m np) :
    np ≠ initproc := by
  rintro rfl
  have := h.init_active
  rw [(h.alloced p m np hpc).2.1] at this
  simp [ProcState.Active] at this

theorem Core.zombie_ne_init (h : Core initproc s) (hz : (s.proc c).state = .zombie) :
    c ≠ initproc := by
  rintro rfl
  simpa [hz] using h.init_active

/-- `fork` and `thread_create` give up the slot. -/
theorem Core.giveUp (h : Core initproc s) (hf : ∀ q, (f q).pc = q.pc)
    (hpc : (s.proc p).pc = .alloced m np) : Core initproc (s.giveUp p np f) := by
  obtain ⟨hp, hnp, hlt⟩ := h.alloced p m np hpc
  have hne : p ≠ np := by rintro rfl; omega
  refine h.change (c := np) (by simp [hnp]) (h.alloced_ne_init hpc) (fun _ => rfl) rfl
    (fun q hq => (kept_giveUp hq).state) (fun q m' np' hq => ?_) (fun q hq hqi => ?_)
  · rcases eq_or_ne q p with rfl | hqp
    · simp [State.giveUp] at hq
    · have hs : (s.proc q).pc = .alloced m' np' := by
        rcases eq_or_ne q np with rfl | hqn <;> simpa [State.giveUp, *] using hq
      exact ⟨hs, h.alloced_other hpc hqp hs⟩
  · have hqn : q ≠ np := by rintro rfl; simp [giveUp_state hne] at hq
    have hk := kept_giveUp (s := s) (p := p) (f := f) hqn
    obtain ⟨r, h1, h2, h3⟩ := h.parent q (hk.state.live_iff.mp hq) hqi
    have hrn : r ≠ np := by rintro rfl; simp [hnp] at h2
    exact ⟨r, hk.parent.trans h1, (kept_giveUp hrn).state.active_iff.mpr h2, h3⟩

/-- `fork` and `thread_create` fill in the slot. -/
theorem Core.create (h : Core initproc s) (hf : ∀ q, (f q).pc = q.pc)
    (hpc : (s.proc p).pc = .alloced m np) : Core initproc (s.create p np m f) := by
  obtain ⟨hp, hnp, hlt⟩ := h.alloced p m np hpc
  have hne : p ≠ np := by rintro rfl; omega
  have hact : ∀ r, (s.proc r).state.Active → ((s.create p np m f).proc r).state.Active := by
    intro r hr
    have hrn : r ≠ np := by rintro rfl; simp [hnp] at hr
    exact (kept_create hrn).state.active_iff.mpr hr
  refine h.change (c := np) (by simp [hnp]) (h.alloced_ne_init hpc) (fun q => ?_) rfl
    (fun q hq => (kept_create hq).state) (fun q m' np' hq => ?_) (fun q hq hqi => ?_)
  · simp only [State.create, State.setBirth_birth, State.set_birth]
    split_ifs <;> rfl
  · rcases eq_or_ne q p with rfl | hqp
    · simp [State.create] at hq
    · have hs : (s.proc q).pc = .alloced m' np' := by
        rcases eq_or_ne q np with rfl | hqn <;> simpa [State.create, *] using hq
      exact ⟨hs, h.alloced_other hpc hqp hs⟩
  · rcases eq_or_ne q np with rfl | hqn
    · exact ⟨p, by simp [State.create, hne.symm], hact p hp, hlt⟩
    · have hk := kept_create (s := s) (p := p) (m := m) (f := f) hqn
      obtain ⟨r, h1, h2, h3⟩ := h.parent q (hk.state.live_iff.mp hq) hqi
      exact ⟨r, hk.parent.trans h1, hact r h2, h3⟩

/-- `exit` makes a zombie and passes its children to `init`. -/
theorem Core.exit (h : Core initproc s) (hr : s.Ready p) (hp : p ≠ initproc) :
    Core initproc (s.exit initproc p) := by
  have hpa : (s.proc p).state.Active := Or.inr (Or.inr hr.1)
  have hact : ∀ r, r ≠ p → (s.proc r).state.Active →
      ((s.exit initproc p).proc r).state.Active :=
    fun r hrp => (State.exit_state hp hrp).active_iff.mpr
  refine h.change (c := p) hpa.live.ne_unused hp (fun _ => rfl) rfl
    (fun q hq => State.exit_state hp hq) (fun q m np hq => ?_) (fun q hq hqi => ?_)
  · rw [State.exit_proc hp] at hq
    refine ⟨hq, ?_, ?_⟩
    · rintro rfl
      simp [hr.2] at hq
    · rintro rfl
      have := (h.alloced q m np hq).2.1
      simp [hr.1] at this
  · obtain ⟨r, h1, h2, h3⟩ := h.parent q (same_exit hr hp hq).live hqi
    rw [State.exit_proc hp]
    rcases eq_or_ne r p with rfl | hrp
    · refine ⟨initproc, by simp [h1], hact _ hp.symm h.init_active, ?_⟩
      rw [h.init_uid]
      omega
    · exact ⟨r, by simp [h1, hrp], hact r hrp h2, h3⟩

/-- `wait` and `thread_join` free the slot of a zombie. -/
theorem Core.reap (h : Core initproc s) (hs : s.Scans join p) (hz : (s.proc c).state = .zombie) :
    Core initproc (s.reap join p c) := by
  have hk : ∀ q, q ≠ c → Kept s (s.reap join p c) q := fun q => kept_reap join hs.active
  refine h.change (c := c) (by simp [hz]) (h.zombie_ne_init hz) (fun _ => rfl) rfl
    (fun q hq => (hk q hq).state) (fun q m np hq => ?_) (fun q hq hqi => ?_)
  · rcases eq_or_ne q p with rfl | hqp
    · simp [State.reap] at hq
    · have hq' : (s.proc q).pc = .alloced m np := by
        rcases eq_or_ne q c with rfl | hqc <;> simpa [State.reap, *] using hq
      obtain ⟨h1, h2, -⟩ := h.alloced q m np hq'
      refine ⟨hq', ?_, ?_⟩ <;> rintro rfl
      · simp [hz] at h1
      · simp [hz] at h2
  · have hqc : q ≠ c := by rintro rfl; simp [reap_state join (hs.ne hz)] at hq
    obtain ⟨r, h1, h2, h3⟩ := h.parent q ((hk q hqc).state.live_iff.mp hq) hqi
    have hrc : r ≠ c := by rintro rfl; simp [hz] at h2
    exact ⟨r, (hk q hqc).parent.trans h1, (hk r hrc).state.active_iff.mpr h2, h3⟩

/-- The core invariant is preserved by every step. -/
theorem Core.step (h : Core initproc s) (hs : Step initproc s a t) : Core initproc t := by
  cases hs.kind with
  | quiet hq => exact h.quiet hq
  | discard => exact h.quiet (Quiet.pgdirs s 1 _)
  | allocproc hr hnp => exact h.allocproc hr hnp
  | giveUp hf hpc ht =>
    rcases ht with rfl | rfl
    · exact h.giveUp hf hpc
    · exact (h.giveUp hf hpc).quiet (Quiet.pgdirs _ 1 _)
  | fork hpc =>
    exact (h.create (f := fun q => { q with pgdir := s.nextPgdir }) (fun _ => rfl) hpc).quiet
      (Quiet.pgdirs _ 1 _)
  | threadCreate hpc => exact h.create (fun _ => rfl) hpc
  | exit hr hp => exact h.exit hr hp
  | reap hsc _ _ hz => exact h.reap hsc hz
  | exec hr => exact h.quiet (Quiet.exec _)

/-! ### Page directories and threads -/

/-- The part of the invariant on page directories: of the processes that share one, all but
the oldest were made by `thread_create`. -/
structure Classes (s : State n) : Prop where
  pgdir_lt : ∀ p, (s.proc p).state.Live → (s.proc p).pgdir < s.nextPgdir
  thread : ∀ p q, (s.proc p).state.Live → (s.proc q).state.Live →
    (s.proc p).pgdir = (s.proc q).pgdir → (s.birth p).uid < (s.birth q).uid →
    ∃ stack, (s.birth q).maker = some (.thread stack)
  stack : ∀ q stack, (s.proc q).state.Live → (s.birth q).maker = some (.thread stack) →
    (s.proc q).threadStackTop = stack

/-- A step that makes no process and changes no page directory. -/
theorem Classes.mono (h : Classes s) (hle : s.nextPgdir ≤ t.nextPgdir)
    (hsame : ∀ q, (t.proc q).state.Live → Same s t q) : Classes t where
  pgdir_lt p hp := by
    have hs := hsame p hp
    rw [hs.pgdir]
    exact (h.pgdir_lt p hs.live).trans_le hle
  thread p q hp hq := by
    have hsp := hsame p hp
    have hsq := hsame q hq
    rw [hsp.pgdir, hsq.pgdir, hsp.birth, hsq.birth]
    exact h.thread p q hsp.live hsq.live
  stack q st hq := by
    have hsq := hsame q hq
    rw [hsq.birth, hsq.stack]
    exact h.stack q st hsq.live

/-- Two processes that share a directory do not have the new one. -/
theorem Classes.ne_fresh (h : Classes s) (hc : (t.proc c).pgdir = s.nextPgdir)
    (hsame : ∀ q, q ≠ c → (t.proc q).state.Live → Same s t q) (hp : (t.proc p).state.Live)
    (hq : (t.proc q).state.Live) (hpg : (t.proc p).pgdir = (t.proc q).pgdir)
    (huid : (t.birth p).uid < (t.birth q).uid) : p ≠ c ∧ q ≠ c := by
  have hlt : ∀ q, q ≠ c → (t.proc q).state.Live → (t.proc q).pgdir < s.nextPgdir := by
    intro q hqc hq
    rw [(hsame q hqc hq).pgdir]
    exact h.pgdir_lt q (hsame q hqc hq).live
  constructor <;> rintro rfl
  · have := hlt q (by rintro rfl; exact lt_irrefl _ huid) hq
    omega
  · have := hlt p (by rintro rfl; exact lt_irrefl _ huid) hp
    omega

/-- A step that gives the process in slot `c` a new page directory. -/
theorem Classes.fresh (h : Classes s) (hle : s.nextPgdir < t.nextPgdir)
    (hc : (t.proc c).pgdir = s.nextPgdir)
    (hstack : ∀ stack, (t.birth c).maker = some (.thread stack) →
      (t.proc c).threadStackTop = stack) (hsame : ∀ q, q ≠ c → (t.proc q).state.Live → Same s t q) :
    Classes t := by
  constructor
  · intro p hp
    rcases eq_or_ne p c with rfl | hpc
    · rwa [hc]
    · rw [(hsame p hpc hp).pgdir]
      exact (h.pgdir_lt p (hsame p hpc hp).live).trans hle
  · intro p q hp hq hpg huid
    obtain ⟨hpc, hqc⟩ := h.ne_fresh hc hsame hp hq hpg huid
    have hsp := hsame p hpc hp
    have hsq := hsame q hqc hq
    rw [hsp.pgdir, hsq.pgdir] at hpg
    rw [hsp.birth, hsq.birth] at huid
    rw [hsq.birth]
    exact h.thread p q hsp.live hsq.live hpg huid
  · intro q st hq
    rcases eq_or_ne q c with rfl | hqc
    · exact hstack st
    · rw [(hsame q hqc hq).birth, (hsame q hqc hq).stack]
      exact h.stack q st (hsame q hqc hq).live

/-- `thread_create` adds a process to the class of its maker. -/
theorem Classes.threadCreate (h : Classes s) (hcore : Core initproc s) {st : BitVec 32}
    (hpc : (s.proc p).pc = .alloced (.thread st) np) : Classes (s.threadCreate p np st) := by
  obtain ⟨hp, hnp, hlt⟩ := hcore.alloced p _ np hpc
  have hne : np ≠ p := by rintro rfl; omega
  have hsame : ∀ q, q ≠ np → ((s.threadCreate p np st).proc q).state.Live →
      Same s (s.threadCreate p np st) q := fun q hq => (kept_create hq).same
  have hpg : ((s.threadCreate p np st).proc np).pgdir = (s.proc p).pgdir := by
    simp [State.threadCreate, State.create, hne]
  have huid : ((s.threadCreate p np st).birth np).uid = (s.birth np).uid := by
    simp [State.threadCreate, State.create]
  have hmk : ((s.threadCreate p np st).birth np).maker = some (.thread st) := by
    simp [State.threadCreate, State.create]
  constructor
  · intro q hq
    rcases eq_or_ne q np with rfl | hqn
    · rw [hpg]
      exact h.pgdir_lt p hp.live
    · rw [(hsame q hqn hq).pgdir]
      exact h.pgdir_lt q (hsame q hqn hq).live
  · intro q r hq hr hqr hu
    rcases eq_or_ne r np with rfl | hrn
    · exact ⟨st, hmk⟩
    · have hsr := hsame r hrn hr
      rw [hsr.pgdir] at hqr
      rw [hsr.birth] at hu ⊢
      rcases eq_or_ne q np with rfl | hqn
      · -- the new thread is younger than its maker, so the maker stands in for it
        rw [hpg] at hqr
        rw [huid] at hu
        exact h.thread p r hp.live hsr.live hqr (hlt.trans hu)
      · have hsq := hsame q hqn hq
        rw [hsq.pgdir] at hqr
        rw [hsq.birth] at hu
        exact h.thread q r hsq.live hsr.live hqr hu
  · intro q st' hq
    rcases eq_or_ne q np with rfl | hqn
    · rw [hmk]
      simp [State.threadCreate, State.create, hne]
    · rw [(hsame q hqn hq).birth, (hsame q hqn hq).stack]
      exact h.stack q st' (hsame q hqn hq).live

theorem Core.alloced_ne (h : Core initproc s) (hpc : (s.proc p).pc = .alloced m np) : p ≠ np := by
  rintro rfl
  exact lt_irrefl _ (h.alloced p m p hpc).2.2

/-- The invariant on page directories is preserved by every step. -/
theorem Classes.step (h : Classes s) (hcore : Core initproc s) (hs : Step initproc s a t) :
    Classes t := by
  cases hs.kind with
  | quiet hq hpg => exact h.mono hq.nextPgdir fun q => (hq.kept (hpg q)).same
  | discard => exact h.mono (Nat.le_succ _) fun q => ((Quiet.pgdirs s 1 _).kept rfl).same
  | allocproc hr hnp => exact h.mono le_rfl fun q => same_allocproc hr hnp
  | @giveUp p np m f _ hf hpc ht =>
    have h' : Classes (s.giveUp p np f) :=
      h.mono le_rfl fun q => same_giveUp (hcore.alloced_ne hpc)
    rcases ht with rfl | rfl
    · exact h'
    · exact h'.mono (Nat.le_succ _) fun q => ((Quiet.pgdirs _ 1 _).kept rfl).same
  | @fork p np hpc =>
    have hne := (hcore.alloced_ne hpc).symm
    refine h.fresh (c := np) (Nat.lt_succ_self _) ?_ ?_ fun q hqn hq => ?_
    · simp [State.fork, State.create, hne]
    · simp [State.fork, State.create]
    · exact (kept_fork hqn).same hq
  | threadCreate hpc => exact h.threadCreate hcore hpc
  | exit hr hp => exact h.mono le_rfl fun q => same_exit hr hp
  | reap hsc _ _ hz => exact h.mono le_rfl fun q => same_reap hsc hz
  | @exec p hr =>
    refine h.fresh (c := p) (Nat.lt_succ_self _) (by simp [State.exec]) ?_ fun q hqp hq => ?_
    · intro st hst
      rw [(Quiet.exec p).stack]
      exact h.stack p st (by simp [hr.1]) hst
    · exact ((Quiet.exec p).kept (by simp [State.exec, hqp])).same hq

/-! ### The history -/

/-- What is recorded before a reaping, for it to be right: the child has exited, it was
reaped by its parent at that time, it was created with the number returned and, for
`thread_join`, by `thread_create` with the stack returned, and it has not been reaped
before. -/
structure Reap.Ok (r : Reap n) (h : List (Event n)) : Prop where
  exited : .exited r.uid ∈ h
  parent : r.parent = some r.reaper
  created : ∃ m, .created r.uid r.id m ∈ h ∧ ∀ stack, r.stack = some stack → m = .thread stack
  once : ∀ r', .reaped r' ∈ h → r'.uid ≠ r.uid

/-- Every reaping in the history is right. -/
def HistOk (h : List (Event n)) : Prop :=
  ∀ h₁ r h₂, h = h₁ ++ .reaped r :: h₂ → r.Ok h₂

/-- A history with one event more. -/
theorem HistOk.cons {e : Event n} {h : List (Event n)} (hh : HistOk h)
    (he : ∀ r, e = .reaped r → r.Ok h) : HistOk (e :: h) := by
  intro h₁ r h₂ heq
  cases h₁ with
  | nil =>
    obtain ⟨rfl, rfl⟩ : e = .reaped r ∧ h = h₂ := by simpa using heq
    exact he r rfl
  | cons e' h₁ =>
    obtain ⟨-, rfl⟩ : e = e' ∧ h = h₁ ++ .reaped r :: h₂ := by simpa using heq
    exact hh h₁ r h₂ rfl

/-- The part of the invariant on the history. -/
structure Hist (initproc : Fin n) (s : State n) : Prop where
  created : ∀ p, (s.proc p).state.Live → p ≠ initproc → ∃ m, (s.birth p).maker = some m ∧
    .created (s.birth p).uid (s.proc p).pid m ∈ s.hist
  exited : ∀ p, (s.proc p).state = .zombie → .exited (s.birth p).uid ∈ s.hist
  gone : ∀ r, .reaped r ∈ s.hist → r.uid < s.nextUid ∧
    ∀ q, (s.proc q).state ≠ .unused → (s.birth q).uid ≠ r.uid
  ok : HistOk s.hist

/-- A step that makes no process, lets none exit and reaps none. -/
theorem Hist.mono (h : Hist initproc s) (hsame : ∀ q, (t.proc q).state.Live → Same s t q)
    (hz : ∀ q, (t.proc q).state = .zombie → (s.proc q).state = .zombie)
    (hu : ∀ q, (t.proc q).state ≠ .unused →
      (s.proc q).state ≠ .unused ∧ (t.birth q).uid = (s.birth q).uid ∨
        (t.birth q).uid = s.nextUid)
    (hnext : s.nextUid ≤ t.nextUid) (hhist : t.hist = s.hist) : Hist initproc t where
  created p hp hpi := by
    have hs := hsame p hp
    rw [hs.birth, hs.pid, hhist]
    exact h.created p hs.live hpi
  exited p hp := by
    rw [(hsame p (by simp [hp])).birth, hhist]
    exact h.exited p (hz p hp)
  gone r hr := by
    rw [hhist] at hr
    obtain ⟨hlt, hne⟩ := h.gone r hr
    refine ⟨hlt.trans_le hnext, fun q hq => ?_⟩
    rcases hu q hq with ⟨hq', heq⟩ | heq
    · rw [heq]
      exact hne q hq'
    · omega
  ok := hhist ▸ h.ok

/-- Steps without an event keep the history. -/
theorem Hist.quiet (h : Hist initproc s) (hq : Quiet s t) : Hist initproc t where
  created p hp hpi := by
    rw [hq.birth, hq.pid, hq.hist]
    exact h.created p ((hq.live_iff p).mp hp) hpi
  exited p hp := by
    rw [hq.birth, hq.hist]
    exact h.exited p ((hq.state_iff p (by simp)).mp hp)
  gone r hr := by
    rw [hq.hist] at hr
    rw [hq.nextUid, hq.birth]
    refine ⟨(h.gone r hr).1, fun q hu => (h.gone r hr).2 q ?_⟩
    rwa [Ne, hq.state_iff q (by simp)] at hu
  ok := hq.hist ▸ h.ok

/-- `fork` and `thread_create` record what they make. -/
theorem Hist.create (h : Hist initproc s) (hcore : Core initproc s) (hf : ∀ q, (f q).pid = q.pid)
    (hpc : (s.proc p).pc = .alloced m np) : Hist initproc (s.create p np m f) := by
  have hne := (hcore.alloced_ne hpc).symm
  have hhist : (s.create p np m f).hist = .created (s.birth np).uid (s.proc np).pid m :: s.hist :=
    rfl
  have huid : ∀ q, ((s.create p np m f).birth q).uid = (s.birth q).uid := by
    intro q
    rcases eq_or_ne q np with rfl | hqn <;> simp [State.create, *]
  constructor
  · intro q hq hqi
    rcases eq_or_ne q np with rfl | hqn
    · exact ⟨m, by simp [State.create], by simp [State.create, hne, hf]⟩
    · have hs := (kept_create hqn).same hq
      obtain ⟨m', h1, h2⟩ := h.created q hs.live hqi
      rw [hs.birth, hs.pid, hhist]
      exact ⟨m', h1, List.mem_cons_of_mem _ h2⟩
  · intro q hq
    have hqn : q ≠ np := by rintro rfl; simp [State.create, hne] at hq
    rw [huid, hhist]
    exact List.mem_cons_of_mem _ (h.exited q (((kept_create hqn).state.eq_iff (by simp)).mp hq))
  · intro r hr
    have hr' : .reaped r ∈ s.hist := by simpa [hhist] using hr
    refine ⟨(h.gone r hr').1, fun q hq => ?_⟩
    rw [huid]
    refine (h.gone r hr').2 q ?_
    rcases eq_or_ne q np with rfl | hqn
    · simp [(hcore.alloced p m q hpc).2.1]
    · exact (kept_create hqn).used_iff.mp hq
  · exact h.ok.cons (by simp)

/-- `exit` records the exit. -/
theorem Hist.exit (h : Hist initproc s) (hr : s.Ready p) (hp : p ≠ initproc) :
    Hist initproc (s.exit initproc p) := by
  have hhist : (s.exit initproc p).hist = .exited (s.birth p).uid :: s.hist := rfl
  constructor
  · intro q hq hqi
    have hs := same_exit hr hp hq
    obtain ⟨m, h1, h2⟩ := h.created q hs.live hqi
    rw [hs.birth, hs.pid, hhist]
    exact ⟨m, h1, List.mem_cons_of_mem _ h2⟩
  · intro q hq
    rw [hhist]
    rcases eq_or_ne q p with rfl | hqp
    · exact List.mem_cons_self
    · exact List.mem_cons_of_mem _
        (h.exited q (((State.exit_state hp hqp).eq_iff (by simp)).mp hq))
  · intro r hr'
    have hr'' : .reaped r ∈ s.hist := by simpa [hhist] using hr'
    refine ⟨(h.gone r hr'').1, fun q hq => (h.gone r hr'').2 q ?_⟩
    rcases eq_or_ne q p with rfl | hqp
    · simp [hr.1]
    · exact ((State.exit_state hp hqp).eq_iff (by simp)).not.mp hq
  · exact h.ok.cons (by simp)

/-- `wait` and `thread_join` reap rightly. -/
theorem Hist.reap (h : Hist initproc s) (hcore : Core initproc s) (hcl : Classes s)
    (hs : s.Scans join p) (hpar : (s.proc c).parent = some p)
    (hpg : join → (s.proc c).pgdir = (s.proc p).pgdir) (hz : (s.proc c).state = .zombie) :
    Hist initproc (s.reap join p c) := by
  have hci := hcore.zombie_ne_init hz
  have hcl' : (s.proc c).state.Live := by simp [hz]
  have hk : ∀ q, q ≠ c → Kept s (s.reap join p c) q := fun q => kept_reap join hs.active
  have hused : ∀ q, ((s.reap join p c).proc q).state ≠ .unused →
      q ≠ c ∧ (s.proc q).state ≠ .unused := by
    intro q hq
    have hqc : q ≠ c := by rintro rfl; exact hq (reap_state join (hs.ne hz))
    exact ⟨hqc, (hk q hqc).used_iff.mp hq⟩
  constructor
  · intro q hq hqi
    have hsame := same_reap hs hz hq
    obtain ⟨m, h1, h2⟩ := h.created q hsame.live hqi
    rw [hsame.birth, hsame.pid]
    exact ⟨m, h1, List.mem_cons_of_mem _ h2⟩
  · intro q hq
    have hqc := (hused q (by simp [hq])).1
    exact List.mem_cons_of_mem _ (h.exited q (((hk q hqc).state.eq_iff (by simp)).mp hq))
  · intro r hr
    rcases List.mem_cons.mp hr with hr | hr
    · obtain rfl := Event.reaped.inj hr
      refine ⟨hcore.uid_lt c hcl'.ne_unused, fun q hq heq => ?_⟩
      exact (hused q hq).1 (hcore.uid_inj q c (hused q hq).2 hcl'.ne_unused heq)
    · exact ⟨(h.gone r hr).1, fun q hq => (h.gone r hr).2 q (hused q hq).2⟩
  · refine h.ok.cons fun r hr => ?_
    obtain rfl := Event.reaped.inj hr
    obtain ⟨m, hm, hcr⟩ := h.created c hcl' hci
    refine ⟨h.exited c hz, hpar, ⟨m, hcr, fun st hst => ?_⟩, fun r' hr' heq => ?_⟩
    · -- only `thread_join` returns a stack, and its child shares the page directory of an
      -- older process: its own parent
      cases join with
      | false => simp at hst
      | true =>
        obtain ⟨q, hq, -, hlt⟩ := hcore.parent c hcl' hci
        obtain rfl : p = q := by simpa [hpar] using hq
        obtain ⟨st', hst'⟩ := hcl.thread p c hs.active.live hcl' (hpg rfl).symm hlt
        have htop := hcl.stack c st' hcl' hst'
        have hst : (s.proc c).threadStackTop = st := by simpa using hst
        rw [hm] at hst'
        rw [Option.some.inj hst', ← htop, hst]
    · exact (h.gone r' hr').2 c hcl'.ne_unused heq.symm

/-- The invariant on the history is preserved by every step. -/
theorem Hist.step (h : Hist initproc s) (hcore : Core initproc s) (hcl : Classes s)
    (hs : Step initproc s a t) : Hist initproc t := by
  cases hs.kind with
  | quiet hq => exact h.quiet hq
  | discard => exact h.quiet (Quiet.pgdirs s 1 _)
  | @allocproc p np m hr hnp =>
    refine h.mono (fun q => same_allocproc hr hnp) (fun q hq => ?_) (fun q hq => ?_)
      (Nat.le_succ _) rfl
    · have hqn : q ≠ np := by rintro rfl; simp [allocproc_state hr hnp] at hq
      exact ((kept_allocproc hqn).state.eq_iff (by simp)).mp hq
    · rcases eq_or_ne q np with rfl | hqn
      · exact Or.inr (by simp [State.allocproc])
      · have hk := kept_allocproc (s := s) (p := p) (m := m) hqn
        exact Or.inl ⟨hk.used_iff.mp hq, by rw [hk.birth]⟩
  | @giveUp p np m f _ hf hpc ht =>
    have hne := hcore.alloced_ne hpc
    have hk : ∀ q, ((s.giveUp p np f).proc q).state ≠ .unused → Kept s (s.giveUp p np f) q :=
      fun q hq => kept_giveUp (by rintro rfl; exact hq (giveUp_state hne))
    have h' : Hist initproc (s.giveUp p np f) :=
      h.mono (fun q => same_giveUp hne)
        (fun q hq => ((hk q (by simp [hq])).state.eq_iff (by simp)).mp hq)
        (fun q hq => Or.inl ⟨(hk q hq).used_iff.mp hq, rfl⟩) le_rfl rfl
    rcases ht with rfl | rfl
    · exact h'
    · exact h'.quiet (Quiet.pgdirs _ 1 _)
  | fork hpc =>
    exact (h.create hcore (f := fun q => { q with pgdir := s.nextPgdir }) (fun _ => rfl) hpc).quiet
      (Quiet.pgdirs _ 1 _)
  | threadCreate hpc => exact h.create hcore (fun _ => rfl) hpc
  | exit hr hp => exact h.exit hr hp
  | reap hsc hpar hpg hz => exact h.reap hcore hcl hsc hpar hpg hz
  | exec hr => exact h.quiet (Quiet.exec _)

/-- No creation is recorded twice: the unique numbers in the history are unique. -/
structure Born (s : State n) : Prop where
  lt : ∀ u pid m, .created u pid m ∈ s.hist → u < s.nextUid
  embryo : ∀ u pid m, .created u pid m ∈ s.hist →
    ∀ q, (s.proc q).state = .embryo → (s.birth q).uid ≠ u
  once : ∀ h₁ u pid m h₂, s.hist = h₁ ++ .created u pid m :: h₂ →
    ∀ pid' m', .created u pid' m' ∉ h₂

/-- A step that records no creation. -/
theorem Born.mono (h : Born s)
    (hhist : t.hist = s.hist ∨ ∃ e, t.hist = e :: s.hist ∧ ∀ u pid m, e ≠ .created u pid m)
    (hnext : s.nextUid ≤ t.nextUid)
    (hemb : ∀ q, (t.proc q).state = .embryo →
      (s.proc q).state = .embryo ∧ (t.birth q).uid = (s.birth q).uid ∨
        (t.birth q).uid = s.nextUid) : Born t := by
  have hmem : ∀ u pid m, .created u pid m ∈ t.hist → .created u pid m ∈ s.hist := by
    intro u pid m hm
    rcases hhist with h' | ⟨e, h', he⟩
    · rwa [← h']
    · rw [h'] at hm
      exact (List.mem_cons.mp hm).resolve_left fun hm => he u pid m hm.symm
  constructor
  · intro u pid m hm
    exact (h.lt u pid m (hmem u pid m hm)).trans_le hnext
  · intro u pid m hm q hq
    rcases hemb q hq with ⟨hq', heq⟩ | heq
    · rw [heq]
      exact h.embryo u pid m (hmem u pid m hm) q hq'
    · have := h.lt u pid m (hmem u pid m hm)
      omega
  · intro h₁ u pid m h₂ heq
    rcases hhist with h' | ⟨e, h', he⟩
    · exact h.once h₁ u pid m h₂ (h'.symm.trans heq)
    · rw [h'] at heq
      cases h₁ with
      | nil => exact absurd (List.cons.inj heq).1 (he u pid m)
      | cons e' h₁ => exact h.once h₁ u pid m h₂ (List.cons.inj heq).2

theorem Born.quiet (h : Born s) (hq : Quiet s t) : Born t :=
  h.mono (Or.inl hq.hist) hq.nextUid.ge fun q hst => Or.inl
    ⟨(hq.state_iff q (by simp)).mp hst, by rw [hq.birth]⟩

/-- `fork` and `thread_create` record a number not recorded before. -/
theorem Born.create (h : Born s) (hcore : Core initproc s) (hpc : (s.proc p).pc = .alloced m np) :
    Born (s.create p np m f) := by
  have hne := (hcore.alloced_ne hpc).symm
  have hemb := (hcore.alloced p m np hpc).2.1
  have hk : ∀ q, q ≠ np → Kept s (s.create p np m f) q := fun q => kept_create
  constructor
  · intro u pid m' hm
    rcases List.mem_cons.mp hm with hm | hm
    · obtain ⟨rfl, -, -⟩ := Event.created.inj hm
      exact hcore.uid_lt np (by simp [hemb])
    · exact h.lt u pid m' hm
  · intro u pid m' hm q hq
    have hqn : q ≠ np := by rintro rfl; simp [State.create, hne] at hq
    have hqe := ((hk q hqn).state.eq_iff (by simp)).mp hq
    rw [(hk q hqn).birth]
    rcases List.mem_cons.mp hm with hm | hm
    · obtain ⟨rfl, -, -⟩ := Event.created.inj hm
      exact fun heq => hqn (hcore.uid_inj q np (by simp [hqe]) (by simp [hemb]) heq)
    · exact h.embryo u pid m' hm q hqe
  · intro h₁ u pid m' h₂ heq pid' m'' hm
    cases h₁ with
    | nil =>
      obtain ⟨he, rfl⟩ := List.cons.inj heq
      obtain ⟨rfl, -, -⟩ := Event.created.inj he
      exact h.embryo _ _ _ hm np hemb rfl
    | cons e h₁ => exact h.once h₁ u pid m' h₂ (List.cons.inj heq).2 pid' m'' hm

/-- The invariant on creations is preserved by every step. -/
theorem Born.step (h : Born s) (hcore : Core initproc s) (hs : Step initproc s a t) : Born t := by
  cases hs.kind with
  | quiet hq => exact h.quiet hq
  | discard => exact h.quiet (Quiet.pgdirs s 1 _)
  | @allocproc p np m hr hnp =>
    refine h.mono (Or.inl rfl) (Nat.le_succ _) fun q hq => ?_
    rcases eq_or_ne q np with rfl | hqn
    · exact Or.inr (by simp [State.allocproc])
    · have hk := kept_allocproc (s := s) (p := p) (m := m) hqn
      exact Or.inl ⟨(hk.state.eq_iff (by simp)).mp hq, by rw [hk.birth]⟩
  | @giveUp p np m f _ hf hpc ht =>
    have hne := hcore.alloced_ne hpc
    have h' : Born (s.giveUp p np f) := by
      refine h.mono (Or.inl rfl) le_rfl fun q hq => Or.inl ⟨?_, rfl⟩
      have hqn : q ≠ np := by rintro rfl; simp [giveUp_state hne] at hq
      exact ((kept_giveUp hqn).state.eq_iff (by simp)).mp hq
    rcases ht with rfl | rfl
    · exact h'
    · exact h'.quiet (Quiet.pgdirs _ 1 _)
  | fork hpc =>
    exact (h.create (f := fun q => { q with pgdir := s.nextPgdir }) hcore hpc).quiet
      (Quiet.pgdirs _ 1 _)
  | threadCreate hpc => exact h.create hcore hpc
  | @exit p hr hp =>
    refine h.mono (Or.inr ⟨_, rfl, by simp⟩) le_rfl fun q hq => Or.inl ⟨?_, rfl⟩
    rcases eq_or_ne q p with rfl | hqp
    · simp [State.exit_state_self hp] at hq
    · exact ((State.exit_state hp hqp).eq_iff (by simp)).mp hq
  | @reap join p c hsc hpar hpg hz =>
    refine h.mono (Or.inr ⟨_, rfl, by simp⟩) le_rfl fun q hq => Or.inl ⟨?_, rfl⟩
    have hqc : q ≠ c := by rintro rfl; simp [reap_state join (hsc.ne hz)] at hq
    exact ((kept_reap join hsc.active hqc).state.eq_iff (by simp)).mp hq
  | exec hr => exact h.quiet (Quiet.exec _)

/-! ### Nobody sleeps next to a zombie -/

/-- Where a process sleeps in `wait` or in `thread_join`. -/
def Pc.waiting (join : Bool) : Pc n := if join then .inJoin else .inWait

/-- The part of the invariant on processes that sleep in `wait` or `thread_join`: each sleeps
on its own slot, and no child it would reap is a zombie. -/
structure Asleep (s : State n) : Prop where
  running : ∀ p join, (s.proc p).state = .running → (s.proc p).pc ≠ .waiting join
  chan : ∀ p join, (s.proc p).state = .sleeping → (s.proc p).pc = .waiting join →
    (s.proc p).chan = .proc p
  kids : ∀ p join, (s.proc p).state = .sleeping → (s.proc p).pc = .waiting join →
    ∀ c, (s.proc c).parent = some p → (join → (s.proc c).pgdir = (s.proc p).pgdir) →
    (s.proc c).state ≠ .zombie

/-- A step that puts nobody to sleep in `wait` or `thread_join` and makes no zombie. -/
theorem Asleep.mono (h : Asleep s)
    (hrun : ∀ p join, (t.proc p).state = .running → (t.proc p).pc ≠ .waiting join)
    (hsleep : ∀ p join, (t.proc p).state = .sleeping → (t.proc p).pc = .waiting join →
      (s.proc p).state = .sleeping ∧ (s.proc p).pc = .waiting join ∧
        (t.proc p).chan = (s.proc p).chan ∧ (t.proc p).pgdir = (s.proc p).pgdir)
    (hz : ∀ c, (t.proc c).state = .zombie → (s.proc c).state = .zombie ∧
      (t.proc c).parent = (s.proc c).parent ∧ (t.proc c).pgdir = (s.proc c).pgdir) :
    Asleep t where
  running := hrun
  chan p join hp hpc := by
    obtain ⟨h1, h2, h3, -⟩ := hsleep p join hp hpc
    rw [h3]
    exact h.chan p join h1 h2
  kids p join hp hpc c hc hpg hcz := by
    obtain ⟨h1, h2, -, h4⟩ := hsleep p join hp hpc
    obtain ⟨z1, z2, z3⟩ := hz c hcz
    rw [z2] at hc
    rw [z3, h4] at hpg
    exact h.kids p join h1 h2 c hc hpg z1

/-- Changing one process in a way that does not put it to sleep in `wait` or `thread_join`
and does not make it a zombie. -/
theorem Asleep.set (h : Asleep s)
    (hrun : ∀ join, (f (s.proc p)).state = .running → (f (s.proc p)).pc ≠ .waiting join)
    (hsleep : ∀ join, (f (s.proc p)).state = .sleeping → (f (s.proc p)).pc ≠ .waiting join)
    (hz : (f (s.proc p)).state ≠ .zombie ∨
      (f (s.proc p)).state = (s.proc p).state ∧ (f (s.proc p)).parent = (s.proc p).parent ∧
        (f (s.proc p)).pgdir = (s.proc p).pgdir) : Asleep (s.set p f) := by
  refine h.mono (fun q join hq => ?_) (fun q join hq hpc => ?_) (fun c hc => ?_)
  · rcases eq_or_ne q p with rfl | hqp
    · simp only [State.set_proc, if_true] at hq ⊢
      exact hrun join hq
    · simp only [State.set_proc, if_neg hqp] at hq ⊢
      exact h.running q join hq
  · rcases eq_or_ne q p with rfl | hqp
    · simp only [State.set_proc, if_true] at hq hpc
      exact absurd hpc (hsleep join hq)
    · simp only [State.set_proc, if_neg hqp] at hq hpc ⊢
      exact ⟨hq, hpc, trivial, trivial⟩
  · rcases eq_or_ne c p with rfl | hcp
    · simp only [State.set_proc, if_true] at hc ⊢
      rcases hz with hz | ⟨h1, h2, h3⟩
      · exact absurd hc hz
      · exact ⟨h1 ▸ hc, h2, h3⟩
    · simp only [State.set_proc, if_neg hcp] at hc ⊢
      exact ⟨hc, trivial, trivial⟩

/-- `exit` wakes the parent, and `init` if it inherits a zombie. -/
theorem Asleep.exit (h : Asleep s) (hcore : Core initproc s) (hr : s.Ready p) (hp : p ≠ initproc) :
    Asleep (s.exit initproc p) := by
  have hself : (s.proc p).parent ≠ some p := by
    intro hpp
    obtain ⟨q, hq, -, hlt⟩ := hcore.parent p (by simp [hr.1]) hp
    obtain rfl : p = q := by simpa [hpp] using hq
    exact lt_irrefl _ hlt
  -- who still sleeps was asleep, and neither of the two channels that `exit` wakes is his
  have hsleep : ∀ q, ((s.exit initproc p).proc q).state = .sleeping →
      (s.proc q).state = .sleeping ∧ (s.proc q).chan ≠ .ofPtr (s.proc p).parent ∧
        ((∃ j, (s.proc j).parent = some p ∧ (s.proc j).state = .zombie) →
          (s.proc q).chan ≠ .proc initproc) := by
    intro q hq
    simp only [State.exit_proc hp] at hq
    split_ifs at hq with h1 h2
    push Not at h2
    exact ⟨hq, (h2 hq).1, fun hex hch => by obtain ⟨j, hj, hz⟩ := hex; exact (h2 hq).2 hch j hj hz⟩
  constructor
  · intro q join hq hpc
    simp only [State.exit_proc hp] at hq hpc
    split_ifs at hq
    exact h.running q join hq hpc
  · intro q join hq hpc
    rw [State.exit_proc hp] at hpc ⊢
    exact h.chan q join (hsleep q hq).1 hpc
  · intro q join hq hpc c hc hpg hz
    obtain ⟨hs, hch, hchi⟩ := hsleep q hq
    simp only [State.exit_proc hp] at hpc hc hpg hz
    have hown := h.chan q join hs hpc
    rcases eq_or_ne c p with rfl | hcp
    · rw [if_neg hself] at hc
      rw [hc] at hch
      exact hch hown
    · have hzs : (s.proc c).state = .zombie := by
        rw [if_neg hcp] at hz
        split_ifs at hz
        exact hz
      split_ifs at hc with hcpar
      · obtain rfl : initproc = q := by simpa using hc
        exact hchi ⟨c, hcpar, hzs⟩ hown
      · exact h.kids q join hs hpc c hc hpg hzs

/-- A scan that finds no zombie goes to sleep rightly. -/
theorem Asleep.noZombie (h : Asleep s) (hs : s.Scans join p)
    (hz : findZombie join s.proc p = none) : Asleep (s.noZombie join p) := by
  have hpz : ∀ c, ((s.noZombie join p).proc c).state = .zombie →
      (s.noZombie join p).proc c = s.proc c := by
    intro c hc
    rcases eq_or_ne c p with rfl | hcp
    · simp only [State.noZombie, State.set_proc, if_true] at hc
      split_ifs at hc
    · simp [State.noZombie, hcp]
  constructor
  · intro q j hq hpc
    rcases eq_or_ne q p with rfl | hqp
    · simp only [State.noZombie, State.set_proc, if_true] at hq hpc
      split_ifs at hq hpc
      all_goals cases j <;> simp [Pc.waiting] at hpc
    · simp only [State.noZombie, State.set_proc, if_neg hqp] at hq hpc
      exact h.running q j hq hpc
  · intro q j hq hpc
    rcases eq_or_ne q p with rfl | hqp
    · simp only [State.noZombie, State.set_proc, if_true] at hq ⊢
      split_ifs at hq ⊢ <;> rfl
    · simp only [State.noZombie, State.set_proc, if_neg hqp] at hq hpc ⊢
      exact h.chan q j hq hpc
  · intro q j hq hpc c hc hpg hcz
    rw [hpz c hcz] at hc hpg hcz
    rcases eq_or_ne q p with rfl | hqp
    · have hpgp : ((s.noZombie join q).proc q).pgdir = (s.proc q).pgdir := by
        simp only [State.noZombie, State.set_proc, if_true]
        split <;> rfl
      have hj : j = join := by
        simp only [State.noZombie, State.set_proc, if_true] at hq hpc
        split_ifs at hq hpc <;> cases j <;> cases join <;> simp [Pc.waiting] at *
      subst hj
      rw [hpgp] at hpg
      exact findZombie_none hz c hc hpg hcz
    · simp only [State.noZombie, State.set_proc, if_neg hqp] at hq hpc hpg
      exact h.kids q j hq hpc c hc hpg hcz

theorem Asleep.congr (h : Asleep s) (hp : t.proc = s.proc) : Asleep t := by
  obtain ⟨h1, h2, h3⟩ := h
  exact ⟨hp ▸ h1, hp ▸ h2, hp ▸ h3⟩

theorem Pc.user_ne_waiting (join : Bool) : (Pc.user : Pc n) ≠ .waiting join := by
  cases join <;> simp [Pc.waiting]

theorem Pc.alloced_ne_waiting (m : Maker) (np : Fin n) (join : Bool) :
    Pc.alloced m np ≠ .waiting join := by
  cases join <;> simp [Pc.waiting]

/-- A step that fills in, gives up or takes a slot `c`, and leaves the process `p` in a place
that is not in `wait` or `thread_join`. -/
theorem Asleep.set_set (h : Asleep s) {g : Proc n → Proc n} (hne : p ≠ c)
    (hf : (f (s.proc c)).state = .unused ∨ (f (s.proc c)).state = .embryo ∨
      (f (s.proc c)).state = .runnable) (hg : ∀ join, (g (s.proc p)).pc ≠ .waiting join)
    (hz : (g (s.proc p)).state ≠ .zombie) (ht : t.proc = ((s.set c f).set p g).proc) :
    Asleep t := by
  have hp : (s.set c f).proc p = s.proc p := by simp [hne]
  have hc : Asleep (s.set c f) := by
    refine h.set (fun join hc => ?_) (fun join hc => ?_) (Or.inl fun hc => ?_) <;>
      simp [hc] at hf
  refine (hc.set (p := p) (f := g) (fun join _ => ?_) (fun join _ => ?_) (Or.inl ?_)).congr ht
  · rw [hp]
    exact hg join
  · rw [hp]
    exact hg join
  · rw [hp]
    exact hz

/-- The invariant on sleeping processes is preserved by every step. -/
theorem Asleep.step (h : Asleep s) (hcore : Core initproc s) (hs : Step initproc s a t) :
    Asleep t := by
  have hbusy : ∀ {p np : Fin n} {m : Maker}, (s.proc p).pc = .alloced m np →
      p ≠ np ∧ (s.proc p).state ≠ .zombie := by
    intro p np m hpc
    refine ⟨hcore.alloced_ne hpc, fun hz => ?_⟩
    simpa [hz] using (hcore.alloced p m np hpc).1
  cases hs with
  | @allocproc p np m hr hnp =>
    have hne : p ≠ np := by
      rintro rfl
      simpa [hr.1] using findUnused_spec hnp
    exact h.set_set (g := fun q => { q with pc := .alloced m np }) hne (Or.inr (Or.inl rfl))
      (Pc.alloced_ne_waiting m np) (by simp [hr.1]) rfl
  | noStack _ hpc | noPgdir _ hpc | noMemory _ hpc =>
    exact h.set_set (g := fun q => { q with pc := .user }) (hbusy hpc).1 (Or.inl rfl)
      Pc.user_ne_waiting (hbusy hpc).2 rfl
  | fork _ hpc | threadCreate _ hpc =>
    exact h.set_set (g := fun q => { q with pc := .user }) (hbusy hpc).1 (Or.inr (Or.inr rfl))
      Pc.user_ne_waiting (hbusy hpc).2 rfl
  | exit hr hp => exact h.exit hcore hr hp
  | @reap join p c hsc hz =>
    exact h.set_set (g := fun q => { q with state := .running, chan := .null, pc := .user })
      (hsc.ne (findZombie_spec hz).2.2).symm (Or.inl rfl) Pc.user_ne_waiting (by simp) rfl
  | noZombie hsc hz => exact h.noZombie hsc hz
  | @exec p hr =>
    refine (h.set (p := p) (f := fun q => { q with pgdir := s.nextPgdir }) ?_ ?_ ?_).congr rfl
    · exact fun join hst => h.running p join hst
    · exact fun join hst => absurd (hr.1.symm.trans hst) (by simp)
    · exact Or.inl (by simp [hr.1])
  | execFail hr => exact h.congr rfl
  | @kill pid p hpid =>
    refine h.set (fun join hst hpc => ?_) (fun join hst hpc => ?_) ?_
    · by_cases hsl : (s.proc p).state = .sleeping
      · simp [hsl] at hst
      · exact h.running p join (by simpa [hsl] using hst) hpc
    · by_cases hsl : (s.proc p).state = .sleeping <;> simp [hsl] at hst
    · by_cases hsl : (s.proc p).state = .sleeping
      · exact Or.inl (by simp [hsl])
      · exact Or.inr ⟨by simp [hsl], rfl, rfl⟩
  | schedule hst h1 h2 =>
    refine h.set (fun join _ hpc => ?_) (by simp) (Or.inl (by simp))
    cases join
    · exact h1 hpc
    · exact h2 hpc
  | yield hst => exact h.set (by simp) (by simp) (Or.inl (by simp))
  | sleep hst => exact h.set (by simp) (fun join _ => h.running _ join hst) (Or.inl (by simp))
  | @wakeup k =>
    refine h.mono (fun q join hq hpc => ?_) (fun q join hq hpc => ?_) (fun c hc => ?_) <;>
      simp only [wakeup1_apply] at *
    · split_ifs at hq
      exact h.running q join hq hpc
    · split_ifs at hq
      exact ⟨hq, hpc, trivial, trivial⟩
    · split_ifs at hc
      exact ⟨hc, trivial, trivial⟩

/-! ### The protocol -/

/-- The invariant of the process table. -/
structure Inv (initproc : Fin n) (s : State n) : Prop where
  core : Core initproc s
  classes : Classes s
  hist : Hist initproc s
  born : Born s
  asleep : Asleep s

/-- The invariant after `userinit`. -/
theorem inv_init (initproc : Fin n) : Inv initproc (initState initproc) := by
  have hlive : ∀ p, ((initState initproc).proc p).state.Live → p = initproc := by
    intro p hp
    by_contra hne
    simp [initState, hne] at hp
  have hused : ∀ p, ((initState initproc).proc p).state ≠ .unused → p = initproc := by
    intro p hp
    by_contra hne
    simp [initState, hne] at hp
  have hpc : ∀ p, ((initState initproc).proc p).pc = .user := by
    intro p
    simp only [initState]
    split <;> rfl
  have hst : ∀ p, ((initState initproc).proc p).state = .unused ∨
      ((initState initproc).proc p).state = .runnable := by
    intro p
    simp only [initState]
    split <;> simp
  refine ⟨⟨?_, rfl, ?_, ?_, ?_, ?_, ?_⟩, ⟨?_, ?_, ?_⟩, ⟨?_, ?_, ?_, ?_⟩, ⟨?_, ?_, ?_⟩, ⟨?_, ?_, ?_⟩⟩
  · simp [initState, ProcState.Active]
  · exact fun p _ => Nat.one_pos
  · exact fun p q hp hq _ => (hused p hp).trans (hused q hq).symm
  · exact fun p m np h => absurd (h.symm.trans (hpc p)) (by simp)
  · exact fun p q m m' np h => absurd (h.symm.trans (hpc p)) (by simp)
  · exact fun p hp hne => absurd (hlive p hp) hne
  · intro p hp
    simp [hlive p hp, initState]
  · exact fun p q _ _ _ h => absurd h (lt_irrefl _)
  · exact fun q st _ h => by simp [initState] at h
  · exact fun p hp hne => absurd (hlive p hp) hne
  · exact fun p hp => by rcases hst p with h | h <;> simp [h] at hp
  · exact fun r hr => by simp [initState] at hr
  · exact fun h₁ r h₂ h => by simp [initState] at h
  · exact fun u pid m h => by simp [initState] at h
  · exact fun u pid m h => by simp [initState] at h
  · exact fun h₁ u pid m h₂ h => by simp [initState] at h
  all_goals exact fun p join hp => by rcases hst p with h | h <;> simp [h] at hp

/-- The invariant holds in every reachable state. -/
theorem inv_reachable (hs : (system initproc).Reachable s) : Inv initproc s :=
  hs.invariant (I := Inv initproc) (fun s (h : s = initState initproc) => h ▸ inv_init initproc)
    fun _ _ _ h hst =>
    ⟨h.core.step hst, h.classes.step h.core hst, h.hist.step h.core h.classes hst,
      h.born.step h.core hst, h.asleep.step h.core hst⟩

/-- **The protocol of exit, wait and join.** In every reachable state of the process table:
every process is created once, and every reaping is right (`Reap.Ok`: once, after the child
exited, by its parent at that time, returning its `pid` and, from `thread_join`, the stack it
was created with); every process but `init` has a parent that is neither `UNUSED` nor
`ZOMBIE`; and no process sleeps in `wait` next to a zombie child, nor in `thread_join` next to
one that shares its page directory. -/
theorem exit_wait_protocol (hs : (system initproc).Reachable s) :
    (∀ h₁ u pid m h₂, s.hist = h₁ ++ .created u pid m :: h₂ →
      ∀ pid' m', .created u pid' m' ∉ h₂) ∧
    (∀ h₁ r h₂, s.hist = h₁ ++ .reaped r :: h₂ → r.Ok h₂) ∧
    (∀ p, p ≠ initproc → (s.proc p).state ≠ .unused → (s.proc p).state ≠ .embryo →
      ∃ q, (s.proc p).parent = some q ∧ (s.proc q).state ≠ .unused ∧
        (s.proc q).state ≠ .zombie) ∧
    (∀ p c, (s.proc p).state = .sleeping → (s.proc p).pc = .inWait →
      (s.proc c).parent = some p → (s.proc c).state ≠ .zombie) ∧
    (∀ p c, (s.proc p).state = .sleeping → (s.proc p).pc = .inJoin →
      (s.proc c).parent = some p → (s.proc c).pgdir = (s.proc p).pgdir →
      (s.proc c).state ≠ .zombie) := by
  have h := inv_reachable hs
  refine ⟨h.born.once, h.hist.ok, fun p hpi hu he => ?_, fun p c hp hpc hc => ?_,
    fun p c hp hpc hc hpg => ?_⟩
  · obtain ⟨q, h1, h2, -⟩ := h.core.parent p ⟨hu, he⟩ hpi
    refine ⟨q, h1, h2.live.ne_unused, fun hz => ?_⟩
    simp [hz] at h2
  · exact h.asleep.kids p false hp hpc c hc (by simp)
  · exact h.asleep.kids p true hp hpc c hc fun _ => hpg

/-- The theorem is not vacuous: `init` makes a thread with stack 4096, the thread exits, and
`thread_join` reaps it and returns that stack. -/
theorem exit_wait_protocol_join : ∃ s : State 2, (system 0).Reachable s ∧
    (∃ r h, s.hist = .reaped r :: h ∧ r.stack = some 4096) ∧
    ∀ h₁ r h₂, s.hist = h₁ ++ .reaped r :: h₂ → r.Ok h₂ := by
  have h₀ : (system (0 : Fin 2)).Reachable (initState 0) := .init rfl
  have h₁ := h₀.step (.schedule (p := 0) rfl (by decide) (by decide))
  have h₂ := h₁.step (.allocproc (p := 0) (m := .thread 4096) ⟨rfl, rfl⟩ rfl)
  have h₃ := h₂.step (.threadCreate (p := 0) rfl rfl)
  have h₄ := h₃.step (.schedule (p := 1) rfl (by decide) (by decide))
  have h₅ := h₄.step (.exit (p := 1) ⟨rfl, rfl⟩ (by decide))
  have h₆ := h₅.step (@Step.reap _ _ _ true 0 1 (Or.inl ⟨rfl, rfl⟩) rfl)
  exact ⟨_, h₆, ⟨_, _, rfl, rfl⟩, (exit_wait_protocol h₆).2.1⟩

end Protocol

end Xv6.Ptable
