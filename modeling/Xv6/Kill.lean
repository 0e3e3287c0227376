import Xv6.ExitWait

/-!
# Kill

`kill(pid)` sets `killed` in the first slot of the process table whose `pid` is the argument, and
does not look at the state of the slot. A free slot has a `pid` too: 0, or the number of a process
whose creation has failed. Such a slot keeps the mark, since `allocproc` does not clear `killed`,
and the next process in it is killed when it first enters the kernel. As long as every call of
`kill` hits a process that has been created, a process is killed by a call with its own number
only, and starts with `killed` clear.

## Main results

* `step_call_or_kill`: the steps of the process table are calls of `kill` and steps that kill
  nobody.
* `clean_step`: free slots and slots being filled in stay unmarked.
* `killed_only_by_kill`: **a process is killed only by a kill aimed at it.**
* `kill_unused_slot`: `kill(0)` marks a free slot, and the next process is born killed.
-/

open Transition

namespace Xv6.Ptable

section Kill

variable {n : ℕ} {initproc : Fin n} {s t : State n}

/-- `kill(pid)`: the number returned and the table after it. -/
def State.kill (s : State n) (pid : BitVec 32) : ℤ × State n :=
  match findPid s.proc pid with
  | some p =>
    (0, s.set p fun q =>
      { q with killed := true
               state := if q.state = .sleeping then .runnable else q.state })
  | none => (-1, s)

/-- Calls of `kill`, and everything else. -/
inductive KillAct
  | kill (pid : BitVec 32)
  | call
  deriving DecidableEq, Repr

/-- The runs of the process table, with the calls of `kill` told apart. -/
def kills (initproc : Fin n) : System (State n) KillAct where
  init s := s = initState initproc
  step s l t :=
    match l with
    | .kill pid => t = (s.kill pid).2
    | .call => (∃ a, Step initproc s a t) ∧
        ∀ q, (t.proc q).killed = true → (s.proc q).killed = true

/-- A call of `kill` hits a process that has been created, or nothing. -/
def Aimed (s : State n) : KillAct → Prop
  | .kill pid => ∀ p, findPid s.proc pid = some p → (s.proc p).state.Live
  | .call => True

/-! ### Which steps kill -/

/-- `kill` marks the process that it finds, and nobody else. -/
theorem kill_proc (pid : BitVec 32) (q : Fin n) : ((s.kill pid).2.proc q).killed =
    if findPid s.proc pid = some q then true else (s.proc q).killed := by
  cases hf : findPid s.proc pid with
  | none => simp [State.kill, hf]
  | some p =>
    rcases eq_or_ne q p with rfl | hne
    · simp [State.kill, hf]
    · simp [State.kill, hf, hne, hne.symm]

theorem findPid_spec {pid : BitVec 32} {p : Fin n} (h : findPid s.proc pid = some p) :
    (s.proc p).pid = pid := by
  simpa using List.find?_some h

theorem killed_allocproc (p np : Fin n) (m : Maker) (q : Fin n) :
    ((s.allocproc p np m).proc q).killed = (s.proc q).killed := by
  simp only [State.allocproc, State.setBirth_proc, State.set_proc]
  split_ifs <;> rfl

variable {f : Proc n → Proc n}

theorem killed_giveUp (hf : ∀ x, (f x).killed = x.killed) (p np q : Fin n) :
    ((s.giveUp p np f).proc q).killed = (s.proc q).killed := by
  simp only [State.giveUp, State.set_proc]
  split_ifs <;> simp only [hf]

theorem killed_create (hf : ∀ x, (f x).killed = x.killed) (p np : Fin n) (m : Maker) (q : Fin n) :
    ((s.create p np m f).proc q).killed = (s.proc q).killed := by
  simp only [State.create, State.setBirth_proc, State.set_proc]
  split_ifs <;> simp only [hf]

theorem killed_reap (join : Bool) (p c q : Fin n) : ((s.reap join p c).proc q).killed =
    if q = c then false else (s.proc q).killed := by
  simp only [State.reap, State.set_proc]
  split_ifs <;> rfl

/-- A change that marks nobody. -/
theorem killed_of_set {p q : Fin n} (hf : (f (s.proc p)).killed = true → (s.proc p).killed = true)
    (h : ((s.set p f).proc q).killed = true) : (s.proc q).killed = true := by
  rw [State.set_proc] at h
  split_ifs at h with heq
  · subst heq
    exact hf h
  · exact h

/-- **The steps of the process table** are calls of `kill` and steps that kill nobody. -/
theorem step_call_or_kill {a : Act n} (h : Step initproc s a t) :
    (kills initproc).step s .call t ∨ ∃ pid, (kills initproc).step s (.kill pid) t := by
  -- every step but `kill` keeps or clears the marks
  have hcall (hk : ∀ q, (t.proc q).killed = true → (s.proc q).killed = true) :
      (kills initproc).step s .call t ∨ ∃ pid, (kills initproc).step s (.kill pid) t :=
    .inl ⟨⟨a, h⟩, hk⟩
  have hsame (hk : ∀ q, (t.proc q).killed = (s.proc q).killed) :
      (kills initproc).step s .call t ∨ ∃ pid, (kills initproc).step s (.kill pid) t :=
    hcall fun q hq => (hk q).symm.trans hq
  cases h with
  | @kill pid _ hf =>
    refine .inr ⟨pid, ?_⟩
    change _ = (s.kill pid).2
    rw [State.kill, hf]
  | allocproc => exact hsame fun q => killed_allocproc _ _ _ q
  | noStack | noPgdir | noMemory => exact hsame fun q => killed_giveUp (by exact fun _ => rfl) _ _ q
  | fork => exact hsame fun q => killed_create (by exact fun _ => rfl) _ _ .fork q
  | threadCreate => exact hsame fun q => killed_create (by exact fun _ => rfl) _ _ (.thread _) q
  | exit hr hp =>
    refine hcall fun q hq => ?_
    rwa [State.exit_proc hp] at hq
  | @reap join p c =>
    refine hcall fun q hq => ?_
    rw [killed_reap] at hq
    split_ifs at hq
    exact hq
  | noZombie =>
    refine hcall fun q hq => killed_of_set (fun hk => ?_) hq
    split_ifs at hk <;> exact hk
  | @exec p =>
    refine hsame fun q => ?_
    simp only [State.exec, State.set_proc]
    split_ifs <;> rfl
  | execFail => exact hcall fun q hq => hq
  | schedule | yield | sleep => exact hcall fun q hq => killed_of_set id hq
  | wakeup =>
    refine hcall fun q hq => ?_
    change (wakeup1 _ s.proc q).killed = true at hq
    rwa [wakeup1_apply] at hq

/-- Every run of the process table is a run with the calls of `kill` told apart. -/
theorem kills_reachable (h : (system initproc).Reachable s) : (kills initproc).Reachable s := by
  induction h with
  | init h0 => exact .init h0
  | step _ hs ih =>
    rcases step_call_or_kill hs with hc | ⟨pid, hk⟩
    · exact ih.step hc
    · exact ih.step hk

/-- A call of `kill` does nothing, or is a step of the process table. -/
theorem kill_cases (initproc : Fin n) (s : State n) (pid : BitVec 32) :
    (s.kill pid).2 = s ∨ Step initproc s .other (s.kill pid).2 := by
  cases hf : findPid s.proc pid with
  | none => exact .inl (by rw [State.kill, hf])
  | some p =>
    have hstep := (Step.kill hf : Step initproc s .other _)
    exact .inr (by rwa [State.kill, hf])

/-! ### Free slots are unmarked -/

/-- **How a slot gets a process and loses it:** a process is created with the mark of its slot, and
the mark of a process that is reaped is cleared. -/
theorem Core.turnover {a : Act n} (hcore : Core initproc s) (hs : Step initproc s a t)
    (q : Fin n) : ((t.proc q).state.Live ↔ (s.proc q).state.Live) ∨
      (¬ (s.proc q).state.Live ∧ (t.proc q).killed = (s.proc q).killed) ∨
      (t.proc q).killed = false := by
  have hembryo {p np : Fin n} {m : Maker} (hpc : (s.proc p).pc = .alloced m np) :
      ¬ (s.proc np).state.Live := by
    rw [(hcore.alloced p m np hpc).2.1]
    exact fun h => h.2 rfl
  cases hs.kind with
  | quiet hq => exact .inl (hq.live_iff q)
  | discard => exact .inl Iff.rfl
  | @allocproc p np m hr hnp =>
    rcases eq_or_ne q np with rfl | hne
    · exact .inr (.inl ⟨fun h => h.1 hnp, killed_allocproc ..⟩)
    · exact .inl (kept_allocproc hne).state.live_iff
  | @giveUp p np m f _ hf hpc hu =>
    have hproc : (t.proc q).state = ((s.giveUp p np f).proc q).state := by
      rcases hu with rfl | rfl <;> rfl
    left
    rw [hproc]
    rcases eq_or_ne q np with rfl | hne
    · simp [hembryo hpc, giveUp_state (hcore.alloced_ne hpc)]
    · exact (kept_giveUp hne).state.live_iff
  | @fork p np hpc =>
    rcases eq_or_ne q np with rfl | hne
    · exact .inr (.inl ⟨hembryo hpc, killed_create (by exact fun _ => rfl) _ _ .fork q⟩)
    · exact .inl (kept_fork hne).state.live_iff
  | @threadCreate p np stack hpc =>
    rcases eq_or_ne q np with rfl | hne
    · exact .inr (.inl ⟨hembryo hpc, killed_create (by exact fun _ => rfl) _ _ (.thread _) q⟩)
    · exact .inl (kept_create hne).state.live_iff
  | @exit p hr hp =>
    left
    rcases eq_or_ne q p with rfl | hne
    · simp [State.exit_state_self hp, hr.1]
    · exact (State.exit_state hp hne).live_iff
  | @reap join p c hsc =>
    rcases eq_or_ne q c with rfl | hne
    · exact .inr (.inr (by rw [killed_reap, if_pos rfl]))
    · exact .inl (kept_reap join hsc.active hne).state.live_iff
  | exec => exact .inl ((Quiet.exec _).live_iff q)

/-- `kill` neither makes nor unmakes a process. -/
theorem live_kill (pid : BitVec 32) (q : Fin n) :
    ((s.kill pid).2.proc q).state.Live ↔ (s.proc q).state.Live := by
  refine ProcState.Steady.live_iff ?_
  cases hf : findPid s.proc pid with
  | none => exact .inl (by rw [State.kill, hf])
  | some p =>
    simp only [State.kill, hf, State.set_proc]
    split_ifs with hq hsl
    · exact .inr ⟨.inl hsl, .inr (.inl rfl)⟩
    · exact .inl rfl
    · exact .inl rfl

/-- Slots that are free or being filled in are not marked. -/
def Clean (s : State n) : Prop := ∀ q, ¬ (s.proc q).state.Live → (s.proc q).killed = false

/-- **One step keeps free slots unmarked**, if `kill` hits a process that has been created. -/
theorem clean_step {l : KillAct} (hcore : Core initproc s) (h : Clean s)
    (hs : (kills initproc).step s l t) (haim : Aimed s l) : Clean t := by
  intro q hq
  cases l with
  | call =>
    obtain ⟨⟨a, hs⟩, hk⟩ := hs
    rcases hcore.turnover hs q with hiff | ⟨hdead, hsame⟩ | hclear
    · rw [Bool.eq_false_iff]
      intro hkilled
      have := h q (fun hl => hq (hiff.mpr hl))
      rw [hk q hkilled] at this
      cases this
    · rw [hsame]
      exact h q hdead
    · exact hclear
  | kill pid =>
    obtain rfl : t = (s.kill pid).2 := hs
    rw [live_kill] at hq
    rw [kill_proc, if_neg fun hf => hq (haim q hf)]
    exact h q hq

/-- A run with the calls of `kill` told apart is a run of the process table. -/
theorem system_step_or_eq {l : KillAct} (hs : (kills initproc).step s l t) :
    t = s ∨ ∃ a, (system initproc).step s a t := by
  cases l with
  | call => exact .inr hs.1
  | kill pid =>
    obtain rfl : t = (s.kill pid).2 := hs
    exact (kill_cases initproc s pid).imp_right fun h => ⟨_, h⟩

/-- **Free slots are unmarked in every run** in which `kill` hits processes that have been
created. -/
theorem clean_reachable (hreach : ((kills initproc).restrict Aimed).Reachable s) :
    (system initproc).Reachable s ∧ Clean s := by
  refine hreach.invariant (I := fun s => (system initproc).Reachable s ∧ Clean s) ?_ ?_
  · rintro _ rfl
    refine ⟨.init rfl, fun q _ => ?_⟩
    simp only [initState]
    split_ifs <;> rfl
  · rintro s l t ⟨hsys, hclean⟩ ⟨hs, haim⟩
    refine ⟨?_, clean_step (inv_reachable hsys).core hclean hs haim⟩
    rcases system_step_or_eq hs with rfl | ⟨a, hstep⟩
    · exact hsys
    · exact hsys.step hstep

/-- **A process is killed only by a kill aimed at it.** In every run in which `kill` hits processes
that have been created: a call of `kill` that returns 0 has found a process with that number;
what marks a process is a call with its number; and a process that is created starts unmarked. -/
theorem killed_only_by_kill (hreach : ((kills initproc).restrict Aimed).Reachable s) :
    (∀ pid, Aimed s (.kill pid) → (s.kill pid).1 = 0 →
      ∃ p, (s.proc p).state ≠ .unused ∧ (s.proc p).pid = pid) ∧
    (∀ l t q, ((kills initproc).restrict Aimed).step s l t → (s.proc q).killed = false →
      (t.proc q).killed = true → l = .kill (s.proc q).pid ∧ (s.proc q).state ≠ .unused) ∧
    ∀ a t q, Step initproc s a t → ¬ (s.proc q).state.Live → (t.proc q).state.Live →
      (t.proc q).killed = false := by
  obtain ⟨hsys, hclean⟩ := clean_reachable hreach
  refine ⟨fun pid haim hret => ?_, fun l t q hs hfree hmark => ?_, fun a t q hs hdead hlive => ?_⟩
  · cases hf : findPid s.proc pid with
    | none => simp [State.kill, hf] at hret
    | some p => exact ⟨p, (haim p hf).ne_unused, findPid_spec hf⟩
  · obtain ⟨hs, haim⟩ := hs
    cases l with
    | call =>
      rw [hs.2 q hmark] at hfree
      cases hfree
    | kill pid =>
      obtain rfl : t = (s.kill pid).2 := hs
      rw [kill_proc, hfree] at hmark
      have hf : findPid s.proc pid = some q := by simpa using hmark
      exact ⟨by rw [findPid_spec hf], (haim q hf).ne_unused⟩
  · rcases (inv_reachable hsys).core.turnover hs q with hiff | ⟨-, hsame⟩ | hclear
    · exact absurd (hiff.mp hlive) hdead
    · rw [hsame]
      exact hclean q hdead
    · exact hclear

/-- The theorem is not vacuous: `init` makes a child, and kills it by its number. -/
theorem killed_only_by_kill_child : ∃ s : State 64,
    ((kills 0).restrict Aimed).Reachable s ∧ Aimed s (.kill 2) ∧ (s.kill 2).1 = 0 ∧
      ∃ p, (s.proc p).state ≠ .unused ∧ (s.proc p).pid = 2 := by
  have h₀ : ((kills (0 : Fin 64)).restrict Aimed).Reachable (initState 0) := .init rfl
  have hcall {s t : State 64} (h : ((kills (0 : Fin 64)).restrict Aimed).Reachable s)
      (hs : ∃ a, Step 0 s a t)
      (hk : ∀ q, (t.proc q).killed = true → (s.proc q).killed = true) :
      ((kills (0 : Fin 64)).restrict Aimed).Reachable t :=
    h.step (l := .call) ⟨⟨hs, hk⟩, trivial⟩
  have h₁ := hcall h₀ ⟨_, .schedule (p := 0) rfl (by decide) (by decide)⟩
    fun q => killed_of_set id
  have h₂ := hcall h₁ ⟨_, .allocproc (p := 0) (m := .fork) ⟨rfl, rfl⟩ rfl⟩
    fun q hq => (killed_allocproc ..).symm.trans hq
  have h₃ := hcall h₂ ⟨_, .fork (p := 0) rfl rfl⟩
    fun q hq => (killed_create (by exact fun _ => rfl) _ _ .fork q).symm.trans hq
  refine ⟨_, h₃, ?_, rfl, (killed_only_by_kill h₃).1 2 ?_ rfl⟩
  all_goals
    intro p hp
    obtain rfl : 1 = p := Option.some.inj hp
    exact ⟨nofun, nofun⟩

/-- **A free slot is marked.** After boot `kill(0)` returns 0 and marks a free slot, whose number is
0, and the first child of `init`, which gets that slot, is born killed. -/
theorem kill_unused_slot : ∃ s t : State 64, (kills 0).Reachable s ∧ (s.kill 0).1 = 0 ∧
    (s.proc 1).state = .unused ∧ ((s.kill 0).2.proc 1).killed = true ∧ (kills 0).Reachable t ∧
    (t.proc 1).state = .runnable ∧ (t.proc 1).killed = true := by
  have h₀ : (kills (0 : Fin 64)).Reachable (initState 0) := .init rfl
  have hcall {s t : State 64} (h : (kills (0 : Fin 64)).Reachable s) (hs : ∃ a, Step 0 s a t)
      (hk : ∀ q, (t.proc q).killed = true → (s.proc q).killed = true) :
      (kills (0 : Fin 64)).Reachable t := h.step (l := .call) ⟨hs, hk⟩
  have hkill {s : State 64} (h : (kills (0 : Fin 64)).Reachable s) (pid : BitVec 32) :
      (kills (0 : Fin 64)).Reachable (s.kill pid).2 := h.step (l := .kill pid) rfl
  have h₁ := hcall h₀ ⟨_, .schedule (p := 0) rfl (by decide) (by decide)⟩
    fun q => killed_of_set id
  have h₂ := hkill h₁ 0
  have h₃ := hcall h₂ ⟨_, .allocproc (p := 0) (m := .fork) ⟨rfl, rfl⟩ rfl⟩
    fun q hq => (killed_allocproc ..).symm.trans hq
  have h₄ := hcall h₃ ⟨_, .fork (p := 0) rfl rfl⟩
    fun q hq => (killed_create (by exact fun _ => rfl) _ _ .fork q).symm.trans hq
  exact ⟨_, _, h₁, rfl, rfl, rfl, h₄, rfl, rfl⟩

end Kill

end Xv6.Ptable
