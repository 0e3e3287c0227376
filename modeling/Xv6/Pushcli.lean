import Mathlib.Data.Int.Notation
import Mathlib.Logic.Function.Basic
import Mathlib.Order.Basic
import Xv6.Transition

/-!
# Interrupt Nesting

`pushcli` and `popcli`, `acquire` and `release` (`spinlock.c`), and the switches between the kernel
threads of processes and the scheduler of each CPU (`sched`, `scheduler`). How many levels of
`pushcli` there are and whether interrupts were on before the first of them is kept by the CPU, but
the levels belong to the thread, which may be on another CPU when it comes to leave them.

The calls of a thread are matched: it leaves a level only if it is in one. Outside of all levels
interrupts may be turned on and off, by `sti` and `cli` and by a trap and the return from it. A CPU
that panics goes no further.

## Main results

* `Inv.step`: the invariant is preserved by every step.
* `nesting_balanced`: **interrupts are off inside, and outside as they were before.**
-/

open Transition
open Function (update forall_update_iff)

namespace Xv6.Pushcli

/-- Ghost state of a kernel thread: how many levels it is in, and the flag when it entered the
outermost one. A new process is in a level that it has not entered itself. -/
structure Levels where
  depth : ℕ
  entry : Option Bool

/-- What concerns interrupts in `struct cpu`, and `FL_IF` of the register `eflags`. -/
structure Cpu (ι : Type) where
  ncli : ℤ
  intena : Bool
  flIf : Bool
  /-- the process that runs; if there is none, the scheduler does -/
  proc : Option ι
  /-- ghost: the levels of the thread that runs -/
  running : Levels
  /-- ghost: the levels of the scheduler while a process runs -/
  scheduler : Levels

/-- Where the kernel thread of a process is. -/
inductive Place
  | running
  /-- in `sched`, whose local variable is `intena` -/
  | off (intena : Bool) (l : Levels)
  /-- it has not run yet, and will start in `forkret`, inside of a level of the scheduler -/
  | new

section Code

variable {ι : Type}

/-- `pushcli()`. -/
def Cpu.pushcli (v : Cpu ι) : Cpu ι :=
  { v with
    ncli := v.ncli + 1
    intena := if v.ncli = 0 then v.flIf else v.intena
    flIf := false
    running := ⟨v.running.depth + 1,
      if v.running.depth = 0 then some v.flIf else v.running.entry⟩ }

/-- `popcli()`; it is `none` when the code panics. -/
def Cpu.popcli (v : Cpu ι) : Option (Cpu ι) :=
  if v.flIf then none
  else if v.ncli - 1 < 0 then none
  else some { v with
    ncli := v.ncli - 1
    flIf := v.ncli - 1 = 0 ∧ v.intena
    running := { v.running with depth := v.running.depth - 1 } }

/-- `swtch` to the scheduler. -/
def Cpu.leave (v : Cpu ι) : Cpu ι := { v with proc := none, running := v.scheduler }

/-- `swtch` to process `p`, and what it does first: the second half of `sched`, if it is there. -/
def Cpu.enter (v : Cpu ι) (p : ι) : Place → Option (Cpu ι)
  | .running => none
  | .off intena l =>
    some { v with intena := intena, proc := some p, running := l, scheduler := v.running }
  | .new => some { v with proc := some p, running := ⟨1, none⟩, scheduler := v.running }

end Code

/-- The CPUs `κ`, the processes `ι` and the locks `Λ`. -/
structure State (κ ι Λ : Type) where
  cpu : κ → Cpu ι
  place : ι → Place
  /-- the CPU that holds a lock -/
  locks : Λ → Option κ
  /-- the lock that a CPU spins for -/
  spin : κ → Option Λ

/-- What a CPU does. -/
inductive Act (κ ι Λ : Type)
  | pushcli (c : κ)
  | popcli (c : κ)
  | flag (c : κ) (b : Bool)
  | acquire (c : κ) (l : Λ)
  | xchg (c : κ)
  | release (c : κ) (l : Λ)
  | sched (c : κ)
  | swtch (c : κ) (p : ι)

section Model

variable {κ ι Λ : Type}

/-- The state with another state of one CPU. -/
def State.setCpu [DecidableEq κ] (s : State κ ι Λ) (c : κ) (v : Cpu ι) : State κ ι Λ :=
  { s with cpu := update s.cpu c v }

/-- The state with another place of one process. -/
def State.setPlace [DecidableEq ι] (s : State κ ι Λ) (p : ι) (l : Place) : State κ ι Λ :=
  { s with place := update s.place p l }

/-- The steps, where `ptable` is `ptable.lock`. -/
inductive Step [DecidableEq κ] [DecidableEq ι] [DecidableEq Λ] (ptable : Λ) :
    State κ ι Λ → Act κ ι Λ → State κ ι Λ → Prop
  | pushcli {s c} : s.spin c = none → Step ptable s (.pushcli c) (s.setCpu c (s.cpu c).pushcli)
  | popcli {s c v} : s.spin c = none → 0 < (s.cpu c).running.depth →
      (s.cpu c).popcli = some v → Step ptable s (.popcli c) (s.setCpu c v)
  /-- `sti`, `cli`, a trap or the return from it -/
  | flag {s c b} : s.spin c = none → (s.cpu c).running.depth = 0 →
      Step ptable s (.flag c b) (s.setCpu c { s.cpu c with flIf := b })
  /-- `acquire` up to its loop; it panics if the CPU holds the lock -/
  | acquire {s c l} : s.spin c = none → s.locks l ≠ some c →
      Step ptable s (.acquire c l)
        { s.setCpu c (s.cpu c).pushcli with spin := update s.spin c (some l) }
  /-- the `xchg` that gets the lock -/
  | xchg {s c l} : s.spin c = some l → s.locks l = none →
      Step ptable s (.xchg c)
        { s with locks := update s.locks l (some c), spin := update s.spin c none }
  | release {s c l v} : s.spin c = none → s.locks l = some c → 0 < (s.cpu c).running.depth →
      (s.cpu c).popcli = some v →
      Step ptable s (.release c l) { s.setCpu c v with locks := update s.locks l none }
  /-- `sched` up to `swtch`, with its tests -/
  | sched {s c p} : s.spin c = none → (s.cpu c).proc = some p → s.locks ptable = some c →
      (s.cpu c).ncli = 1 → (s.cpu c).flIf = false →
      Step ptable s (.sched c)
        ((s.setCpu c (s.cpu c).leave).setPlace p (.off (s.cpu c).intena (s.cpu c).running))
  /-- `scheduler` switches to a process, inside of its one level -/
  | swtch {s c p v} : s.spin c = none → (s.cpu c).proc = none → (s.cpu c).running.depth = 1 →
      (s.cpu c).enter p (s.place p) = some v →
      Step ptable s (.swtch c p) ((s.setCpu c v).setPlace p .running)

/-- The runs: at first every CPU is about to enter its scheduler, and no process has run. -/
def system [DecidableEq κ] [DecidableEq ι] [DecidableEq Λ] (ptable : Λ) :
    System (State κ ι Λ) (Act κ ι Λ) where
  init s := (∀ c, (s.cpu c).ncli = 0 ∧ (s.cpu c).proc = none ∧ (s.cpu c).running.depth = 0) ∧
    ∀ p, s.place p = .new
  step := Step ptable

/-! ### The invariant -/

/-- The invariant of a CPU. -/
structure Ok (v : Cpu ι) : Prop where
  ncli : v.ncli = v.running.depth
  off : 0 < v.running.depth → v.flIf = false
  intena : ∀ p b, v.proc = some p → 0 < v.running.depth → v.running.entry = some b → v.intena = b
  scheduler : ∀ p, v.proc = some p → v.scheduler.depth = 1

/-- **The invariant.** A thread that does not run is in one level. -/
structure Inv (s : State κ ι Λ) : Prop where
  cpu : ∀ c, Ok (s.cpu c)
  place : ∀ p i l, s.place p = .off i l → l.depth = 1 ∧ ∀ b, l.entry = some b → i = b

variable {s t : State κ ι Λ} {a : Act κ ι Λ} {ptable : Λ} {v w : Cpu ι}

/-- `pushcli` keeps the invariant of the CPU: the first level records the flag. -/
theorem Ok.pushcli (h : Ok v) : Ok v.pushcli where
  ncli := by rw [Cpu.pushcli, h.ncli]; rfl
  off _ := rfl
  intena p b hp _ hb := by
    rw [Cpu.pushcli, h.ncli]
    dsimp only [Cpu.pushcli] at hb ⊢
    by_cases h0 : v.running.depth = 0
    · rw [if_pos h0] at hb
      rw [if_pos (by rw [h0]; rfl)]
      exact Option.some.inj hb
    · rw [if_neg h0] at hb
      rw [if_neg (by omega)]
      exact h.intena p b hp (by omega) hb
  scheduler := h.scheduler

/-- Inside of a level `popcli` does not panic. -/
theorem Ok.popcli_eq (h : Ok v) (hpos : 0 < v.running.depth) :
    v.popcli = some { v with
      ncli := v.ncli - 1
      flIf := v.running.depth = 1 ∧ v.intena
      running := { v.running with depth := v.running.depth - 1 } } := by
  have hone : v.ncli - 1 = 0 ↔ v.running.depth = 1 := by
    rw [h.ncli]
    omega
  rw [Cpu.popcli, h.off hpos, if_neg Bool.false_ne_true, if_neg (by rw [h.ncli]; omega)]
  simp only [hone]

/-- `popcli` keeps the invariant of the CPU. -/
theorem Ok.popcli (h : Ok v) (hpos : 0 < v.running.depth) (hw : v.popcli = some w) : Ok w := by
  rw [h.popcli_eq hpos] at hw
  cases hw
  constructor
  case ncli =>
    rw [h.ncli]
    dsimp only
    omega
  case off =>
    dsimp only
    exact fun hlt => decide_eq_false fun h1 => by omega
  case intena => exact fun p b hp _ hb => h.intena p b hp hpos hb
  case scheduler => exact h.scheduler

/-- A new flag outside of all levels. -/
theorem Ok.flag (h : Ok v) (h0 : v.running.depth = 0) (b : Bool) : Ok { v with flIf := b } where
  ncli := h.ncli
  off hpos := absurd hpos (by rw [h0]; exact Nat.lt_irrefl 0)
  intena _ _ _ hpos := absurd hpos (by rw [h0]; exact Nat.lt_irrefl 0)
  scheduler := h.scheduler

/-- A step of one CPU. -/
theorem Inv.setCpu [DecidableEq κ] (h : Inv s) (c : κ) (hv : Ok v) : Inv (s.setCpu c v) where
  cpu := (forall_update_iff s.cpu fun _ => Ok).mpr ⟨hv, fun c' _ => h.cpu c'⟩
  place := h.place

/-- A thread is switched out or in. -/
theorem Inv.setPlace [DecidableEq ι] (h : Inv s) (p : ι) {x : Place}
    (hx : ∀ i l, x = .off i l → l.depth = 1 ∧ ∀ b, l.entry = some b → i = b) :
    Inv (s.setPlace p x) where
  cpu := h.cpu
  place := (forall_update_iff s.place fun _ x => ∀ i l, x = .off i l → l.depth = 1 ∧
    ∀ b, l.entry = some b → i = b).mpr ⟨hx, fun q _ => h.place q⟩

variable [DecidableEq κ] [DecidableEq ι] [DecidableEq Λ]

/-- **Every step keeps the invariant.** -/
theorem Inv.step (h : Inv s) (hstep : Step ptable s a t) : Inv t := by
  cases hstep with
  | pushcli => exact h.setCpu _ (h.cpu _).pushcli
  | popcli _ hpos hv => exact h.setCpu _ ((h.cpu _).popcli hpos hv)
  | flag _ h0 => exact h.setCpu _ ((h.cpu _).flag h0 _)
  | acquire => exact ⟨(h.setCpu _ (h.cpu _).pushcli).cpu, h.place⟩
  | xchg => exact ⟨h.cpu, h.place⟩
  | release _ _ hpos hv => exact ⟨(h.setCpu _ ((h.cpu _).popcli hpos hv)).cpu, h.place⟩
  | @sched c p _ hp _ hncli hoff =>
    have hok := h.cpu c
    have hdepth : (s.cpu c).running.depth = 1 := by
      have := hok.ncli
      omega
    refine (h.setCpu c (v := (s.cpu c).leave) ⟨?_, fun _ => hoff, nofun, nofun⟩).setPlace p
      fun i l he => ?_
    · rw [Cpu.leave, hncli, hok.scheduler p hp]
      rfl
    · cases he
      exact ⟨hdepth, fun b hb => hok.intena p b hp (by omega) hb⟩
  | @swtch c p v _ hnone hone hv =>
    have hok := h.cpu c
    have hncli := hok.ncli
    have hoff := hok.off (by omega)
    refine (h.setCpu c ?_).setPlace p nofun
    cases hplace : s.place p with
    | running =>
      rw [hplace] at hv
      cases hv
    | off i l =>
      obtain ⟨hl, hi⟩ := h.place p i l hplace
      rw [hplace] at hv
      cases hv
      refine ⟨?_, fun _ => hoff, fun _ b _ _ hb => hi b hb, fun _ _ => hone⟩
      rw [hncli, hone, hl]
    | new =>
      rw [hplace] at hv
      cases hv
      refine ⟨?_, fun _ => hoff, nofun, fun _ _ => hone⟩
      rw [hncli, hone]

/-- **Interrupt nesting is balanced.** Of every CPU, `ncli` is the number of levels that its thread
is in, so it is never negative, and inside of a level interrupts are off; `popcli` does not panic
there; and when a process leaves its outermost level, the flag becomes what it was when the process
entered it, on whichever CPU that was. -/
theorem nesting_balanced (h : (system ptable).Reachable s) (c : κ) :
    (s.cpu c).ncli = (s.cpu c).running.depth ∧
      (0 < (s.cpu c).ncli → (s.cpu c).flIf = false) ∧
      (0 < (s.cpu c).running.depth → ∃ w, (s.cpu c).popcli = some w) ∧
      ∀ p b w, (s.cpu c).proc = some p → (s.cpu c).running = ⟨1, some b⟩ →
        (s.cpu c).popcli = some w → w.flIf = b := by
  have hinv : Inv s := by
    refine h.invariant (I := Inv) (fun s hs => ?_) fun _ _ _ hs hstep => hs.step hstep
    obtain ⟨hcpu, hplace⟩ := hs
    refine ⟨fun c => ?_, fun p i l he => ?_⟩
    · obtain ⟨h0, hnone, hdepth⟩ := hcpu c
      refine ⟨by rw [h0, hdepth]; rfl, fun hpos => ?_, fun p _ hp => ?_, fun p hp => ?_⟩
      · rw [hdepth] at hpos
        exact absurd hpos (Nat.lt_irrefl 0)
      · rw [hnone] at hp
        cases hp
      · rw [hnone] at hp
        cases hp
    · rw [hplace p] at he
      cases he
  have hok := hinv.cpu c
  refine ⟨hok.ncli, fun hpos => hok.off ?_, fun hpos => ⟨_, hok.popcli_eq hpos⟩,
    fun p b w hp hl hw => ?_⟩
  · rw [hok.ncli] at hpos
    omega
  · have hpos : 0 < (s.cpu c).running.depth := by
      rw [hl]
      exact Nat.one_pos
    rw [hok.popcli_eq hpos] at hw
    cases hw
    rw [hok.intena p b hp hpos (by rw [hl]), hl]
    simp

/-- A process enters a level with interrupts on, and is switched out on CPU 0 and in again on CPU
1; there it leaves the level, and interrupts are on. -/
theorem nesting_balanced_moved : ∃ s : State Bool Unit Unit, (system ()).Reachable s ∧
    (s.cpu true).proc = some () ∧ (s.cpu true).running = ⟨1, some true⟩ ∧
      ∀ w, (s.cpu true).popcli = some w → w.flIf = true := by
  -- interrupts are on for the scheduler of CPU 0 (`false`), and off for that of CPU 1
  let s₀ : State Bool Unit Unit := ⟨fun c => ⟨0, false, !c, none, ⟨0, none⟩, ⟨0, none⟩⟩,
    fun _ => .new, fun _ => none, fun _ => none⟩
  have h₀ : (system ()).Reachable s₀ := .init ⟨fun _ => ⟨rfl, rfl, rfl⟩, fun _ => rfl⟩
  have h₁ := h₀.step (Step.acquire (c := false) (l := ()) rfl nofun)
  have h₂ := h₁.step (Step.xchg (c := false) rfl rfl)
  have h₃ := h₂.step (Step.swtch (c := false) (p := ()) rfl rfl rfl rfl)
  have h₄ := h₃.step (Step.release (c := false) (l := ()) rfl rfl Nat.one_pos rfl)
  have h₅ := h₄.step (Step.acquire (c := false) (l := ()) rfl nofun)
  have h₆ := h₅.step (Step.xchg (c := false) rfl rfl)
  have h₇ := h₆.step (Step.sched (c := false) rfl rfl rfl rfl rfl)
  have h₈ := h₇.step (Step.release (c := false) (l := ()) rfl rfl Nat.one_pos rfl)
  have h₉ := h₈.step (Step.acquire (c := true) (l := ()) rfl nofun)
  have h₁₀ := h₉.step (Step.xchg (c := true) rfl rfl)
  have h₁₁ := h₁₀.step (Step.swtch (c := true) (p := ()) rfl rfl rfl rfl)
  exact ⟨_, h₁₁, rfl, rfl, fun w => (nesting_balanced h₁₁ true).2.2.2 () true w rfl rfl⟩

end Model

end Xv6.Pushcli
