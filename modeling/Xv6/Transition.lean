import Mathlib.Tactic.Common

/-!
# Transition Systems

Runs of a transition system and the induction rules that invariants are proved with. A
`System` has initial states and labelled steps; `Reachable` collects the states of its
runs. A run all of whose steps meet a condition is a run of the system restricted to it
(`System.restrict`), so results about such runs need no rule of their own.

## Main results

* `System.Reachable.invariant`: what holds initially and is preserved by every step holds
  in every reachable state.
* `System.Reachable.mono`: fewer steps, fewer reachable states.
* `System.Reachable.foldlM`: runs that a function computes.
-/

namespace Transition

/-- A transition system: initial states, and steps carrying a label. -/
structure System (σ : Type*) (lab : Type*) where
  init : σ → Prop
  step : σ → lab → σ → Prop

namespace System

variable {σ lab : Type*} {S : System σ lab}

/-- The states that some run of the system reaches. -/
inductive Reachable (S : System σ lab) : σ → Prop
  | init {s : σ} : S.init s → Reachable S s
  | step {s t : σ} {l : lab} : Reachable S s → S.step s l t → Reachable S t

/-- The system whose steps are those that meet the condition `C` on the state before the
step and its label. -/
def restrict (S : System σ lab) (C : σ → lab → Prop) : System σ lab where
  init := S.init
  step s l t := S.step s l t ∧ C s l

/-- **The invariant rule.** -/
theorem Reachable.invariant {I : σ → Prop} (hinit : ∀ s, S.init s → I s)
    (hstep : ∀ s l t, I s → S.step s l t → I t) {s : σ} (h : S.Reachable s) : I s := by
  induction h with
  | init h0 => exact hinit _ h0
  | step _ hs ih => exact hstep _ _ _ ih hs

/-- Every run of a restricted system is a run of the system. -/
theorem Reachable.mono {C : σ → lab → Prop} {s : σ} (h : (S.restrict C).Reachable s) :
    S.Reachable s := by
  induction h with
  | init h0 => exact .init h0
  | step _ hs ih => exact .step ih hs.1

/-- A run given by a function that computes steps. -/
theorem Reachable.foldlM {next : σ → lab → Option σ}
    (hnext : ∀ s l t, next s l = some t → S.step s l t) {s t : σ} (h : S.Reachable s)
    {ls : List lab} (hrun : ls.foldlM next s = some t) : S.Reachable t := by
  induction ls generalizing s with
  | nil =>
    cases hrun
    exact h
  | cons l ls ih =>
    rw [List.foldlM_cons] at hrun
    obtain ⟨u, hu, hrun⟩ := Option.bind_eq_some_iff.mp hrun
    exact ih (h.step (hnext s l u hu)) hrun

end System

/-- A lock that stays where it is, or is taken or given back by `p`, is still held by anybody else
who held it. -/
theorem held_of_ne {α : Type*} {l l' : Option α} {a p : α} (h : l' = l ∨ l = none ∨ l = some p)
    (ha : l = some a) (hne : a ≠ p) : l' = some a := by
  rcases h with rfl | rfl | rfl
  · exact ha
  · cases ha
  · exact absurd (Option.some.inj ha).symm hne

end Transition
