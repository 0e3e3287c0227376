import Xv6.Prog

/-!
# Interleaved Programs

A pool of threads that share a state. Each thread has a program over an interface of operations
(`Prog`), and a step performs the next operation of one of them. A thread whose next operation
fails does not move.

## Main results

* `Pool.run_steps`: a thread that runs alone takes the steps of its program.
* `Pool.run_fails`: a program that fails when it runs alone gets to an operation that fails.
-/

/-- A shared state and the rest of the program of each thread. -/
structure Pool (σ : Type) (Op : Type) (Ret : Op → Type) (α : Type) where
  state : σ
  code : ℕ → Prog Op Ret α

namespace Pool

variable {σ ε Op α : Type} {Ret : Op → Type}

/-- Thread `p` performs its next operation. -/
def Step (exec : ℕ → (o : Op) → σ → Except ε (Ret o × σ)) (p : ℕ) (x y : Pool σ Op Ret α) : Prop :=
  ∃ o k r t, x.code p = .op o k ∧ exec p o x.state = .ok (r, t) ∧
    y = ⟨t, Function.update x.code p (k r)⟩

/-- The state after the next operation of thread `p`, if it can be performed. -/
def next (exec : ℕ → (o : Op) → σ → Except ε (Ret o × σ)) (p : ℕ) (x : Pool σ Op Ret α) :
    Option (Pool σ Op Ret α) :=
  match x.code p with
  | .ret _ => none
  | .op o k =>
    match exec p o x.state with
    | .ok y => some ⟨y.2, Function.update x.code p (k y.1)⟩
    | .error _ => none

variable {exec : ℕ → (o : Op) → σ → Except ε (Ret o × σ)} {R : Pool σ Op Ret α → Prop}
  {x : Pool σ Op Ret α} {p : ℕ} {c : Prog Op Ret α}

/-- The computed step is a step. -/
theorem step_of_next {y : Pool σ Op Ret α} (h : x.next exec p = some y) : Step exec p x y := by
  rw [next] at h
  cases hc : x.code p with
  | ret a =>
    rw [hc] at h
    cases h
  | op o k =>
    rw [hc] at h
    cases he : exec p o x.state with
    | error e =>
      simp only [he] at h
      cases h
    | ok z =>
      simp only [he] at h
      exact ⟨o, k, z.1, z.2, hc, he, (Option.some.inj h).symm⟩

/-- **A thread that runs alone**: what is closed under the steps of the thread contains the state
in which its program ends. -/
theorem run_steps (hR : ∀ x y, R x → Step exec p x y → R y) (hx : R x) (hc : x.code p = c) {a : α}
    {t : σ} (hrun : c.run (exec p) x.state = .ok (a, t)) :
    R ⟨t, Function.update x.code p (.ret a)⟩ := by
  induction c generalizing x with
  | ret b =>
    obtain ⟨rfl, rfl⟩ := Prod.mk.inj (Except.ok.inj hrun)
    have hself : Function.update x.code p (.ret b) = x.code := by
      rw [← hc, Function.update_eq_self]
    rw [hself]
    exact hx
  | op o k ih =>
    obtain ⟨⟨r, u⟩, hexec, hrun⟩ := Prog.bind_eq_ok.mp ((Prog.run_op ..).symm.trans hrun)
    have hnext := hR x _ hx ⟨o, k, r, u, hc, hexec, rfl⟩
    have hend := ih r hnext (Function.update_self ..) hrun
    rwa [Function.update_idem] at hend

/-- **A program that fails** when it runs alone gets to an operation that fails. -/
theorem run_fails (hR : ∀ x y, R x → Step exec p x y → R y) (hx : R x) (hc : x.code p = c) {e : ε}
    (hrun : c.run (exec p) x.state = .error e) :
    ∃ y o k, R y ∧ y.code p = .op o k ∧ exec p o y.state = .error e := by
  induction c generalizing x with
  | ret b => cases hrun
  | op o k ih =>
    cases hexec : exec p o x.state with
    | error e' =>
      rw [Prog.run_op, hexec] at hrun
      cases hrun
      exact ⟨x, o, k, hx, hc, hexec⟩
    | ok y =>
      rw [Prog.run_op, hexec] at hrun
      exact ih y.1 (hR x _ hx ⟨o, k, y.1, y.2, hc, hexec, rfl⟩) (Function.update_self ..) hrun

end Pool
