import Mathlib.Tactic.Common

/-!
# Programs over an Interface of Operations

A program is a tree of operations: it either returns a value or asks for an operation and
goes on with the answer. The same tree has several meanings. `Prog.run` executes it with a
handler that interprets each operation on a state and may fail, and a step relation can
interleave the operations of several such trees.

## Main results

* `Prog.run_bind`: a handler runs a sequence one part after the other.
* `Prog.run_mono`: a handler that fails less often gives the same result wherever the other
  one gives a result.
* `Prog.wp_bind`, `Prog.wp_mono`: rules for pre- and postconditions, with a postcondition for
  failures.
* `Prog.Only.wp`: what every operation of a program keeps, the program keeps.
-/

/-- A program over the operations `Op`, where `Ret o` is the type of the answer to `o`. -/
inductive Prog (Op : Type) (Ret : Op → Type) (α : Type) : Type
  | ret (a : α)
  | op (o : Op) (k : Ret o → Prog Op Ret α)

namespace Prog

variable {Op : Type} {Ret : Op → Type} {α β γ σ ε : Type}

/-- Run `p`, then `f` on its result. -/
def andThen (p : Prog Op Ret α) (f : α → Prog Op Ret β) : Prog Op Ret β :=
  match p with
  | ret a => f a
  | op o k => op o fun r => (k r).andThen f

instance : Monad (Prog Op Ret) where
  pure := ret
  bind := andThen

/-- The program that performs one operation and returns the answer. -/
def lift (o : Op) : Prog Op Ret (Ret o) := op o ret

@[simp] theorem op_bind (o : Op) (k : Ret o → Prog Op Ret α) (f : α → Prog Op Ret β) :
    (op o k >>= f) = op o fun r => k r >>= f := rfl

theorem andThen_ret (p : Prog Op Ret α) : p.andThen ret = p := by
  induction p with
  | ret a => rfl
  | op o k ih => exact congrArg (op o) (funext ih)

/-- Sequencing is associative. -/
theorem andThen_assoc (p : Prog Op Ret α) (f : α → Prog Op Ret β) (g : β → Prog Op Ret γ) :
    (p.andThen f).andThen g = p.andThen fun a => (f a).andThen g := by
  induction p with
  | ret a => rfl
  | op o k ih => exact congrArg (op o) (funext ih)

instance : LawfulMonad (Prog Op Ret) :=
  LawfulMonad.mk' (Prog Op Ret) (fun p => andThen_ret p) (fun _ _ => rfl)
    fun p f g => andThen_assoc p f g

/-! ### Running a program -/

/-- Execute a program, with `exec` giving the answer and the next state of each operation. -/
def run (exec : (o : Op) → σ → Except ε (Ret o × σ)) : Prog Op Ret α → σ → Except ε (α × σ)
  | ret a, s => .ok (a, s)
  | op o k, s => (exec o s).bind fun rt => (k rt.1).run exec rt.2

section Run

variable {exec : (o : Op) → σ → Except ε (Ret o × σ)}

@[simp] theorem run_pure (a : α) (s : σ) : (pure a : Prog Op Ret α).run exec s = .ok (a, s) := rfl

theorem run_op (o : Op) (k : Ret o → Prog Op Ret α) (s : σ) :
    (op o k).run exec s = (exec o s).bind fun rt => (k rt.1).run exec rt.2 := rfl

@[simp] theorem run_lift (o : Op) (s : σ) : (lift o : Prog Op Ret _).run exec s = exec o s := by
  rw [lift, run_op]
  cases exec o s <;> rfl

/-- A sequence runs one part after the other. -/
theorem run_bind (p : Prog Op Ret α) (f : α → Prog Op Ret β) (s : σ) :
    (p >>= f).run exec s = (p.run exec s).bind fun at' => (f at'.1).run exec at'.2 := by
  induction p generalizing s with
  | ret a => rfl
  | op o k ih =>
    rw [op_bind, run_op, run_op]
    cases exec o s with
    | ok rt => exact ih rt.1 rt.2
    | error e => rfl

@[simp] theorem run_map (f : α → β) (p : Prog Op Ret α) (s : σ) :
    (f <$> p).run exec s = (p.run exec s).bind fun at' => .ok (f at'.1, at'.2) := by
  rw [map_eq_pure_bind, run_bind]
  rfl

/-- `run_bind` when the first part has been run. -/
@[simp] theorem ok_bind (x : α × σ) (f : α × σ → Except ε (β × σ)) :
    (Except.ok x).bind f = f x := rfl

@[simp] theorem error_bind (e : ε) (f : α × σ → Except ε (β × σ)) :
    (Except.error e).bind f = .error e := rfl

variable {x : Except ε (α × σ)} {a : α} {p : Prog Op Ret α} {s t : σ} {e : ε}
  {exec' : (o : Op) → σ → Except ε (Ret o × σ)} {f : α → Prog Op Ret β}

/-- What returns has returned from both parts. -/
theorem bind_eq_ok {f : α × σ → Except ε (β × σ)} {y : β × σ} :
    x.bind f = .ok y ↔ ∃ a, x = .ok a ∧ f a = .ok y := by
  cases x with
  | ok a => simp
  | error e => simp

theorem run_bind_ok (f : α → Prog Op Ret β) (h : p.run exec s = .ok (a, t)) :
    (p >>= f).run exec s = (f a).run exec t := by
  rw [run_bind, h]
  rfl

theorem run_bind_error (f : α → Prog Op Ret β) (h : p.run exec s = .error e) :
    (p >>= f).run exec s = .error e := by
  rw [run_bind, h]
  rfl

/-- A handler that allows more runs gives the same results where there were some. -/
theorem run_mono (h : ∀ o s x, exec o s = .ok x → exec' o s = .ok x) {x : α × σ}
    (hp : p.run exec s = .ok x) : p.run exec' s = .ok x := by
  induction p generalizing s with
  | ret a => exact hp
  | op o k ih =>
    rw [run_op] at hp ⊢
    cases hx : exec o s with
    | ok rt =>
      rw [hx] at hp
      rw [h o s rt hx]
      exact ih rt.1 hp
    | error e =>
      rw [hx] at hp
      cases hp

/-- A handler that differs from another only by failing with `e` gives the same result or fails
with `e`. -/
theorem run_ok_or (h : ∀ o s x, exec o s = .ok x → exec' o s = .ok x ∨ exec' o s = .error e)
    {x : α × σ} (hp : p.run exec s = .ok x) : p.run exec' s = .ok x ∨ p.run exec' s = .error e := by
  induction p generalizing s with
  | ret a => exact Or.inl hp
  | op o k ih =>
    rw [run_op] at hp ⊢
    cases hx : exec o s with
    | ok rt =>
      rw [hx] at hp
      rcases h o s rt hx with he | he
      · rw [he]
        exact ih rt.1 hp
      · rw [he]
        exact Or.inr rfl
    | error e' =>
      rw [hx] at hp
      cases hp

/-- Whether a run returns, with a result and a state that pass the test `P`. -/
def check (P : α → σ → Bool) : Except ε (α × σ) → Bool
  | .ok x => P x.1 x.2
  | .error _ => false

/-- A check that succeeds, taken apart. -/
theorem exists_of_check {P : α → σ → Bool} {r : Except ε (α × σ)} (h : check P r = true) :
    ∃ a t, r = .ok (a, t) ∧ P a t = true := by
  cases r with
  | ok x => exact ⟨x.1, x.2, rfl, h⟩
  | error e => cases h

/-- The error that a run has ended with. -/
def fault : Except ε (α × σ) → Option ε
  | .ok _ => none
  | .error e => some e

theorem eq_error_of_fault (h : fault x = some e) : x = .error e := by
  cases x with
  | ok a => cases h
  | error e' => exact congrArg Except.error (Option.some.inj h)

/-! ### Pre- and postconditions -/

/-- A run returned and `Q` holds of its result and state, or it failed and `E` holds of its
error. -/
def Outcome (Q : α → σ → Prop) (E : ε → Prop) : Except ε (α × σ) → Prop
  | .ok x => Q x.1 x.2
  | .error e => E e

/-- The weakest precondition for `Q` to hold after a run that returns, and `E` after one that
fails. -/
def wp (exec : (o : Op) → σ → Except ε (Ret o × σ)) (p : Prog Op Ret α)
    (Q : α → σ → Prop) (E : ε → Prop) (s : σ) : Prop :=
  Outcome Q E (p.run exec s)

variable {Q R : α → σ → Prop} {E F : ε → Prop} {s : σ}

theorem wp_of_ok (h : p.run exec s = .ok (a, t)) (hQ : Q a t) : wp exec p Q E s := by
  rw [wp, h]
  exact hQ

theorem wp_of_error (h : p.run exec s = .error e) (hE : E e) : wp exec p Q E s := by
  rw [wp, h]
  exact hE

/-- What a run that returns has established. -/
theorem wp.ok (h : wp exec p Q E s) (hp : p.run exec s = .ok (a, t)) : Q a t := by
  rwa [wp, hp] at h

theorem wp.error {e : ε} (h : wp exec p Q E s) (hp : p.run exec s = .error e) : E e := by
  rwa [wp, hp] at h

/-- A program that cannot fail returns. -/
theorem wp.exists_ok (h : wp exec p Q (fun _ => False) s) :
    ∃ a t, p.run exec s = .ok (a, t) ∧ Q a t := by
  rw [wp] at h
  cases hp : p.run exec s with
  | ok x =>
    rw [hp] at h
    exact ⟨x.1, x.2, rfl, h⟩
  | error e =>
    rw [hp] at h
    exact h.elim

/-- **The sequence rule.** -/
theorem wp_bind {Q : β → σ → Prop} :
    wp exec (p >>= f) Q E s ↔ wp exec p (fun a t => wp exec (f a) Q E t) E s := by
  rw [wp, wp, run_bind]
  cases p.run exec s <;> rfl

/-- The sequence rule when the first part has been run. -/
theorem wp_bind_of_ok {Q : β → σ → Prop} (h : p.run exec s = .ok (a, t))
    (hf : wp exec (f a) Q E t) : wp exec (p >>= f) Q E s :=
  wp_bind.mpr (wp_of_ok h hf)

/-- **The consequence rule.** -/
theorem wp_mono (h : wp exec p Q E s) (hQ : ∀ a t, Q a t → R a t) (hE : ∀ e, E e → F e) :
    wp exec p R F s := by
  rw [wp] at h ⊢
  cases hp : p.run exec s with
  | ok x =>
    rw [hp] at h
    exact hQ _ _ h
  | error e =>
    rw [hp] at h
    exact hE _ h

/-- Sequencing with the consequence rule built in. -/
theorem wp.bind {Q : β → σ → Prop} (h : wp exec p R F s) (hf : ∀ a t, R a t → wp exec (f a) Q E t)
    (hE : ∀ e, F e → E e) : wp exec (p >>= f) Q E s :=
  wp_bind.mpr (wp_mono h hf hE)

/-! ### The operations of a program -/

/-- Every operation that the program can perform satisfies `P`. -/
def Only (P : Op → Prop) : Prog Op Ret α → Prop
  | ret _ => True
  | op o k => P o ∧ ∀ r, (k r).Only P

section Only

variable {P : Op → Prop}

theorem only_lift {o : Op} (h : P o) : Only P (lift o : Prog Op Ret (Ret o)) :=
  ⟨h, fun _ => trivial⟩

/-- Both parts use the operations only. -/
theorem Only.bind {p : Prog Op Ret α} {f : α → Prog Op Ret β} (hp : p.Only P)
    (hf : ∀ a, (f a).Only P) : (p >>= f).Only P := by
  induction p with
  | ret a => exact hf a
  | op o k ih => exact ⟨hp.1, fun r => ih r (hp.2 r)⟩

/-- Both cases of what the first part returns. -/
theorem Only.option {p : Prog Op Ret (Option α)} {f : Option α → Prog Op Ret β} (hp : p.Only P)
    (hnone : (f none).Only P) (hsome : ∀ a, (f (some a)).Only P) : (p >>= f).Only P := by
  refine hp.bind fun r => ?_
  cases r with
  | none => exact hnone
  | some a => exact hsome a

/-- A larger set of operations. -/
theorem Only.mono {Q : Op → Prop} {p : Prog Op Ret α} (hp : p.Only P) (hPQ : ∀ o, P o → Q o) :
    p.Only Q := by
  induction p with
  | ret a => trivial
  | op o k ih => exact ⟨hPQ o hp.1, fun r => ih r (hp.2 r)⟩

/-- **What every operation keeps, the program keeps.** -/
theorem Only.wp {I : σ → Prop} {p : Prog Op Ret α} (hp : p.Only P)
    (hI : ∀ o s r t, P o → I s → exec o s = .ok (r, t) → I t) (hs : I s) :
    Prog.wp exec p (fun _ t => I t) (fun _ => True) s := by
  induction p generalizing s with
  | ret a => exact hs
  | op o k ih =>
    cases he : exec o s with
    | error e =>
      refine wp_of_error (e := e) ?_ trivial
      rw [run_op, he]
      rfl
    | ok x =>
      have hk := ih x.1 (hp.2 x.1) (hI o s x.1 x.2 hp.1 hs he)
      rw [Prog.wp, run_op, he]
      exact hk

end Only

end Run

end Prog
