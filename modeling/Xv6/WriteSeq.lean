import Mathlib.Data.List.Nodup
import Mathlib.Logic.Nontrivial.Basic

/-!
# Ordered Write Sequences

A store that is only ever changed by whole-cell writes, performed in order: the
abstract medium under a write-ahead log. `applyWrites ws d` is the store `d` after the
writes `ws`; a crash leaves `applyWrites (ws.take k) d` for some `k`.

## Main results

* `applyWrites_congr`: the cells a sequence writes do not depend on the store it
  started from.
* `applyWrites_take_self`: replaying a sequence over any of its own partial executions
  gives the complete execution — the reason a redo log may be replayed after a crash
  in the middle of a replay.
-/

namespace WriteSeq

variable {κ : Type*} {β : Type*} [DecidableEq κ]

/-- The store `d` after performing the writes `ws` in order. -/
def applyWrites (ws : List (κ × β)) (d : κ → β) : κ → β :=
  ws.foldl (fun d w => Function.update d w.1 w.2) d

@[simp] theorem applyWrites_nil (d : κ → β) : applyWrites [] d = d := rfl

@[simp] theorem applyWrites_cons (w : κ × β) (ws : List (κ × β)) (d : κ → β) :
    applyWrites (w :: ws) d = applyWrites ws (Function.update d w.1 w.2) := rfl

theorem applyWrites_append (ws vs : List (κ × β)) (d : κ → β) :
    applyWrites (ws ++ vs) d = applyWrites vs (applyWrites ws d) := by
  simp only [applyWrites, List.foldl_append]

variable {a : κ} {d : κ → β} {ws : List (κ × β)}

/-- A cell that no write addresses keeps its value. -/
theorem applyWrites_of_notMem (h : ∀ w ∈ ws, w.1 ≠ a) : applyWrites ws d a = d a := by
  induction ws generalizing d with
  | nil => rfl
  | cons w ws ih =>
    rw [applyWrites_cons, ih fun v hv => h v (List.mem_cons_of_mem _ hv)]
    exact Function.update_of_ne (h w List.mem_cons_self).symm _ _

/-- Two stores that agree outside the written cells agree after the writes. -/
theorem applyWrites_congr {e : κ → β} (h : (∀ w ∈ ws, w.1 ≠ a) → d a = e a) :
    applyWrites ws d a = applyWrites ws e a := by
  induction ws generalizing d e with
  | nil => exact h fun w hw => absurd hw List.not_mem_nil
  | cons w ws ih =>
    rw [applyWrites_cons, applyWrites_cons]
    refine ih fun hws => ?_
    by_cases hw : w.1 = a
    · subst hw
      simp only [Function.update_self]
    · rw [Function.update_of_ne (Ne.symm hw), Function.update_of_ne (Ne.symm hw)]
      refine h fun v hv => ?_
      rcases List.mem_cons.mp hv with rfl | hv
      · exact hw
      · exact hws v hv

/-- A sequence leaves a cell alone in every store exactly if no write addresses it. -/
theorem forall_applyWrites_eq_iff [Nontrivial β] :
    (∀ d : κ → β, applyWrites ws d a = d a) ↔ ∀ w ∈ ws, w.1 ≠ a := by
  refine ⟨fun h w hw hwa => ?_, fun h d => applyWrites_of_notMem h⟩
  -- two stores that differ in the cell are the same there afterwards
  obtain ⟨x, y, hxy⟩ := exists_pair_ne β
  have hsame : applyWrites ws (fun _ => x) a = applyWrites ws (fun _ => y) a :=
    applyWrites_congr fun hno => absurd hwa (hno w hw)
  rw [h, h] at hsame
  exact hxy hsame

/-- **Replay is idempotent over its own prefixes**: performing a sequence after any
partial execution of itself gives its complete execution. -/
theorem applyWrites_take_self (ws : List (κ × β)) (k : ℕ) (d : κ → β) :
    applyWrites ws (applyWrites (ws.take k) d) = applyWrites ws d := by
  funext a
  refine applyWrites_congr fun h => ?_
  exact applyWrites_of_notMem fun w hw => h w (List.mem_of_mem_take hw)

/-- Writes that store what a cell already has leave it. -/
theorem applyWrites_of_forall_eq (h : ∀ w ∈ ws, w.1 = a → w.2 = d a) :
    applyWrites ws d a = d a := by
  induction ws generalizing d with
  | nil => rfl
  | cons w ws ih =>
    have hw : Function.update d w.1 w.2 a = d a := by
      by_cases he : w.1 = a
      · subst he
        rw [Function.update_self, h w List.mem_cons_self rfl]
      · exact Function.update_of_ne (Ne.symm he) _ _
    rw [applyWrites_cons, ih fun v hv he => ?_, hw]
    rw [hw]
    exact h v (List.mem_cons_of_mem _ hv) he

/-- A cell addressed by exactly one write of the sequence ends with that write's
value. -/
theorem applyWrites_of_mem (hnd : (ws.map Prod.fst).Nodup) {w : κ × β} (hw : w ∈ ws) (d : κ → β) :
    applyWrites ws d w.1 = w.2 := by
  induction ws generalizing d with
  | nil => exact absurd hw List.not_mem_nil
  | cons v ws ih =>
    rw [List.map_cons, List.nodup_cons] at hnd
    rcases List.mem_cons.mp hw with rfl | hw
    · rw [applyWrites_cons, applyWrites_of_notMem]
      · exact Function.update_self _ _ _
      · intro u hu he
        exact hnd.1 (he ▸ List.mem_map_of_mem hu)
    · exact ih hnd.2 hw _

end WriteSeq
