import Xv6.BlockAlloc
import Xv6.QuietOps

/-!
# Code inside a Transaction

Code that works on blocks neither opens nor closes a transaction, and only ever adds sectors to the
log. So a run of it with a log that never fills up is a run of the kernel as long as the sectors it
ends with fit, and fails with "too big a transaction" otherwise or not at all.

## Main results

* `run_real_of_ideal`: from a run with an unlimited log to a run of the kernel.
-/

namespace Xv6

/-- The number of sectors that fit in the log. -/
def Log.capacity (L : Log) : ℕ := min LOGSIZE (L.size - 1)

theorem Log.isFull_iff (L : Log) : L.isFull = true ↔ L.capacity ≤ L.lh.length := by
  simp [isFull, capacity]

section Run

variable {α : Type} {p : ℕ} {s t : Sys}

/-- The log does not shrink. -/
theorem length_logPut_le (x : ℕ) (data : Block) :
    s.log.lh.length ≤ (s.logPut x data).log.lh.length := by
  rw [Sys.logPut_lh]
  split_ifs
  · exact le_rfl
  · simp

/-- An operation on blocks with a log that never fills up: the same operation of the kernel, or
"too big a transaction". -/
theorem exec_real {o : Op} {x : o.Ret × Sys} (ho : o.Block) (h : exec .ideal p o s = .ok x) :
    s.log.lh.length ≤ x.2.log.lh.length ∧ x.2.log.capacity = s.log.capacity ∧
      (exec .real p o s = .ok x ∨
        (exec .real p o s = .error (.panic .tooBigTransaction) ∧
          s.log.capacity ≤ s.log.lh.length)) := by
  -- the operations that leave the log alone do not depend on the mode
  have hsame : x.2.log = s.log → exec .real p o s = .ok x → s.log.lh.length ≤ x.2.log.lh.length ∧
      x.2.log.capacity = s.log.capacity ∧ (exec .real p o s = .ok x ∨
        (exec .real p o s = .error (.panic .tooBigTransaction) ∧
          s.log.capacity ≤ s.log.lh.length)) :=
    fun hlog hx => ⟨by rw [hlog], by rw [hlog], Or.inl hx⟩
  cases o with
  | logWrite b data =>
    simp only [exec] at h
    rw [if_neg (by simp [Mode.ideal])] at h
    split_ifs at h with hbusy
    cases h
    refine ⟨length_logPut_le _ _, rfl, ?_⟩
    by_cases hfull : s.log.isFull = true
    · refine Or.inr ⟨?_, s.log.isFull_iff.mp hfull⟩
      simp [exec, Mode.real, hfull]
    · refine Or.inl ?_
      simp only [exec]
      rw [if_neg fun hc => hfull hc.2, if_neg (by simp [hbusy])]
  | mark m =>
    cases m with
    | alloc b =>
      simp only [exec] at h
      split_ifs at h
      cases h
      refine hsame rfl ?_
      simp [exec, Mode.real]
    | free ip =>
      cases h
      exact hsame rfl rfl
  | bread b | inode a | addr a k | entry b k | setDinode a d | setValid a | file f | ofile fd
  | setOfile fd v | cwd =>
    cases h
    exact hsame rfl rfl
  | devRead n =>
    simp only [exec] at h
    split_ifs at h with hin
    cases h
    exact hsame rfl (by simp [exec, hin])
  | fail e => cases h
  | _ => exact ho.elim

/-- **From an unlimited log to the kernel's log**: the kernel does the same, if the sectors fit
in the log; otherwise it may also fail with "too big a transaction". -/
theorem run_real_of_ideal {c : Fs α} {a : α} (hc : c.Only Op.Block)
    (h : Prog.run (exec .ideal p) c s = .ok (a, t)) :
    s.log.lh.length ≤ t.log.lh.length ∧ t.log.capacity = s.log.capacity ∧
      (Prog.run (exec .real p) c s = .ok (a, t) ∨
        (Prog.run (exec .real p) c s = .error (.panic .tooBigTransaction) ∧
          t.log.capacity ≤ t.log.lh.length)) := by
  induction c generalizing s with
  | ret a' =>
    cases h
    exact ⟨le_rfl, rfl, Or.inl rfl⟩
  | op o k ih =>
    rw [Prog.run_op] at h ⊢
    cases hx : exec .ideal p o s with
    | error e =>
      rw [hx] at h
      cases h
    | ok x =>
      rw [hx] at h
      obtain ⟨hlen, hcap, hreal⟩ := exec_real hc.1 hx
      obtain ⟨hlen', hcap', hreal'⟩ := ih x.1 (hc.2 x.1) h
      refine ⟨hlen.trans hlen', hcap'.trans hcap, ?_⟩
      rcases hreal with he | ⟨he, hfull⟩
      · rw [he]
        exact hreal'
      · rw [he]
        exact Or.inr ⟨rfl, by omega⟩

end Run

end Xv6
