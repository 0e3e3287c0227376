import Xv6.Block
import Xv6.Fault
import Xv6.WriteSeq

/-!
# The Redo Log

The physical redo log of `log.c`. The log area occupies the sectors
`[log.start, log.start + log.size)`: a header block holding a count and the home
sectors of the logged blocks, followed by one slot for each. `log_write` copies a block
to its slot; `commit_trans` writes the header — the commit point —, installs the slots
at their home sectors and clears the header; `recover_from_log` repeats the last two
steps after a crash.

The functions of this module are given the disk they read and return the disk writes
they issue, in order, so that a crash is a prefix of such a list. `log.lh` is kept as
the list of its first `n` sectors: no function reads the entries beyond `n`.

## Main results

* `readHead_putHead`: the header codec.
* `installTrans_eq_redo`: an installation whose home sectors lie outside the log area
  copies the slots as they were when it began.
* `Log.logWrite_cases`: what a successful `log_write` does.
-/

open WriteSeq

namespace Xv6

/-- The contents of the disk, by sector. -/
abbrev Disk := ℕ → Block

/-- `LOGSIZE` (`param.h`): max data sectors in the on-disk log. -/
@[simp] def LOGSIZE : ℕ := 10

/-- `struct log`. The list `lh` is `log.lh.sector[0..n)`, so `log.lh.n` is its length. -/
structure Log where
  start : ℕ
  size : ℕ
  busy : Bool
  lh : List ℕ
  deriving DecidableEq, Repr

/-! ### The header block -/

/-- Store the sectors `lh` from header entry `i` on: `hb->sector[i] = ...`. -/
def putSectors (b : Block) (i : ℕ) : List ℕ → Block
  | [] => b
  | s :: lh => putSectors (b.setWord (i + 1) s) (i + 1) lh

/-- The header block that `write_head` stores: `hb->n` and the first `n` sectors; the rest
of the block keeps its bytes. -/
def putHead (b : Block) (lh : List ℕ) : Block :=
  putSectors (b.setWord 0 lh.length) 0 lh

/-- `read_head`: the sectors named by a header block. The count is a C `int`, so a
count with the top bit set is negative and the copying loop does not run; a count above
`LOGSIZE` overruns `log.lh.sector`. -/
def readHead (b : Block) : Except Fault (List ℕ) :=
  let n := b.word 0
  if 2 ^ 31 ≤ n then .ok []
  else if LOGSIZE < n then .error .undefined
  else .ok ((List.range n).map fun i => b.word (i + 1))

/-! ### Writing, committing and recovering -/

/-- The test of `log_write` for "too big a transaction": it comes before absorption. -/
def Log.isFull (L : Log) : Bool :=
  LOGSIZE ≤ L.lh.length ∨ L.size - 1 ≤ L.lh.length

/-- `log_write(b)` past its tests, on sector `sector` with contents `data`: find the block's
slot (log absorption) or take the next one, and write the block there. -/
def Log.record (L : Log) (sector : ℕ) (data : Block) : Log × List (ℕ × Block) :=
  let i := L.lh.idxOf sector
  let lh := if i = L.lh.length then L.lh ++ [sector] else L.lh.set i sector
  ({ L with lh := lh }, [(L.start + i + 1, data)])

/-- `log_write(b)`. -/
def Log.logWrite (L : Log) (sector : ℕ) (data : Block) :
    Except Fault (Log × List (ℕ × Block)) :=
  if L.isFull then .error (.panic .tooBigTransaction)
  else if ¬ L.busy then .error (.panic .writeOutsideTrans)
  else .ok (L.record sector data)

/-- `install_trans` from entry `tail` on: read each log block and write it home. -/
def installTrans (start : ℕ) (tail : ℕ) : List ℕ → Disk → List (ℕ × Block)
  | [], _ => []
  | sector :: lh, d =>
    let data := d (start + tail + 1)
    (sector, data) :: installTrans start (tail + 1) lh (Function.update d sector data)

/-- `write_head`: one write, of the header block. -/
def writeHead (start : ℕ) (lh : List ℕ) (d : Disk) : List (ℕ × Block) :=
  [(start, putHead (d start) lh)]

/-- Install the sectors `lh`, then clear the header: the common tail of `commit_trans` and
`recover_from_log`. -/
def installAndClear (start : ℕ) (lh : List ℕ) (d : Disk) : List (ℕ × Block) :=
  let ws := installTrans start 0 lh d
  ws ++ writeHead start [] (applyWrites ws d)

/-- The disk writes of `commit_trans`. -/
def Log.commitTrans (L : Log) (d : Disk) : List (ℕ × Block) :=
  if 0 < L.lh.length then
    let ws := writeHead L.start L.lh d
    ws ++ installAndClear L.start L.lh (applyWrites ws d)
  else []

/-- The disk writes of `recover_from_log`. -/
def recoverFromLog (start : ℕ) (d : Disk) : Except Fault (List (ℕ × Block)) := do
  let lh ← readHead (d start)
  return installAndClear start lh d

/-! ### The header codec -/

variable {b : Block} {i start tail : ℕ} {lh : List ℕ} {d : Disk}

/-- The words before the list stay. -/
theorem word_putSectors_of_le {k : ℕ} (hk : k ≤ i) : (putSectors b i lh).word k = b.word k := by
  induction lh generalizing b i with
  | nil => rfl
  | cons s lh ih =>
    rw [putSectors, ih (by omega), Block.word_setWord_of_ne _ _ (by omega)]

/-- The list is in the words behind. -/
theorem word_putSectors (hlen : i + lh.length < 128) (hlt : ∀ s ∈ lh, s < 2 ^ 32) {j : ℕ}
    (hj : j < lh.length) : (putSectors b i lh).word (i + j + 1) = lh[j] := by
  induction lh generalizing b i j with
  | nil => exact absurd hj (Nat.not_lt_zero _)
  | cons s lh ih =>
    simp only [List.length_cons] at hlen hj
    rw [putSectors]
    cases j with
    | zero =>
      rw [word_putSectors_of_le (by omega), Nat.add_zero,
        Block.word_setWord _ (by omega) (hlt s List.mem_cons_self), if_pos rfl]
      rfl
    | succ j =>
      have h := ih (b := b.setWord (i + 1) s) (i := i + 1) (by omega)
        (fun t ht => hlt t (List.mem_cons_of_mem _ ht)) (j := j) (by omega)
      rw [show i + (j + 1) + 1 = i + 1 + j + 1 by omega, h]
      rfl

/-- **The header codec**: a header written for at most `LOGSIZE` sector numbers reads back
as these sectors. -/
theorem readHead_putHead (hlen : lh.length ≤ LOGSIZE) (hlt : ∀ s ∈ lh, s < 2 ^ 32) :
    readHead (putHead b lh) = .ok lh := by
  simp only [LOGSIZE] at hlen
  have hn : (putHead b lh).word 0 = lh.length := by
    rw [putHead, word_putSectors_of_le (Nat.zero_le 0),
      Block.word_setWord _ (by omega) (by omega), if_pos rfl]
  have hs : (List.range lh.length).map (fun i => (putHead b lh).word (i + 1)) = lh := by
    refine List.ext_getElem (by simp) fun j h1 h2 => ?_
    have h := word_putSectors (b := b.setWord 0 lh.length) (i := 0) (by omega) hlt h2
    simp only [List.getElem_map, List.getElem_range]
    rw [← h, Nat.zero_add]
    rfl
  simp only [readHead, hn, LOGSIZE]
  rw [if_neg (by omega), if_neg (by omega), hs]

/-- A header with count zero names no sectors. -/
theorem readHead_of_word_zero (h : b.word 0 = 0) : readHead b = .ok [] := by
  simp [readHead, h]

/-! ### Installation -/

/-- The copies that an installation of `lh` performs, read off the disk `d` at once. -/
def redo (start tail : ℕ) (lh : List ℕ) (d : Disk) : List (ℕ × Block) :=
  match lh with
  | [] => []
  | s :: lh => (s, d (start + tail + 1)) :: redo start (tail + 1) lh d

/-- What is installed depends on the blocks of the log. -/
theorem redo_congr {e : Disk}
    (h : ∀ i < lh.length, d (start + tail + i + 1) = e (start + tail + i + 1)) :
    redo start tail lh d = redo start tail lh e := by
  induction lh generalizing tail with
  | nil => rfl
  | cons s lh ih =>
    have h0 := h 0 (by simp)
    rw [Nat.add_zero] at h0
    rw [redo, redo, h0, ih]
    intro i hi
    have := h (i + 1) (by simpa using hi)
    rwa [show start + tail + (i + 1) + 1 = start + (tail + 1) + i + 1 by omega] at this

/-- **Installation copies the slots as they were**, when no home sector is a slot. -/
theorem installTrans_eq_redo (h : ∀ s ∈ lh, ∀ i < lh.length, s ≠ start + tail + i + 1) :
    installTrans start tail lh d = redo start tail lh d := by
  induction lh generalizing tail d with
  | nil => rfl
  | cons s lh ih =>
    have hne : ∀ i < lh.length, s ≠ start + (tail + 1) + i + 1 := by
      intro i hi
      have := h s List.mem_cons_self (i + 1) (by simpa using hi)
      rwa [show start + tail + (i + 1) + 1 = start + (tail + 1) + i + 1 by omega] at this
    rw [installTrans, redo, ih]
    · congr 1
      exact redo_congr fun i hi => Function.update_of_ne (hne i hi).symm _ _
    · intro t ht i hi
      have := h t (List.mem_cons_of_mem _ ht) (i + 1) (by simpa using hi)
      rwa [show start + tail + (i + 1) + 1 = start + (tail + 1) + i + 1 by omega] at this

/-- The sectors that are installed are those of the header. -/
@[simp] theorem map_fst_redo (start tail : ℕ) (lh : List ℕ) (d : Disk) :
    (redo start tail lh d).map Prod.fst = lh := by
  induction lh generalizing tail with
  | nil => rfl
  | cons s lh ih => rw [redo, List.map_cons, ih]

theorem mem_of_mem_redo {w : ℕ × Block} (h : w ∈ redo start tail lh d) : w.1 ∈ lh := by
  rw [← map_fst_redo start tail lh d]
  exact List.mem_map_of_mem h

/-- Every copy is made for some entry. -/
theorem exists_of_mem_redo {w : ℕ × Block} (h : w ∈ redo start tail lh d) :
    ∃ i, lh[i]? = some w.1 ∧ w.2 = d (start + tail + i + 1) := by
  induction lh generalizing tail with
  | nil => exact absurd h List.not_mem_nil
  | cons s lh ih =>
    rcases List.mem_cons.mp h with rfl | h
    · exact ⟨0, rfl, rfl⟩
    · obtain ⟨i, h1, h2⟩ := ih h
      exact ⟨i + 1, by simpa using h1, by rw [h2]; congr 1; omega⟩

/-- The copy made for entry `i`. -/
theorem getElem_mem_redo (start tail : ℕ) (d : Disk) (hi : i < lh.length) :
    (lh[i], d (start + tail + i + 1)) ∈ redo start tail lh d := by
  induction lh generalizing tail i with
  | nil => exact absurd hi (Nat.not_lt_zero _)
  | cons s lh ih =>
    cases i with
    | zero => exact List.mem_cons_self
    | succ i =>
      have h := ih (tail + 1) (i := i) (by simpa using hi)
      rw [show start + (tail + 1) + i + 1 = start + tail + (i + 1) + 1 by omega] at h
      exact List.mem_cons_of_mem _ h

/-! ### A successful `log_write` -/

/-- The slot of a sector: the one it already has, or the next one. -/
theorem Log.record_eq (L : Log) (sector : ℕ) (data : Block) :
    L.record sector data =
      ({ L with lh := if sector ∈ L.lh then L.lh else L.lh ++ [sector] },
        [(L.start + L.lh.idxOf sector + 1, data)]) := by
  unfold Log.record
  simp only [Prod.mk.injEq, Log.mk.injEq, and_true, true_and]
  by_cases hm : sector ∈ L.lh
  · have hi := List.idxOf_lt_length_of_mem hm
    rw [if_neg (by omega), if_pos hm]
    refine List.ext_getElem (by simp) fun j h1 h2 => ?_
    rw [List.getElem_set]
    split
    · rename_i hj
      subst hj
      exact (List.getElem_idxOf hi).symm
    · rfl
  · rw [if_pos (List.idxOf_eq_length_iff.mpr hm), if_neg hm]

/-- What a `log_write` that returns has done: there was room, a transaction was open, and
the block was written to the slot of its sector. -/
theorem Log.logWrite_cases {L L' : Log} {sector : ℕ} {data : Block}
    {ws : List (ℕ × Block)} (h : L.logWrite sector data = .ok (L', ws)) :
    L.lh.length < LOGSIZE ∧ L.lh.length < L.size - 1 ∧ L.busy = true ∧
      ws = [(L.start + L.lh.idxOf sector + 1, data)] ∧
      L' = { L with lh := if sector ∈ L.lh then L.lh else L.lh ++ [sector] } := by
  unfold Log.logWrite at h
  split_ifs at h with hfull hbusy
  simp only [Log.isFull, decide_eq_true_eq] at hfull
  rw [Except.ok.injEq, Log.record_eq, Prod.mk.injEq] at h
  exact ⟨by omega, by omega, hbusy, h.2.symm, h.1.symm⟩

end Xv6
