import Xv6.Log

/-!
# Crash Atomicity of the Log

A transaction is a sequence of `log_write` calls followed by `commit_trans`. The machine
may stop after any of the disk writes these issue, and again after any of the writes of
each later `recover_from_log`; the disk performs single-sector writes atomically and in
the order they are issued. This module proves that the home blocks — everything outside
the log area — are then either all as before the transaction or all as its last writes
left them.

The proof has one invariant, `Consistent L old new d`, of the disk `d` at a crash point:
either the header is clear and the home blocks are those of `old` or of `new`, or the
header names sectors whose slots, installed over `d`, give the home blocks of `new`.

## Main results

* `Logged.logWrite`: the slots track the blocks as the file system sees them.
* `Consistent.installAndClear_take`: every crash point of an installation is consistent.
* `home_blocks_atomic`: **crash atomicity** of transactions under repeated crashes.
-/

open WriteSeq
open Function (update update_of_ne update_self)

namespace Xv6

/-- `a` is outside the log area: a home sector. -/
def Log.Home (L : Log) (a : ℕ) : Prop := a < L.start ∨ L.start + L.size ≤ a

/-- The home blocks of two disks agree. -/
def Log.HomeEq (L : Log) (d e : Disk) : Prop := ∀ a, L.Home a → d a = e a

/-- The `log_write` calls of a transaction, in order, with the disk writes they issue. -/
def Log.logWrites (L : Log) : List (ℕ × Block) → Except Fault (Log × List (ℕ × Block))
  | [] => .ok (L, [])
  | (sector, data) :: ws => do
    let (L₁, w₁) ← L.logWrite sector data
    let (L₂, w₂) ← L₁.logWrites ws
    return (L₂, w₁ ++ w₂)

/-- Recovery with crashes: for each entry `k` of `ks`, a `recover_from_log` that stops
after its first `k` disk writes; then one that completes. -/
def recoverAfter (start : ℕ) : List ℕ → Disk → Except Fault Disk
  | [], d => do
    let ws ← recoverFromLog start d
    return applyWrites ws d
  | k :: ks, d => do
    let ws ← recoverFromLog start d
    recoverAfter start ks (applyWrites (ws.take k) d)

section Crash

variable {L : Log} {old new d : Disk}

/-! ### The crash invariant -/

/-- The header names sectors whose slots, installed over `d`, give the home blocks of
`new`. -/
structure Committed (L : Log) (new d : Disk) (lh : List ℕ) : Prop where
  head : readHead (d L.start) = .ok lh
  home : ∀ s ∈ lh, L.Home s
  fits : lh.length < L.size
  redo : L.HomeEq (applyWrites (redo L.start 0 lh d) d) new

/-- **The crash invariant**: a clear header over the home blocks of `old` or of `new`, or a
committed transaction that leads to `new`. -/
def Consistent (L : Log) (old new d : Disk) : Prop :=
  ((d L.start).word 0 = 0 ∧ (L.HomeEq d old ∨ L.HomeEq d new)) ∨
    ∃ lh, Committed L new d lh

/-- The invariant depends on the log only through its area. -/
theorem Consistent.of_area {L' : Log} (hstart : L'.start = L.start) (hsize : L'.size = L.size)
    (h : Consistent L' old new d) : Consistent L old new d := by
  obtain ⟨start, size, busy, lh⟩ := L
  obtain ⟨start', size', busy', lh'⟩ := L'
  obtain rfl : start' = start := hstart
  obtain rfl : size' = size := hsize
  rcases h with h | ⟨lh'', hc⟩
  · exact Or.inl h
  · exact Or.inr ⟨lh'', hc.head, hc.home, hc.fits, hc.redo⟩

theorem Log.HomeEq.trans {c e : Disk} (h₁ : L.HomeEq c d) (h₂ : L.HomeEq d e) : L.HomeEq c e :=
  fun a ha => (h₁ a ha).trans (h₂ a ha)

/-- A write inside the log area leaves the home blocks. -/
theorem homeEq_update {a : ℕ} (ha : ¬ L.Home a) (d : Disk) (b : Block) :
    L.HomeEq (update d a b) d := by
  intro c hc
  exact update_of_ne (by rintro rfl; exact ha hc) _ _

theorem Log.not_home_start (h : 0 < L.size) : ¬ L.Home L.start := by
  unfold Log.Home
  omega

theorem Log.not_home_slot {i : ℕ} (h : i + 1 < L.size) : ¬ L.Home (L.start + i + 1) := by
  unfold Log.Home
  omega

/-- A slot is neither a home sector nor the header. -/
theorem Log.ne_slot {i a : ℕ} (h : i + 1 < L.size) (ha : L.Home a ∨ a = L.start) :
    a ≠ L.start + i + 1 := by
  unfold Log.Home at ha
  omega

/-- Clearing a header clears its count. -/
theorem word_putHead_nil (b : Block) : (putHead b []).word 0 = 0 := by
  rw [putHead, putSectors, Block.word_setWord_self _ _ (by omega)]
  rfl

/-- Clearing a clear header changes nothing. -/
theorem putHead_nil_of_clear {b : Block} (h : b.word 0 = 0) : putHead b [] = b := by
  have hset := b.setWord_word 0
  rw [h] at hset
  rw [putHead, putSectors, List.length_nil, hset]

/-! ### Installation and recovery -/

variable {lh : List ℕ} {v : Disk}

/-- Installing a committed transaction redoes it. -/
theorem Committed.installTrans_eq (h : Committed L new d lh) :
    installTrans L.start 0 lh d = Xv6.redo L.start 0 lh d := by
  refine installTrans_eq_redo fun s hs i hi he => ?_
  have hfit := h.fits
  exact Log.not_home_slot (L := L) (i := i) (by omega) (by
    rw [Nat.add_zero] at he
    exact he ▸ h.home s hs)

/-- A partial installation leaves the transaction committed. -/
theorem Committed.take (h : Committed L new d lh) (k : ℕ) :
    Committed L new (applyWrites ((Xv6.redo L.start 0 lh d).take k) d) lh := by
  set e := applyWrites ((Xv6.redo L.start 0 lh d).take k) d with he
  have hfit := h.fits
  have hlog : ∀ a, ¬ L.Home a → e a = d a := by
    intro a ha
    refine applyWrites_of_notMem fun w hw hwa => ha ?_
    exact hwa ▸ h.home _ (mem_of_mem_redo (List.mem_of_mem_take hw))
  have hredo : Xv6.redo L.start 0 lh e = Xv6.redo L.start 0 lh d := by
    refine redo_congr fun i hi => hlog _ ?_
    rw [Nat.add_zero]
    exact Log.not_home_slot (by omega)
  refine ⟨?_, h.home, h.fits, ?_⟩
  · rw [hlog _ (Log.not_home_start (by omega))]
    exact h.head
  · rw [hredo, he, applyWrites_take_self]
    exact h.redo

/-- A prefix of an installation followed by the clearing of the header is a prefix of the
installation or the whole of both. -/
theorem installAndClear_take (hinst : installTrans L.start 0 lh d =
    Xv6.redo L.start 0 lh d) (k : ℕ) :
    (∃ j, (installAndClear L.start lh d).take k = (Xv6.redo L.start 0 lh d).take j) ∨
      (installAndClear L.start lh d).take k = installAndClear L.start lh d := by
  rw [installAndClear, hinst]
  rcases Nat.lt_or_ge (Xv6.redo L.start 0 lh d).length k with hk | hk
  · right
    refine List.take_of_length_le ?_
    simp only [writeHead, List.length_append, List.length_cons, List.length_nil]
    omega
  · exact Or.inl ⟨k, List.take_append_of_le_length hk⟩

/-- After a complete installation the header is clear and the home blocks are those the
slots gave. -/
theorem applyWrites_installAndClear (hsize : 0 < L.size)
    (hinst : installTrans L.start 0 lh d = Xv6.redo L.start 0 lh d) :
    (applyWrites (installAndClear L.start lh d) d L.start).word 0 = 0 ∧
      L.HomeEq (applyWrites (installAndClear L.start lh d) d)
        (applyWrites (Xv6.redo L.start 0 lh d) d) := by
  rw [installAndClear, hinst, applyWrites_append, writeHead, applyWrites_cons, applyWrites_nil]
  refine ⟨?_, homeEq_update (Log.not_home_start hsize) _ _⟩
  rw [update_self]
  exact word_putHead_nil _

/-- **Every crash point of the installation of a committed transaction is consistent.** -/
theorem Committed.installAndClear_take (h : Committed L new d lh) (k : ℕ) :
    Consistent L old new (applyWrites ((installAndClear L.start lh d).take k) d) := by
  rcases Xv6.installAndClear_take h.installTrans_eq k with ⟨j, hj⟩ | hall
  · rw [hj]
    exact Or.inr ⟨lh, h.take j⟩
  · have hfit := h.fits
    have hdone := applyWrites_installAndClear (d := d) (by omega) h.installTrans_eq
    rw [hall]
    exact Or.inl ⟨hdone.1, Or.inr (hdone.2.trans h.redo)⟩

/-- **Every crash point of a recovery is consistent**, and a recovery that completes leaves
a clear header over the home blocks of `old` or of `new`. -/
theorem Consistent.recoverFromLog (h : Consistent L old new d) :
    ∃ ws, recoverFromLog L.start d = .ok ws ∧
      (∀ k, Consistent L old new (applyWrites (ws.take k) d)) ∧
      (applyWrites ws d L.start).word 0 = 0 ∧
      (L.HomeEq (applyWrites ws d) old ∨ L.HomeEq (applyWrites ws d) new) := by
  rcases h with ⟨hclear, hhome⟩ | ⟨lh, hc⟩
  · -- nothing to install: the recovery writes the clear header back
    have hback : applyWrites [(L.start, d L.start)] d = d := by simp
    refine ⟨[(L.start, d L.start)], ?_, fun k => ?_, ?_, ?_⟩
    · rw [Xv6.recoverFromLog, readHead_of_word_zero hclear]
      change Except.ok [(L.start, putHead (d L.start) [])] = _
      rw [putHead_nil_of_clear hclear]
    · cases k with
      | zero => exact Or.inl ⟨hclear, hhome⟩
      | succ k =>
        rw [List.take_succ_cons, List.take_nil, hback]
        exact Or.inl ⟨hclear, hhome⟩
    · rw [hback]
      exact hclear
    · rw [hback]
      exact hhome
  · have hfit := hc.fits
    obtain ⟨hd, hh⟩ := applyWrites_installAndClear (by omega) hc.installTrans_eq
    refine ⟨installAndClear L.start lh d, ?_, hc.installAndClear_take, hd,
      Or.inr (hh.trans hc.redo)⟩
    rw [Xv6.recoverFromLog, hc.head]
    rfl

/-- Any number of crashed recoveries followed by a complete one. -/
theorem Consistent.recoverAfter (h : Consistent L old new d) (ks : List ℕ) :
    ∃ d', recoverAfter L.start ks d = .ok d' ∧ (d' L.start).word 0 = 0 ∧
      (L.HomeEq d' old ∨ L.HomeEq d' new) := by
  induction ks generalizing d with
  | nil =>
    obtain ⟨ws, hws, -, hhead, hhome⟩ := h.recoverFromLog
    refine ⟨applyWrites ws d, ?_, hhead, hhome⟩
    rw [Xv6.recoverAfter, hws]
    rfl
  | cons k ks ih =>
    obtain ⟨ws, hws, hk, -, -⟩ := h.recoverFromLog
    obtain ⟨d', hd', hrest⟩ := ih (hk k)
    refine ⟨d', ?_, hrest⟩
    rw [Xv6.recoverAfter, hws]
    exact hd'

/-! ### The `log_write` calls -/

/-- The slots hold the logged blocks as the file system sees them (`v`), and a home block
that is not logged is seen as it was when the transaction began (`old`). -/
structure Logged (L : Log) (old v d : Disk) : Prop where
  nodup : L.lh.Nodup
  home : ∀ s ∈ L.lh, L.Home s
  width : ∀ s ∈ L.lh, s < 2 ^ 32
  room : L.lh.length ≤ LOGSIZE ∧ L.lh.length ≤ L.size - 1
  slot : ∀ i (hi : i < L.lh.length), d (L.start + i + 1) = v (L.lh.get ⟨i, hi⟩)
  rest : ∀ a, a ∉ L.lh → v a = old a
  disk : ∀ a, L.Home a ∨ a = L.start → d a = old a

theorem Logged.init (L : Log) (d : Disk) (h : L.lh = []) : Logged L d d d := by
  refine ⟨by simp [h], by simp [h], by simp [h], by simp [h], ?_, fun a _ => rfl, fun a _ => rfl⟩
  intro i hi
  simp [h] at hi

/-- **One `log_write`**: the view of the file system changes at the block written, and the
slots follow it. -/
theorem Logged.logWrite {L' : Log} {sector : ℕ} {data : Block} {ws : List (ℕ × Block)}
    (h : Logged L old v d) (hhome : L.Home sector) (hlt : sector < 2 ^ 32)
    (hw : L.logWrite sector data = .ok (L', ws)) :
    Logged L' old (update v sector data) (applyWrites ws d) ∧
      L'.start = L.start ∧ L'.size = L.size := by
  obtain ⟨hlog, hsize, hbusy, rfl, rfl⟩ := Log.logWrite_cases hw
  refine ⟨?_, rfl, rfl⟩
  rw [applyWrites_cons, applyWrites_nil]
  by_cases hm : sector ∈ L.lh
  · -- absorption: the slot of the sector is overwritten
    have hi := List.idxOf_lt_length_of_mem hm
    simp only [if_pos hm]
    refine ⟨h.nodup, h.home, h.width, h.room, fun j hj => ?_, fun a ha => ?_, fun a ha => ?_⟩
    · by_cases hj' : j = L.lh.idxOf sector
      · subst hj'
        simp only [update_self, List.get_eq_getElem, List.getElem_idxOf]
      · have hne : L.lh.get ⟨j, hj⟩ ≠ sector := by
          intro he
          have := h.nodup.idxOf_getElem j hj
          rw [← List.get_eq_getElem (i := ⟨j, hj⟩), he] at this
          exact hj' this.symm
        rw [update_of_ne hne, update_of_ne (by simp; omega)]
        exact h.slot j hj
    · have hne : a ≠ sector := by
        rintro rfl
        exact ha hm
      rw [update_of_ne hne]
      exact h.rest a ha
    · rw [update_of_ne (Log.ne_slot (L := L) (by omega) ha)]
      exact h.disk a ha
  · -- a new sector takes the next slot
    have hi : L.lh.idxOf sector = L.lh.length := List.idxOf_eq_length_iff.mpr hm
    simp only [if_neg hm, hi]
    refine ⟨?_, ?_, ?_, ?_, fun j hj => ?_, fun a ha => ?_, fun a ha => ?_⟩
    · refine List.nodup_append.mpr ⟨h.nodup, List.nodup_singleton _, ?_⟩
      intro a ha b hb
      rw [List.mem_singleton] at hb
      subst hb
      rintro rfl
      exact hm ha
    · intro s hs
      rcases List.mem_append.mp hs with hs | hs
      · exact h.home s hs
      · rw [List.mem_singleton] at hs
        exact hs ▸ hhome
    · intro s hs
      rcases List.mem_append.mp hs with hs | hs
      · exact h.width s hs
      · rw [List.mem_singleton] at hs
        exact hs ▸ hlt
    · simp only [List.length_append, List.length_singleton]
      omega
    · simp only [List.get_eq_getElem]
      simp only [List.length_append, List.length_singleton] at hj
      by_cases hj' : j = L.lh.length
      · subst hj'
        simp
      · rw [List.getElem_append_left (by omega), update_of_ne (by simp; omega),
          update_of_ne]
        · exact h.slot j (by omega)
        · intro he
          exact hm (he ▸ List.getElem_mem _)
    · rw [List.mem_append, List.mem_singleton, not_or] at ha
      rw [update_of_ne ha.2]
      exact h.rest a ha.1
    · rw [update_of_ne (Log.ne_slot (L := L) (by omega) ha)]
      exact h.disk a ha

/-- **All the `log_write` calls of a transaction**: the view of the file system becomes that
of the writes, the slots hold it, and every crash point has the home blocks and the header
of the old disk. -/
theorem Logged.logWrites {L' : Log} {ts ws : List (ℕ × Block)} (h : Logged L old v d)
    (hhome : ∀ w ∈ ts, L.Home w.1) (hlt : ∀ w ∈ ts, w.1 < 2 ^ 32)
    (hw : L.logWrites ts = .ok (L', ws)) :
    Logged L' old (applyWrites ts v) (applyWrites ws d) ∧ L'.start = L.start ∧
      L'.size = L.size ∧
      ∀ k a, L.Home a ∨ a = L.start → applyWrites (ws.take k) d a = old a := by
  induction ts generalizing L v d ws with
  | nil =>
    simp only [Log.logWrites, Except.ok.injEq, Prod.mk.injEq] at hw
    obtain ⟨rfl, rfl⟩ := hw
    refine ⟨h, rfl, rfl, fun k a ha => ?_⟩
    rw [List.take_nil, applyWrites_nil]
    exact h.disk a ha
  | cons t ts ih =>
    obtain ⟨sector, data⟩ := t
    simp only [Log.logWrites, bind, Except.bind] at hw
    cases h₁ : L.logWrite sector data with
    | error e => simp [h₁] at hw
    | ok r₁ =>
      obtain ⟨L₁, w₁⟩ := r₁
      simp only [h₁] at hw
      obtain ⟨hl₁, hstart, hsize⟩ := h.logWrite (hhome _ List.mem_cons_self)
        (hlt _ List.mem_cons_self) h₁
      have hH : ∀ a, L₁.Home a ↔ L.Home a := by
        intro a
        unfold Log.Home
        rw [hstart, hsize]
      cases h₂ : L₁.logWrites ts with
      | error e => simp [h₂] at hw
      | ok r₂ =>
        obtain ⟨L₂, w₂⟩ := r₂
        simp only [h₂, pure, Except.pure, Except.ok.injEq, Prod.mk.injEq] at hw
        obtain ⟨rfl, rfl⟩ := hw
        obtain ⟨hl₂, hstart₂, hsize₂, hk⟩ := ih hl₁
          (fun w hm => (hH _).mpr (hhome w (List.mem_cons_of_mem _ hm)))
          (fun w hm => hlt w (List.mem_cons_of_mem _ hm)) h₂
        rw [applyWrites_append]
        refine ⟨hl₂, hstart₂.trans hstart, hsize₂.trans hsize, fun k a ha => ?_⟩
        obtain ⟨-, -, -, rfl, -⟩ := Log.logWrite_cases h₁
        cases k with
        | zero =>
          rw [List.take_zero, applyWrites_nil]
          exact h.disk a ha
        | succ k =>
          rw [List.cons_append, List.nil_append, List.take_succ_cons, applyWrites_cons]
          rw [hstart] at hk
          exact hk k a (ha.imp_left (hH a).mpr)

/-! ### Commit -/

/-- Writing the header commits: installing the slots gives the blocks as the file system
sees them. -/
theorem Logged.committed (h : Logged L old v d) (hsize : 0 < L.size) :
    Committed L v (applyWrites (writeHead L.start L.lh d) d) L.lh := by
  have hroom := h.room
  rw [writeHead, applyWrites_cons, applyWrites_nil]
  refine ⟨?_, h.home, by omega, fun a ha => ?_⟩
  · rw [update_self]
    exact readHead_putHead hroom.1 h.width
  · by_cases hm : a ∈ L.lh
    · -- a logged block is installed from its slot
      obtain ⟨i, hi, rfl⟩ := List.getElem_of_mem hm
      have hmem := getElem_mem_redo L.start 0
        (update d L.start (putHead (d L.start) L.lh)) hi
      rw [applyWrites_of_mem (by rw [map_fst_redo]; exact h.nodup) hmem, Nat.add_zero]
      change update d L.start _ (L.start + i + 1) = v L.lh[i]
      rw [update_of_ne (by omega)]
      exact h.slot i hi
    · rw [applyWrites_of_notMem, update_of_ne]
      · rw [h.disk a (Or.inl ha), h.rest a hm]
      · rintro rfl
        exact Log.not_home_start hsize ha
      · intro w hw hwa
        exact hm (hwa ▸ mem_of_mem_redo hw)

/-- Every crash point of `commit_trans` is consistent. -/
theorem Logged.commitTrans_take (h : Logged L old v d) (hclear : (d L.start).word 0 = 0) (k : ℕ) :
    Consistent L old v (applyWrites ((L.commitTrans d).take k) d) := by
  have hstart : Consistent L old v d :=
    Or.inl ⟨hclear, Or.inl fun a ha => h.disk a (Or.inl ha)⟩
  have hroom := h.room
  unfold Log.commitTrans
  split
  · cases k with
    | zero => exact hstart
    | succ k =>
      have hc := h.committed (by omega)
      rw [writeHead] at hc ⊢
      rw [List.cons_append, List.nil_append, List.take_succ_cons, applyWrites_cons]
      exact hc.installAndClear_take k
  · rw [List.take_nil, applyWrites_nil]
    exact hstart

/-- **Crash atomicity.** Run a transaction — the `log_write` calls `ts`, on sectors outside
the log area, then `commit_trans` — from a disk with a clear header; stop after any `k` of
its disk writes; let recovery crash any number of times, and complete once. Then recovery
succeeds, the home blocks are all as before the transaction or all as its last writes left
them, and the header is clear again. -/
theorem home_blocks_atomic {start size : ℕ} {d : Disk} {ts ws : List (ℕ × Block)} {L' : Log}
    (hclear : (d start).word 0 = 0)
    (hhome : ∀ w ∈ ts, w.1 < start ∨ start + size ≤ w.1)
    (hwidth : ∀ w ∈ ts, w.1 < 2 ^ 32)
    (hrun : (⟨start, size, true, []⟩ : Log).logWrites ts = .ok (L', ws))
    (k : ℕ) (ks : List ℕ) :
    ∃ d', recoverAfter start ks
        (applyWrites ((ws ++ L'.commitTrans (applyWrites ws d)).take k) d) = .ok d' ∧
      (d' start).word 0 = 0 ∧
      ((∀ a, a < start ∨ start + size ≤ a → d' a = d a) ∨
        (∀ a, a < start ∨ start + size ≤ a → d' a = applyWrites ts d a)) := by
  set L : Log := ⟨start, size, true, []⟩ with hL
  obtain ⟨hlogged, hstart, hsize, hcrash⟩ := (Logged.init L d rfl).logWrites hhome hwidth hrun
  have hclear' : ∀ j, (applyWrites (ws.take j) d L.start).word 0 = 0 := by
    intro j
    rw [hcrash j L.start (Or.inr rfl)]
    exact hclear
  have hcons : Consistent L d (applyWrites ts d)
      (applyWrites ((ws ++ L'.commitTrans (applyWrites ws d)).take k) d) := by
    rw [List.take_append, applyWrites_append]
    rcases Nat.lt_or_ge k ws.length with hk | hk
    · -- the crash came before the commit
      rw [Nat.sub_eq_zero_of_le hk.le, List.take_zero, applyWrites_nil]
      exact Or.inl ⟨hclear' k, Or.inl fun a ha => hcrash k a (Or.inl ha)⟩
    · have hall := hclear' ws.length
      rw [List.take_length, ← hstart] at hall
      rw [List.take_of_length_le hk]
      exact (hlogged.commitTrans_take hall (k - ws.length)).of_area hstart hsize
  exact hcons.recoverAfter ks

/-- A transaction that writes sector 3 twice and sector 4 once, stopped after its commit and
the first of its two installations, with one crash during recovery. -/
theorem home_blocks_atomic_absorbed : ∃ (ws : List (ℕ × Block)) (L' : Log),
    (⟨10, 10, true, []⟩ : Log).logWrites
      [(3, Block.zero), (4, Block.zero), (3, Block.zero.setWord 0 7)] = .ok (L', ws) ∧
    ws.length = 3 ∧
    ∃ d', recoverAfter 10 [1] (applyWrites
        ((ws ++ L'.commitTrans (applyWrites ws fun _ => Block.zero)).take 5)
        fun _ => Block.zero) = .ok d' ∧
      (d' 10).word 0 = 0 ∧
      ((∀ a, a < 10 ∨ 10 + 10 ≤ a → d' a = Block.zero) ∨
        (∀ a, a < 10 ∨ 10 + 10 ≤ a → d' a =
          applyWrites [(3, Block.zero), (4, Block.zero), (3, Block.zero.setWord 0 7)]
            (fun _ => Block.zero) a)) :=
  ⟨_, _, rfl, rfl, home_blocks_atomic (Block.word_zero 0) (by simp) (by simp) rfl 5 [1]⟩

end Crash

end Xv6
