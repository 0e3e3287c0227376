import Mathlib.Data.List.Find
import Xv6.Fs

/-!
# The Block Allocator

`log_write` and `balloc` as functions on the kernel state. Below the log area a `log_write`
is an update of one sector (`Sys.disk_logPut`), and `balloc` takes the first block whose bit
is clear, marks it and zeroes it. The free blocks of the data area are kept as a list
(`Sys.free`), of which `balloc` takes the head.

The results are about runs with a log that does not fill up; `Xv6.TransBody` carries them over
to the kernel's log. On guarded runs (`Mode.guarded`) the blocks of the log area, which the
bitmap does not mark, are not allocated.

## Main results

* `run_balloc`: what `balloc` does, for every bitmap.
* `used_allocBlock`: **an allocation changes exactly one bit of the bitmap.**
* `run_balloc_cons`, `free_allocBlock`: an allocation takes the first free block.
-/

open WriteSeq

namespace Xv6

namespace Sys

variable {s : Sys} {b x : ℕ} {data : Block}

/-! ### `log_write` -/

@[simp] theorem logPut_icache : (s.logPut b data).icache = s.icache := rfl

@[simp] theorem logPut_start : (s.logPut b data).log.start = s.log.start := rfl

@[simp] theorem logPut_size : (s.logPut b data).log.size = s.log.size := rfl

@[simp] theorem logPut_busy : (s.logPut b data).log.busy = s.log.busy := rfl

theorem logPut_lh :
    (s.logPut b data).log.lh = if b ∈ s.log.lh then s.log.lh else s.log.lh ++ [b] := by
  simp only [logPut, Log.record_eq]

/-- The blocks in the log after `log_write`. -/
theorem mem_logPut_lh : x ∈ (s.logPut b data).log.lh ↔ x = b ∨ x ∈ s.log.lh := by
  rw [logPut_lh]
  split_ifs with h
  · exact ⟨Or.inr, fun hx => hx.elim (fun he => he ▸ h) id⟩
  · simp [or_comm]

/-- **Outside the log area, `log_write` changes its sector and nothing else.** -/
theorem disk_logPut (hx : x ≤ s.log.start) :
    (s.logPut b data).disk x = if x = b then data else s.disk x := by
  simp only [logPut, Log.record_eq, applyWrites_cons, applyWrites_nil]
  rw [Function.update_of_ne (by omega), Function.update_apply]

/-! ### The bitmap -/

/-- The superblock. -/
def sb (s : Sys) : Superblock := Superblock.ofBlock (s.disk 1)

/-- Whether the bitmap marks block `b` as used. -/
def used (s : Sys) (b : ℕ) : Bool := (s.disk (BBLOCK b s.sb.ninodes)).bit (b % BPB)

/-- The layout of the disk that `mkfs` establishes: the superblock, the inodes and the bitmap
end below the log area, and the log area is part of the disk. -/
structure Layout (s : Sys) : Prop where
  meta_le : s.sb.metaEnd ≤ s.log.start
  start_le : s.log.start ≤ s.sb.size

/-- The free blocks of the data area, in the order in which `balloc` takes them. -/
def free (s : Sys) : List ℕ := (List.range s.log.start).filter fun b => !s.used b

/-- The state after `balloc` has returned `b`. -/
def allocBlock (s : Sys) (b : ℕ) : Sys :=
  (s.logPut (BBLOCK b s.sb.ninodes)
    ((s.disk (BBLOCK b s.sb.ninodes)).setBit (b % BPB))).logPut b Block.zero

@[simp] theorem allocBlock_icache : (s.allocBlock b).icache = s.icache := rfl

@[simp] theorem allocBlock_start : (s.allocBlock b).log.start = s.log.start := rfl

@[simp] theorem allocBlock_size : (s.allocBlock b).log.size = s.log.size := rfl

@[simp] theorem allocBlock_busy : (s.allocBlock b).log.busy = s.log.busy := rfl

theorem mem_allocBlock_lh :
    x ∈ (s.allocBlock b).log.lh ↔ x = b ∨ x = BBLOCK b s.sb.ninodes ∨ x ∈ s.log.lh := by
  simp only [allocBlock, mem_logPut_lh]

theorem sb_eq_of_disk {t : Sys} (h : t.disk 1 = s.disk 1) : t.sb = s.sb := by
  rw [sb, sb, h]

/-- A write to the bit of `b` in the bitmap concerns no other block. -/
theorem used_of_bit {t : Sys} {B : Block} {v : Bool} (hsb : t.sb = s.sb)
    (hdisk : t.disk (BBLOCK x s.sb.ninodes) =
      if BBLOCK x s.sb.ninodes = BBLOCK b s.sb.ninodes then B
      else s.disk (BBLOCK x s.sb.ninodes))
    (hbit : ∀ i < 4096, B.bit i =
      if i = b % BPB then v else (s.disk (BBLOCK b s.sb.ninodes)).bit i) :
    t.used x = if x = b then v else s.used x := by
  rw [used, hsb, hdisk, used]
  have h1 : x % BPB < 4096 := Nat.mod_lt _ (by decide)
  have h2 : b % BPB < 4096 := Nat.mod_lt _ (by decide)
  by_cases hbb : BBLOCK x s.sb.ninodes = BBLOCK b s.sb.ninodes
  · rw [if_pos hbb, hbit _ h1, hbb]
    rw [bblock_eq, bblock_eq] at hbb
    refine if_congr ?_ rfl rfl
    simp only [BPB, BSIZE] at h1 h2 ⊢
    omega
  · rw [if_neg hbb, if_neg]
    rintro rfl
    exact hbb rfl

theorem Layout.three_lt_start (h : s.Layout) : 3 < s.log.start := by
  have := h.meta_le
  rw [Superblock.metaEnd_eq] at this
  omega

/-- The blocks that `balloc` writes to. -/
theorem disk_allocBlock (hx : x ≤ s.log.start) :
    (s.allocBlock b).disk x =
      if x = b then Block.zero
      else if x = BBLOCK b s.sb.ninodes then (s.disk x).setBit (b % BPB)
      else s.disk x := by
  rw [allocBlock, disk_logPut (by simpa using hx), disk_logPut hx]
  split_ifs with h1 h2
  · rfl
  · rw [h2]
  · rfl

section AllocBlock

variable (h : s.Layout) (hb : s.sb.metaEnd ≤ b)
include h hb

/-- `balloc` does not write to the superblock. -/
theorem sb_allocBlock : (s.allocBlock b).sb = s.sb := by
  have h3 := h.three_lt_start
  refine sb_eq_of_disk ?_
  rw [disk_allocBlock (by omega), if_neg, if_neg]
  · rw [bblock_eq]
    omega
  · rw [Superblock.metaEnd_eq] at hb
    omega

/-- **An allocation changes exactly one bit of the bitmap.** -/
theorem used_allocBlock (hx : x < s.sb.size) :
    (s.allocBlock b).used x = if x = b then true else s.used x := by
  have hmeta := Superblock.bblock_lt_metaEnd hx
  have hle := h.meta_le
  refine used_of_bit (sb_allocBlock h hb) ?_ fun i hi =>
    Block.bit_setBit _ (Nat.mod_lt _ (by decide)) hi
  rw [disk_allocBlock (by omega), if_neg (by omega)]
  split_ifs with hbb
  · rw [hbb]
  · rfl

end AllocBlock

/-! ### The free blocks -/

theorem mem_free : x ∈ s.free ↔ x < s.log.start ∧ s.used x = false := by
  simp [free]

theorem nodup_free : s.free.Nodup := List.nodup_range.filter _

/-- An allocation takes the first free block. -/
theorem free_allocBlock {l : List ℕ} (h : s.Layout) (hb : s.sb.metaEnd ≤ b)
    (hfree : s.free = b :: l) : (s.allocBlock b).free = l := by
  have hnd := s.nodup_free
  rw [hfree, List.nodup_cons] at hnd
  have hl : l = s.free.filter (· ≠ b) := by
    rw [hfree, List.filter_cons_of_neg (by simp), List.filter_eq_self.mpr]
    intro x hx
    simpa using ne_of_mem_of_not_mem hx hnd.1
  have hstart := h.start_le
  rw [hl, free, free, allocBlock_start, List.filter_filter]
  refine List.filter_congr fun x hx => ?_
  rw [List.mem_range] at hx
  rw [used_allocBlock h hb (by omega)]
  by_cases hxb : x = b <;> simp [hxb]

end Sys

/-! ### `balloc` -/

section Balloc

variable {md : Mode} {p : ℕ} {s : Sys}

/-- The blocks whose bits are in the bitmap blocks `ks`, in the order of the scan. -/
def scanned (size : ℕ) (ks : List ℕ) : List ℕ :=
  ks.flatMap fun k => (List.range (min BPB (size - BPB * k))).map (BPB * k + ·)

/-- The loops of `balloc` look at all blocks below `size`. -/
theorem scanned_range (size m : ℕ) :
    scanned size (List.range m) = List.range (min size (BPB * m)) := by
  induction m with
  | zero => simp [scanned]
  | succ m ih =>
    have hlen : min size (BPB * (m + 1)) = min size (BPB * m) + min BPB (size - BPB * m) := by
      simp only [BPB, BSIZE]
      omega
    rw [scanned, List.range_succ, List.flatMap_append, hlen, List.range_add]
    rw [scanned] at ih
    rw [ih]
    congr 1
    simp only [List.flatMap_cons, List.flatMap_nil, List.append_nil]
    by_cases hm : BPB * m ≤ size
    · rw [min_eq_right hm]
    · rw [show size - BPB * m = 0 by omega]
      simp

/-- The outcome of a scan that has found `b`, or nothing. -/
def ballocAt (md : Mode) (s : Sys) : Option ℕ → Except Fault (ℕ × Sys)
  | none => .error (.panic .outOfBlocks)
  | some b =>
    if md.guarded ∧ s.log.start ≤ b then .error .excluded else .ok (b, s.allocBlock b)

/-- There is room in the log for the two sectors that `balloc` writes. -/
def Room (md : Mode) (s : Sys) : Prop :=
  md.limited = true → s.log.isFull = false ∧ ∀ x data, (s.logPut x data).log.isFull = false

theorem room_of_unlimited (hlim : md.limited = false) : Room md s := by
  intro h
  rw [hlim] at h
  cases h

/-- `balloc` takes the first free block. -/
theorem run_ballocScan (hroom : Room md s) (hbusy : s.log.busy = true) (ks : List ℕ) :
    Prog.run (exec md p) (ballocScan s.sb ks) s =
      ballocAt md s ((scanned s.sb.size ks).find? fun b => !s.used b) := by
  induction ks with
  | nil => rfl
  | cons k ks ih =>
    have hbit : ∀ bi < 4096, s.used (BPB * k + bi) =
        (s.disk (BBLOCK (BPB * k) s.sb.ninodes)).bit bi := by
      intro bi hbi
      rw [Sys.used, bblock_eq, bblock_eq]
      simp only [BPB, BSIZE]
      congr 2 <;> omega
    have hclear : ((List.range (min BPB (s.sb.size - BPB * k))).map (BPB * k + ·)).find?
          (fun b => !s.used b) =
        (findClear (s.disk (BBLOCK (BPB * k) s.sb.ninodes)) (s.sb.size - BPB * k)).map
          (BPB * k + ·) := by
      rw [List.find?_map, findClear]
      congr 1
      refine List.find?_congr fun bi hbi => ?_
      have hlt : bi < 4096 := lt_of_lt_of_le (List.mem_range.mp hbi) (min_le_left _ _)
      rw [← hbit bi hlt]
      rfl
    rw [ballocScan, scanned, List.flatMap_cons, List.find?_append, hclear]
    simp only [Prog.run_bind, run_bread, Prog.ok_bind]
    cases hf : findClear (s.disk (BBLOCK (BPB * k) s.sb.ninodes)) (s.sb.size - BPB * k) with
    | none => exact ih
    | some bi =>
      have hlt : bi < 4096 := by
        have := List.mem_of_find?_eq_some hf
        simp only [BPB, BSIZE, List.mem_range] at this
        omega
      have hblk : BBLOCK (BPB * k) s.sb.ninodes = BBLOCK (BPB * k + bi) s.sb.ninodes := by
        rw [bblock_eq, bblock_eq]
        simp only [BPB, BSIZE]
        omega
      have hmod : (BPB * k + bi) % BPB = bi := by
        simp only [BPB, BSIZE]
        omega
      simp only [Option.map_some, Option.some_or, ballocAt, bzero, Prog.run_bind]
      by_cases hg : md.guarded = true ∧ s.log.start ≤ BPB * k + bi
      · rw [if_pos hg, mark, run_perform]
        simp only [exec, if_pos hg]
        rfl
      · rw [if_neg hg, run_mark_alloc fun h => by by_contra hle; exact hg ⟨h, by omega⟩]
        simp only [Prog.ok_bind]
        rw [run_logWrite (fun hl => (hroom hl).1) hbusy]
        simp only [Prog.ok_bind, run_bread]
        rw [run_logWrite (fun hl => (hroom hl).2 _ _) (by simpa using hbusy)]
        simp only [Prog.ok_bind, Prog.run_pure, Sys.allocBlock, hblk, hmod]

@[simp] theorem run_readsb : Prog.run (exec md p) readsb s = .ok (s.sb, s) := by
  rw [readsb, Prog.run_bind, run_bread]
  rfl

/-- **`balloc`**: the first block whose bit is clear, for every bitmap. -/
theorem run_balloc_room (hroom : Room md s) (hbusy : s.log.busy = true) :
    Prog.run (exec md p) balloc s =
      ballocAt md s ((List.range s.sb.size).find? fun b => !s.used b) := by
  rw [balloc, Prog.run_bind, run_readsb, Prog.ok_bind, run_ballocScan hroom hbusy, scanned_range,
    min_eq_left]
  simp only [BPB, BSIZE]
  omega

theorem run_balloc (hlim : md.limited = false) (hbusy : s.log.busy = true) :
    Prog.run (exec md p) balloc s =
      ballocAt md s ((List.range s.sb.size).find? fun b => !s.used b) :=
  run_balloc_room (room_of_unlimited hlim) hbusy

/-- The scan finds the first free block of the data area. -/
theorem find?_of_free {b : ℕ} {l : List ℕ} (h : s.Layout) (hfree : s.free = b :: l) :
    (List.range s.sb.size).find? (fun b => !s.used b) = some b := by
  have hfirst : (List.range s.log.start).find? (fun b => !s.used b) = some b := by
    rw [← List.head?_filter, ← Sys.free, hfree, List.head?_cons]
  have hsize : s.sb.size = s.log.start + (s.sb.size - s.log.start) := by
    have := h.start_le
    omega
  rw [hsize, List.range_add, List.find?_append, hfirst, Option.some_or]

/-- `balloc` with free blocks in the data area. -/
theorem run_balloc_cons {b : ℕ} {l : List ℕ} (hlim : md.limited = false)
    (hbusy : s.log.busy = true) (h : s.Layout) (hfree : s.free = b :: l) :
    Prog.run (exec md p) balloc s = .ok (b, s.allocBlock b) := by
  have hb : b < s.log.start := (Sys.mem_free.mp (hfree ▸ List.mem_cons_self)).1
  rw [run_balloc hlim hbusy, find?_of_free h hfree, ballocAt, if_neg (by omega)]

/-- `balloc` without free blocks in the data area fails on guarded runs. -/
theorem run_balloc_nil (hg : md.guarded = true) (hlim : md.limited = false)
    (hbusy : s.log.busy = true) (hfree : s.free = []) :
    ∃ e, Prog.run (exec md p) balloc s = .error e := by
  rw [run_balloc hlim hbusy]
  cases hf : (List.range s.sb.size).find? fun b => !s.used b with
  | none => exact ⟨_, rfl⟩
  | some b =>
    have hu : s.used b = false := by simpa using List.find?_some hf
    have hb : s.log.start ≤ b := by
      by_contra hlt
      have := Sys.mem_free.mpr ⟨Nat.lt_of_not_le hlt, hu⟩
      rw [hfree] at this
      cases this
    exact ⟨_, if_pos ⟨hg, hb⟩⟩

end Balloc

end Xv6
