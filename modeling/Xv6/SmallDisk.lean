import Xv6.FileContent

/-!
# A Small File System

A family of concrete states: eight inodes, of which number 1 is a cached file with `k` direct
blocks, `f` free data blocks after those, and a log area of ten blocks. They satisfy the
ownership invariant, and the results about the file system are evaluated on them.

## Main results

* `own_smallDisk`: the states satisfy the invariant.
* `ptr_smallDisk`, `free_smallDisk`: their pointers and free blocks.
-/

namespace Xv6

/-- The superblock. -/
def smallSb (k f : ℕ) : Superblock := ⟨5 + k + f + 10, k + f, 8, 10⟩

/-- A file with `k` direct blocks, from block 5 on. -/
def smallFile (k : ℕ) : Dinode :=
  ⟨T_FILE, 0, 0, 1, 512 * k, fun i => if i.val < k then 5 + i.val else 0⟩

/-- The state; `busy` tells whether a transaction is open. -/
def smallDisk (busy : Bool) (k f : ℕ) : Sys where
  disk x := if x = 1 then (smallSb k f).toBlock else if x = 4 then Block.usedPrefix (5 + k)
    else Block.zero
  log := ⟨5 + k + f, 10, busy, []⟩
  icache a := if a = 0 then ⟨1, 1, true, true, smallFile k⟩ else noInode
  ftable _ := ⟨.none, 0, false, false, 0, 0⟩
  proc _ := ⟨fun _ => none, none⟩
  input := []
  owner := if busy then some 0 else none

section SmallDisk

variable {busy : Bool} {k f : ℕ}

theorem sb_smallDisk (h : 5 + k + f + 10 < 4096) : (smallDisk busy k f).sb = smallSb k f :=
  Superblock.ofBlock_toBlock (by simp only [smallSb]; omega) (by simp only [smallSb]; omega)
    (by simp only [smallSb]; omega) (by simp only [smallSb]; omega)

/-- The blocks in use are the metadata and those of the file. -/
theorem used_smallDisk (h : 5 + k + f + 10 < 4096) {b : ℕ} (hb : b < 4096) :
    (smallDisk busy k f).used b = decide (b < 5 + k) := by
  have hblk : BBLOCK b 8 = 4 := by
    rw [bblock_eq]
    omega
  have hmod : b % BPB = b := by
    simp only [BPB, BSIZE]
    omega
  rw [Sys.used, sb_smallDisk h, smallSb, hblk, hmod]
  exact Block.bit_usedPrefix (by omega) hb

/-- The first entry is held, and no other one. -/
theorem held_smallDisk {a : ℕ} : (smallDisk busy k f).Held a ↔ a = 0 := by
  constructor
  · rintro ⟨-, hr, -⟩
    by_contra hne
    simp [smallDisk, hne, noInode] at hr
  · rintro rfl
    exact ⟨by decide, by simp [smallDisk], by simp [smallDisk]⟩

/-- No inode is cached twice. -/
theorem uniq_smallDisk : (smallDisk busy k f).Uniq := by
  have hzero : ∀ a, 0 < ((smallDisk busy k f).icache a).ref → a = 0 := by
    intro a ha
    by_contra hne
    simp [smallDisk, hne, noInode] at ha
  intro a _ b _ ha hb _
  rw [hzero a ha, hzero b hb]

/-- Inode 1 is the file. -/
theorem dinode_smallDisk {i : ℕ} (hi : i < 8) :
    (smallDisk busy k f).dinode i = if i = 1 then smallFile k else Dinode.zero := by
  split_ifs with h1
  · subst h1
    exact Sys.dinode_of_held uniq_smallDisk (held_smallDisk.mpr (rfl : 0 = 0))
  · have hdisk : (smallDisk busy k f).dinode i = (smallDisk busy k f).diskInode i := by
      refine Sys.dinode_of_forall_ne fun a ha => ?_
      rw [held_smallDisk.mp ha]
      exact fun he => h1 he.symm
    have hblk : IBLOCK i = 2 := by
      rw [iblock_eq]
      omega
    have hzero : (smallDisk busy k f).disk 2 = Block.zero := rfl
    rw [hdisk, Sys.diskInode, hblk, hzero, getDinode_zero]

/-- The blocks of the file, one after the other. -/
theorem addr_smallDisk (hk : k ≤ 10) {i r : ℕ} (hi : i < 8) :
    ((smallDisk busy k f).dinode i).addr r = if i = 1 ∧ r < k then 5 + r else 0 := by
  rw [dinode_smallDisk hi]
  by_cases h1 : i = 1
  · rw [if_pos h1, Dinode.addr]
    by_cases hr : r < 13
    · simp [hr, h1, smallFile]
    · have : ¬ r < k := by omega
      simp [hr, this]
  · rw [if_neg h1, if_neg (by tauto)]
    exact Dinode.addr_eq_zero (fun _ => rfl) r

/-- The pointers: only those of the file's direct blocks are set. -/
theorem ptr_smallDisk (hk : k ≤ 10) {q : Pos} (hq : q.Valid 8) :
    (smallDisk busy k f).ptr q =
      if q.inum = 1 ∧ q.root < k ∧ q.path = [] then 5 + q.root else 0 := by
  obtain ⟨i, r, js⟩ := q
  cases js with
  | nil => simp [ptr_nil, addr_smallDisk hk hq.inum]
  | cons j js =>
    -- indirect blocks are below entries that are not set
    have hr : 10 ≤ r := by
      have := hq.pos.depth
      by_contra hlt
      simp [depth, show r < 10 by omega] at this
    have hzero : ∀ js, (smallDisk busy k f).ptr ⟨i, r, js⟩ = 0 := by
      intro js
      induction js with
      | nil => rw [ptr_nil, addr_smallDisk hk hq.inum, if_neg (by omega)]
      | cons j js ih => rw [ptr_cons, if_pos ih]
    rw [hzero, if_neg (by simp)]

/-- **The small file systems satisfy the ownership invariant.** -/
theorem own_smallDisk (hk : k ≤ 10) (h : 5 + k + f + 10 < 4096) : Own (smallDisk busy k f) := by
  have hsb : (smallDisk busy k f).sb = smallSb k f := sb_smallDisk h
  have hm : (smallSb k f).metaEnd = 5 := by
    rw [Superblock.metaEnd_eq]
    simp only [smallSb]
    omega
  have hn : (smallDisk busy k f).sb.ninodes = 8 := by rw [hsb]; rfl
  have hlayout : (smallDisk busy k f).Layout := by
    refine ⟨?_, ?_⟩
    · rw [hsb, hm]
      simp only [smallDisk]
      omega
    · rw [hsb]
      simp only [smallDisk, smallSb]
      omega
  have hcache : (smallDisk busy k f).CacheOk := by
    refine ⟨uniq_smallDisk, fun a ha => ?_, fun a ha => ?_⟩
    · rw [held_smallDisk.mp ha, hn]
      simp [smallDisk]
    · rw [held_smallDisk.mp ha]
      refine ⟨by simp only [smallDisk, if_true, smallFile]; omega, fun i => ?_⟩
      simp only [smallDisk, if_true, smallFile, Dinode.addr]
      split_ifs <;> omega
  have hlog : LogOk (smallDisk busy k f) := by
    refine ⟨List.nodup_nil, fun x hx => ?_, fun i x hx => ?_⟩
    · cases hx
    · cases hx
  refine { hlayout, hcache, hlog with meta_used := ?_, range := ?_, ptr_used := ?_, inj := ?_ }
  · rw [hsb, hm]
    intro b hb
    rw [used_smallDisk h (by omega)]
    simp only [decide_eq_true_eq]
    omega
  · rw [hsb, hm]
    intro q hq hne
    rw [ptr_smallDisk hk hq] at hne ⊢
    split_ifs at hne ⊢ with hc
    · simp only [smallDisk]
      omega
    · exact absurd rfl hne
  · rw [hn]
    intro q hq hne
    rw [ptr_smallDisk hk hq] at hne ⊢
    split_ifs at hne ⊢ with hc
    · rw [used_smallDisk h (by omega)]
      simp only [decide_eq_true_eq]
      omega
    · exact absurd rfl hne
  · rw [hn]
    intro q q' hq hq' hne he
    rw [ptr_smallDisk hk hq] at hne he
    rw [ptr_smallDisk hk hq'] at he
    split_ifs at hne he with hc hc'
    · obtain ⟨i, r, js⟩ := q
      obtain ⟨i', r', js'⟩ := q'
      simp only at hc hc' he
      simp only [Pos.mk.injEq]
      exact ⟨by omega, by omega, by rw [hc.2.2, hc'.2.2]⟩
    · omega
    · exact absurd rfl hne
    · exact absurd rfl hne

/-- The free blocks follow the blocks of the file. -/
theorem free_smallDisk (h : 5 + k + f + 10 < 4096) :
    (smallDisk busy k f).free = (List.range f).map (5 + k + ·) := by
  have hstart : (smallDisk busy k f).log.start = 5 + k + f := rfl
  rw [Sys.free, hstart, List.range_add, List.filter_append, List.filter_eq_nil_iff.mpr,
    List.filter_eq_self.mpr, List.nil_append]
  · intro b hb
    obtain ⟨j, hj, rfl⟩ := List.mem_map.mp hb
    have := List.mem_range.mp hj
    rw [used_smallDisk h (by omega)]
    simp
  · intro b hb
    have := List.mem_range.mp hb
    rw [used_smallDisk h (by omega)]
    simpa using this

end SmallDisk

end Xv6
