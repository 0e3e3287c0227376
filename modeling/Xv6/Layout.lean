import Mathlib
import Xv6.Mkfs

/-!
# The Layout of the Disk

Where the inodes, the bitmap, the data and the log are is not stored on the disk. The kernel
computes it from the superblock (`fs.h`), and `mkfs` from its variables, which have the same values.

## Main results

* `layout_sound_iff`: **the regions of the disk are disjoint and inside of it**, for all values that
  pass the assertion of `mkfs`, unless the sum in that assertion wraps around.
-/

open Set

namespace Xv6.Mkfs

/-- `i2b(inum)`. -/
def i2b (inum : ℕ) : ℕ := inum / IPB + 2

/-- The variables of `mkfs` that the superblock is made of, as values of type `int`. -/
structure Variables (sb : Superblock) : Prop where
  ninodes_pos : 1 ≤ sb.ninodes
  nlog_pos : 1 ≤ sb.nlog
  ninodes_lt : sb.ninodes < 2 ^ 31
  nblocks_lt : sb.nblocks < 2 ^ 31
  nlog_lt : sb.nlog < 2 ^ 31
  size_lt : sb.size < 2 ^ 31

/-- `assert(nblocks + usedblocks + nlog == size)`, a sum of unsigned numbers. -/
def Asserted (sb : Superblock) : Prop := (sb.nblocks + sb.metaEnd + sb.nlog) % 2 ^ 32 = sb.size

/-- The parts of the disk behind the superblock. -/
inductive Region
  | inodes | bitmap | data | log
  deriving DecidableEq

/-- The blocks of a region; the last two start and end where the source says. -/
def Region.blocks (sb : Superblock) : Region → Set ℤ
  | .inodes => {x | ∃ i < sb.ninodes, x = IBLOCK i}
  | .bitmap => {x | ∃ b < sb.size, x = BBLOCK b sb.ninodes}
  | .data => Ico sb.metaEnd (sb.size - sb.nlog)
  | .log => Ico (sb.size - sb.nlog) sb.size

/-- The regions are disjoint parts of the image behind its first two blocks; the kernel and `mkfs`
agree on where an inode and, in the part of the bitmap that `mkfs` writes, the bit of a block are;
and no two inodes and no two bits are in one place. -/
structure Sound (sb : Superblock) : Prop where
  inside : ∀ r : Region, r.blocks sb ⊆ Ico 2 sb.size
  disjoint : ∀ r r' : Region, r ≠ r' → Disjoint (r.blocks sb) (r'.blocks sb)
  agree_inode : ∀ i, i2b i = IBLOCK i
  agree_bitmap : ∀ b < 512 * 8, BBLOCK b sb.ninodes = sb.ninodes / IPB + 3
  slot : ∀ i j, IBLOCK i = IBLOCK j → i % IPB = j % IPB → i = j
  bit : ∀ b b', BBLOCK b sb.ninodes = BBLOCK b' sb.ninodes → b % BPB = b' % BPB → b = b'

variable {sb : Superblock}

/-- The end of a region, which is where the next one may start. -/
def Region.stop (sb : Superblock) : Region → ℤ
  | .inodes => sb.ninodes / 8 + 3
  | .bitmap => sb.metaEnd
  | .data => sb.size - sb.nlog
  | .log => sb.size

/-- The start of a region. -/
def Region.start (sb : Superblock) : Region → ℤ
  | .inodes => 2
  | .bitmap => sb.ninodes / 8 + 3
  | .data => sb.metaEnd
  | .log => sb.size - sb.nlog

/-- The blocks of a region are between its bounds. -/
theorem Region.mem_bounds {r : Region} {x : ℤ} (hx : x ∈ r.blocks sb) :
    r.start sb ≤ x ∧ x < r.stop sb := by
  cases r with
  | inodes =>
    obtain ⟨i, hi, rfl⟩ := hx
    have := iblock_lt hi
    rw [iblock_eq] at this ⊢
    simp only [start, stop]
    omega
  | bitmap =>
    obtain ⟨b, hb, rfl⟩ := hx
    have := Superblock.bblock_lt_metaEnd hb
    rw [bblock_eq] at this ⊢
    simp only [start, stop]
    omega
  | data => exact hx
  | log => exact hx

/-- **The layout of the disk.** -/
theorem layout_sound_iff (hv : Variables sb) (h : Asserted sb) :
    Sound sb ↔ sb.nblocks + sb.metaEnd + sb.nlog < 2 ^ 32 := by
  have hpos := hv.nlog_pos
  have hend := sb.metaEnd_eq
  have h1 := hv.ninodes_lt
  have h2 := hv.nblocks_lt
  have h3 := hv.nlog_lt
  have h4 := hv.size_lt
  rw [Asserted] at h
  constructor
  · intro hs
    -- with a sum that wraps around, the log would start below the first block
    have hlog : (sb.size - sb.nlog : ℤ) ∈ Region.blocks sb .log := ⟨le_rfl, by omega⟩
    have := (hs.inside .log hlog).1
    omega
  · intro hlt
    rw [Nat.mod_eq_of_lt hlt] at h
    constructor
    case inside =>
      intro r x hx
      obtain ⟨hlo, hhi⟩ := Region.mem_bounds hx
      cases r <;> simp only [Region.start, Region.stop] at hlo hhi <;> exact ⟨by omega, by omega⟩
    case disjoint =>
      intro r r' hne
      rw [Set.disjoint_left]
      intro x hx hx'
      obtain ⟨hlo, hhi⟩ := Region.mem_bounds hx
      obtain ⟨hlo', hhi'⟩ := Region.mem_bounds hx'
      cases r <;> cases r' <;> simp only [Region.start, Region.stop] at hlo hhi hlo' hhi' <;>
        first | exact hne rfl | omega
    case agree_inode => exact fun i => rfl
    case agree_bitmap =>
      intro b hb
      rw [bblock_eq, Nat.div_eq_of_lt hb]
      simp
    case slot =>
      intro i j hblock hslot
      simp only [iblock_eq, IPB, BSIZE] at hblock hslot
      omega
    case bit =>
      intro b b' hblock hbit
      simp only [bblock_eq, BPB, BSIZE] at hblock hbit
      omega

/-- The values that `mkfs.c` has. -/
theorem layout_sound_iff_shipped : Sound Mkfs.sb :=
  have hv : Variables Mkfs.sb :=
    ⟨by decide, by decide, by decide, by decide, by decide, by decide⟩
  (layout_sound_iff hv rfl).mpr (by decide)

/-- Two sectors for four blocks of metadata: the sum in the assertion is `2 ^ 32 + 2`. -/
theorem layout_wraps : Variables ⟨2, 2 ^ 31 - 1, 1, 2 ^ 31 - 1⟩ ∧
    Asserted ⟨2, 2 ^ 31 - 1, 1, 2 ^ 31 - 1⟩ ∧ ¬ Sound ⟨2, 2 ^ 31 - 1, 1, 2 ^ 31 - 1⟩ := by
  refine ⟨⟨by decide, by decide, by decide, by decide, by decide, by decide⟩, rfl, fun h => ?_⟩
  have hinode : (2 : ℤ) ∈ Region.blocks ⟨2, 2 ^ 31 - 1, 1, 2 ^ 31 - 1⟩ .inodes :=
    ⟨0, Nat.one_pos, rfl⟩
  exact absurd (h.inside .inodes hinode).2 (lt_irrefl _)

end Xv6.Mkfs
