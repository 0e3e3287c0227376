import Xv6.Block

/-!
# The Superblock and the On-Disk Inodes

`struct superblock` and `struct dinode` (`fs.h`) as arrays of words in a block, and the
places where the file system keeps its metadata: `IBLOCK`, `BBLOCK` and the inode slots of a
block.

## Main results

* `getDinode_putDinode_self`, `getDinode_putDinode_of_ne`: storing a dinode changes exactly
  that slot of its block.
-/

namespace Xv6

/-- `NDIRECT` (`fs.h`). -/
@[simp] def NDIRECT : ℕ := 10

/-- `NUM_INDIRECT` (`fs.h`). -/
@[simp] def NUM_INDIRECT : ℕ := 2

/-- `NUM_DOUBLE_INDIRECT` (`fs.h`). -/
@[simp] def NUM_DOUBLE_INDIRECT : ℕ := 1

/-- `NINDIRECT` (`fs.h`): the blocks addressed by the singly-indirect pointers. -/
@[simp] def NINDIRECT : ℕ := NUM_INDIRECT * PTRS_PER_BLOCK

/-- `NDOUBLE` (`fs.h`): the blocks addressed by the doubly-indirect pointer. -/
@[simp] def NDOUBLE : ℕ := NUM_DOUBLE_INDIRECT * PTRS_PER_BLOCK * PTRS_PER_BLOCK

/-- `MAXFILE` (`fs.h`): the most blocks a file can have. -/
@[simp] def MAXFILE : ℕ := NDIRECT + NINDIRECT + NDOUBLE

/-- The length of `addrs` in `struct dinode`. -/
@[simp] def NADDRS : ℕ := NDIRECT + NUM_INDIRECT + NUM_DOUBLE_INDIRECT

/-- `IPB` (`fs.h`): inodes per block, each of 64 bytes. -/
@[simp] def IPB : ℕ := BSIZE / 64

/-- `IBLOCK` (`fs.h`): the block containing inode `i`. -/
def IBLOCK (i : ℕ) : ℕ := i / IPB + 2

/-- `BBLOCK` (`fs.h`): the block containing the bit for block `b`. -/
def BBLOCK (b ninodes : ℕ) : ℕ := b / BPB + ninodes / IPB + 3

/-- `ROOTINO` (`fs.h`). -/
@[simp] def ROOTINO : ℕ := 1

/-- `struct superblock`. -/
@[ext] structure Superblock where
  size : ℕ
  nblocks : ℕ
  ninodes : ℕ
  nlog : ℕ
  deriving DecidableEq, Repr

/-- `memmove(sb, bp->data, sizeof(*sb))`. -/
def Superblock.ofBlock (b : Block) : Superblock :=
  ⟨b.word 0, b.word 1, b.word 2, b.word 3⟩

/-- The block with this superblock. -/
def Superblock.toBlock (sb : Superblock) : Block :=
  (((Block.zero.setWord 0 sb.size).setWord 1 sb.nblocks).setWord 2 sb.ninodes).setWord 3 sb.nlog

/-- A superblock whose fields are words is read as it was written. -/
theorem Superblock.ofBlock_toBlock {sb : Superblock} (h1 : sb.size < 2 ^ 32)
    (h2 : sb.nblocks < 2 ^ 32) (h3 : sb.ninodes < 2 ^ 32) (h4 : sb.nlog < 2 ^ 32) :
    ofBlock sb.toBlock = sb := by
  ext <;> simp only [ofBlock, toBlock, Block.word_setWord _ (show 3 < 128 by omega) h4,
    Block.word_setWord _ (show 2 < 128 by omega) h3,
    Block.word_setWord _ (show 1 < 128 by omega) h2,
    Block.word_setWord _ (show 0 < 128 by omega) h1] <;> simp

/-- The first block past the superblock, the inodes and the bitmap, as `mkfs` lays them out:
`ninodes / IPB + 3 + bitblocks`. -/
def Superblock.metaEnd (sb : Superblock) : ℕ := sb.ninodes / IPB + 3 + (sb.size / BPB + 1)

theorem iblock_eq (i : ℕ) : IBLOCK i = i / 8 + 2 := rfl

theorem bblock_eq (b ninodes : ℕ) : BBLOCK b ninodes = b / 4096 + ninodes / 8 + 3 := rfl

theorem Superblock.metaEnd_eq (sb : Superblock) :
    sb.metaEnd = sb.ninodes / 8 + 3 + (sb.size / 4096 + 1) := rfl

/-- The bits of the blocks of the disk are in blocks below the end of the bitmap. -/
theorem Superblock.bblock_lt_metaEnd {sb : Superblock} {b : ℕ} (hb : b < sb.size) :
    BBLOCK b sb.ninodes < sb.metaEnd := by
  rw [bblock_eq, metaEnd_eq]
  omega

theorem iblock_lt {i ninodes : ℕ} (hi : i < ninodes) : IBLOCK i < ninodes / 8 + 3 := by
  rw [iblock_eq]
  omega

/-- The inodes are in blocks below the bitmap. -/
theorem iblock_lt_bblock {i ninodes : ℕ} (hi : i < ninodes) (b : ℕ) :
    IBLOCK i < BBLOCK b ninodes := by
  have := iblock_lt hi
  rw [bblock_eq]
  omega

/-- `struct dinode`, and the copy of it in `struct inode`. -/
@[ext] structure Dinode where
  type : BitVec 16
  major : BitVec 16
  minor : BitVec 16
  nlink : BitVec 16
  size : ℕ
  addrs : Fin NADDRS → ℕ

/-- `T_DIR` (`stat.h`). -/
def T_DIR : BitVec 16 := 1

/-- `T_FILE` (`stat.h`). -/
def T_FILE : BitVec 16 := 2

/-- `T_DEV` (`stat.h`). -/
def T_DEV : BitVec 16 := 3

namespace Dinode

/-- `ip->addrs[i]`; no modelled function uses an index past the array. -/
def addr (d : Dinode) (i : ℕ) : ℕ := if h : i < NADDRS then d.addrs ⟨i, h⟩ else 0

/-- `ip->addrs[i] = v`. -/
def setAddr (d : Dinode) (i v : ℕ) : Dinode :=
  { d with addrs := fun j => if j.val = i then v else d.addrs j }

/-- `ip->size = n`. -/
def setSize (d : Dinode) (n : ℕ) : Dinode := { d with size := n }

@[simp] theorem setSize_size (d : Dinode) (n : ℕ) : (d.setSize n).size = n := rfl

/-- The dinode of `memset(dip, 0, sizeof(*dip))`. -/
def zero : Dinode := ⟨0, 0, 0, 0, 0, fun _ => 0⟩

/-- An assignment to one of `addrs`. -/
theorem addr_setAddr (d : Dinode) {i j v : ℕ} (hi : i < 13) :
    (d.setAddr i v).addr j = if j = i then v else d.addr j := by
  by_cases hj : j < 13
  · simp [addr, setAddr, hj]
  · have hne : j ≠ i := by omega
    simp [addr, hj, hne]

/-- An inode without blocks. -/
theorem addr_eq_zero {d : Dinode} (h : ∀ i, d.addrs i = 0) (i : ℕ) : d.addr i = 0 := by
  unfold addr
  split
  · exact h _
  · rfl

/-- The 16 words of a dinode, in the order of the fields. -/
def wordAt (d : Dinode) (k : ℕ) : ℕ :=
  if k = 0 then d.type.toNat + 65536 * d.major.toNat
  else if k = 1 then d.minor.toNat + 65536 * d.nlink.toNat
  else if k = 2 then d.size
  else d.addr (k - 3)

/-- The dinode with these words. -/
def ofWords (w : ℕ → ℕ) : Dinode where
  type := BitVec.ofNat 16 (w 0)
  major := BitVec.ofNat 16 (w 0 / 65536)
  minor := BitVec.ofNat 16 (w 1)
  nlink := BitVec.ofNat 16 (w 1 / 65536)
  size := w 2
  addrs i := w (3 + i.val)

/-- The fields fit in their words. -/
structure Fits (d : Dinode) : Prop where
  size : d.size < 2 ^ 32
  addr : ∀ i, d.addr i < 2 ^ 32

/-- The words of an inode that can be stored. -/
theorem Fits.wordAt_lt {d : Dinode} (h : d.Fits) (k : ℕ) : d.wordAt k < 2 ^ 32 := by
  unfold wordAt
  split_ifs
  · omega
  · omega
  · exact h.size
  · exact h.addr _

/-- An inode is read as it was written. -/
theorem ofWords_wordAt (d : Dinode) : ofWords d.wordAt = d := by
  refine Dinode.ext ?_ ?_ ?_ ?_ rfl (funext fun i => ?_)
  · refine BitVec.eq_of_toNat_eq ?_
    simp only [ofWords, wordAt, if_true, BitVec.toNat_ofNat]
    omega
  · refine BitVec.eq_of_toNat_eq ?_
    simp only [ofWords, wordAt, if_true, BitVec.toNat_ofNat]
    omega
  · refine BitVec.eq_of_toNat_eq ?_
    simp only [ofWords, wordAt, BitVec.toNat_ofNat]
    norm_num
    omega
  · refine BitVec.eq_of_toNat_eq ?_
    simp only [ofWords, wordAt, BitVec.toNat_ofNat]
    norm_num
    omega
  · simp [ofWords, wordAt, addr, show 3 + i.val ≠ 1 by omega, show 3 + i.val ≠ 2 by omega]

/-- The first 16 words matter. -/
theorem ofWords_congr {v w : ℕ → ℕ} (h : ∀ k < 16, v k = w k) : ofWords v = ofWords w := by
  refine Dinode.ext ?_ ?_ ?_ ?_ (h 2 (by omega)) (funext fun i => ?_)
  · simp only [ofWords, h 0 (by omega)]
  · simp only [ofWords, h 0 (by omega)]
  · simp only [ofWords, h 1 (by omega)]
  · simp only [ofWords, h 1 (by omega)]
  · have hi : i.val < 13 := i.isLt
    exact h (3 + i.val) (by omega)

/-- What is read from a block fits. -/
theorem fits_ofWords {w : ℕ → ℕ} (h : ∀ k, w k < 2 ^ 32) : (ofWords w).Fits := by
  refine ⟨h 2, fun i => ?_⟩
  unfold addr
  split
  · exact h _
  · omega

end Dinode

/-! ### Inodes in a block -/

/-- The dinode in slot `j` of an inode block: `*((struct dinode*)bp->data + j)`. -/
def getDinode (b : Block) (j : ℕ) : Dinode := Dinode.ofWords fun k => b.word (16 * j + k)

/-- Store a dinode in slot `j` of an inode block. -/
def putDinode (b : Block) (j : ℕ) (d : Dinode) : Block :=
  (List.range 16).foldl (fun b k => b.setWord (16 * j + k) (d.wordAt k)) b

/-- The words of a block after a loop that stores `n` of them. -/
theorem word_foldl_setWord {j n : ℕ} {w : ℕ → ℕ} (hj : 16 * j + n ≤ 128)
    (hw : ∀ k, w k < 2 ^ 32) (b : Block) (i : ℕ) :
    ((List.range n).foldl (fun b k => b.setWord (16 * j + k) (w k)) b).word i =
      if 16 * j ≤ i ∧ i < 16 * j + n then w (i - 16 * j) else b.word i := by
  induction n with
  | zero => rw [if_neg (by omega)]; rfl
  | succ n ih =>
    rw [List.range_succ, List.foldl_append, List.foldl_cons, List.foldl_nil,
      Block.word_setWord _ (by omega) (hw n), ih (by omega)]
    split_ifs with h1 h2 h3 h4 h5
    · rw [h1, show 16 * j + n - 16 * j = n by omega]
    · omega
    · rfl
    · omega
    · omega
    · rfl

/-- Every dinode in a block fits. -/
theorem getDinode_zero (j : ℕ) : getDinode Block.zero j = Dinode.zero := by
  simp [getDinode, Dinode.ofWords, Dinode.zero]

theorem fits_getDinode (b : Block) (j : ℕ) : (getDinode b j).Fits :=
  Dinode.fits_ofWords fun _ => b.word_lt _

/-- The dinode just stored reads back. -/
theorem getDinode_putDinode_self (b : Block) {j : ℕ} {d : Dinode} (hj : j < 8) (hd : d.Fits) :
    getDinode (putDinode b j d) j = d := by
  unfold getDinode putDinode
  rw [Dinode.ofWords_congr (w := d.wordAt), d.ofWords_wordAt]
  intro k hk
  rw [word_foldl_setWord (by omega) hd.wordAt_lt, if_pos (by omega),
    show 16 * j + k - 16 * j = k by omega]

/-- A store to another slot leaves this one. -/
theorem getDinode_putDinode_of_ne (b : Block) {j j' : ℕ} {d : Dinode} (hj : j < 8)
    (hd : d.Fits) (hne : j' ≠ j) : getDinode (putDinode b j d) j' = getDinode b j' := by
  unfold getDinode putDinode
  refine Dinode.ofWords_congr fun k hk => ?_
  rw [word_foldl_setWord (by omega) hd.wordAt_lt, if_neg (by omega)]

end Xv6
