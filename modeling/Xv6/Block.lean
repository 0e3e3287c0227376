import Mathlib.Data.Nat.Bits
import Mathlib.Data.List.GetD
import Mathlib.Tactic.Ring

/-!
# Disk Blocks

The data of a buffer (`buf.h`) is an array of `BSIZE` bytes, and the file system reads
it in four ways: as raw bytes (file contents), as an array of 32-bit words (indirect
blocks, the log header, the superblock), as an array of bits (the free bitmap), and as
an array of `struct dinode` (inode blocks, which `Xv6.Dinode` builds on the word view).
This module fixes the byte representation and proves that each view is a faithful
array: a store changes exactly the element it addresses.

Words are little-endian, as the casts `(uint*)bp->data` make them on the x86.

## Main results

* `Block.word_setWord`: storing a word changes exactly that word.
* `Block.bit_setBit` and `Block.bit_clearBit`: marking a bit changes exactly that bit.
* `Block.byte_blit`: `memmove` into a block.
-/

namespace Xv6

/-- `BSIZE` (`fs.h`): the block size in bytes. -/
@[simp] def BSIZE : ℕ := 512

/-- `PTRS_PER_BLOCK` (`fs.h`): `BSIZE / sizeof(uint)`. -/
@[simp] def PTRS_PER_BLOCK : ℕ := BSIZE / 4

/-- `BPB` (`fs.h`): bitmap bits per block. -/
@[simp] def BPB : ℕ := BSIZE * 8

/-- The data of one disk block: `uchar data[512]`. -/
@[ext] structure Block where
  data : Fin BSIZE → UInt8

namespace Block

/-- The block whose byte `i` is `f i`. -/
def ofBytes (f : ℕ → UInt8) : Block := ⟨fun i => f i.val⟩

/-- `memset(bp->data, 0, BSIZE)`. -/
def zero : Block := ofBytes fun _ => 0

/-- The byte at offset `i`; offsets past the block read as zero, and no modelled
function uses such an offset without a check of its own. -/
def byte (b : Block) (i : ℕ) : UInt8 :=
  if h : i < BSIZE then b.data ⟨i, h⟩ else 0

variable {i k r k' bi bj n off : ℕ}

theorem byte_ofBytes (f : ℕ → UInt8) (h : i < 512) : (ofBytes f).byte i = f i := by
  have h' : i < BSIZE := h
  simp only [byte, ofBytes, dif_pos h']

@[simp] theorem byte_zero (i : ℕ) : zero.byte i = 0 := by
  unfold byte zero ofBytes
  split <;> rfl

theorem byte_of_le (b : Block) (h : 512 ≤ i) : b.byte i = 0 := by
  have h' : ¬ i < BSIZE := by simpa using h
  simp only [byte, dif_neg h']

/-- Blocks with the same bytes are equal. -/
theorem ext_byte {b c : Block} (h : ∀ i < 512, b.byte i = c.byte i) : b = c := by
  refine Block.ext (funext fun i => ?_)
  have hi := h i.val i.isLt
  simp only [byte, i.isLt, dif_pos] at hi
  exact hi

/-! ### Words -/

/-- The little-endian word at index `k`: `((uint*)bp->data)[k]`. -/
def word (b : Block) (k : ℕ) : ℕ :=
  (b.byte (4 * k)).toNat + 256 * (b.byte (4 * k + 1)).toNat +
    65536 * (b.byte (4 * k + 2)).toNat + 16777216 * (b.byte (4 * k + 3)).toNat

/-- Store the low 32 bits of `w` as the word at index `k`. -/
def setWord (b : Block) (k w : ℕ) : Block :=
  ofBytes fun i => if i / 4 = k then UInt8.ofNat (w / 256 ^ (i % 4)) else b.byte i

/-- A word has 32 bits. -/
theorem word_lt (b : Block) (k : ℕ) : b.word k < 2 ^ 32 := by
  have h0 := (b.byte (4 * k)).toNat_lt
  have h1 := (b.byte (4 * k + 1)).toNat_lt
  have h2 := (b.byte (4 * k + 2)).toNat_lt
  have h3 := (b.byte (4 * k + 3)).toNat_lt
  unfold word
  omega

@[simp] theorem word_zero (k : ℕ) : zero.word k = 0 := by
  simp [word]

/-- The bytes of the other words stay. -/
theorem byte_setWord_of_ne (b : Block) (w : ℕ) (h : i / 4 ≠ k) :
    (b.setWord k w).byte i = b.byte i := by
  by_cases hi : i < 512
  · rw [setWord, byte_ofBytes _ hi, if_neg h]
  · rw [byte_of_le _ (by omega), byte_of_le _ (by omega)]

theorem byte_setWord_self (b : Block) (w : ℕ) (hk : k < 128) (hr : r < 4) :
    (b.setWord k w).byte (4 * k + r) = UInt8.ofNat (w / 256 ^ r) := by
  rw [setWord, byte_ofBytes _ (by omega), if_pos (by omega),
    show (4 * k + r) % 4 = r by omega]

/-- The word just stored reads back, modulo the word size. -/
theorem word_setWord_self (b : Block) (w : ℕ) (hk : k < 128) :
    (b.setWord k w).word k = w % 2 ^ 32 := by
  have h0 := byte_setWord_self b w hk (show 0 < 4 by omega)
  have h1 := byte_setWord_self b w hk (show 1 < 4 by omega)
  have h2 := byte_setWord_self b w hk (show 2 < 4 by omega)
  have h3 := byte_setWord_self b w hk (show 3 < 4 by omega)
  rw [Nat.add_zero] at h0
  simp only [word, h0, h1, h2, h3, UInt8.toNat_ofNat']
  omega

/-- A store to another word leaves this one. -/
theorem word_setWord_of_ne (b : Block) (w : ℕ) (h : k' ≠ k) :
    (b.setWord k w).word k' = b.word k' := by
  simp only [word, byte_setWord_of_ne b w (show 4 * k' / 4 ≠ k by omega),
    byte_setWord_of_ne b w (show (4 * k' + 1) / 4 ≠ k by omega),
    byte_setWord_of_ne b w (show (4 * k' + 2) / 4 ≠ k by omega),
    byte_setWord_of_ne b w (show (4 * k' + 3) / 4 ≠ k by omega)]

/-- **A word store is an array update.** -/
theorem word_setWord (b : Block) {w : ℕ} (hk : k < 128) (hw : w < 2 ^ 32) :
    (b.setWord k w).word k' = if k' = k then w else b.word k' := by
  by_cases h : k' = k
  · subst h
    rw [if_pos rfl, word_setWord_self b w hk, Nat.mod_eq_of_lt hw]
  · rw [if_neg h, word_setWord_of_ne b w h]

/-- There is no word past the end of the block. -/
theorem setWord_of_le (b : Block) (w : ℕ) (h : 128 ≤ k) : b.setWord k w = b :=
  ext_byte fun _ hi => byte_setWord_of_ne b w (by omega)

/-- Storing the word that is there changes nothing. -/
theorem setWord_word (b : Block) (k : ℕ) : b.setWord k (b.word k) = b := by
  refine ext_byte fun i hi => ?_
  by_cases hk : i / 4 = k
  · have h0 := (b.byte (4 * k)).toNat_lt
    have h1 := (b.byte (4 * k + 1)).toNat_lt
    have h2 := (b.byte (4 * k + 2)).toNat_lt
    have h3 := (b.byte (4 * k + 3)).toNat_lt
    have hr : i % 4 = 0 ∨ i % 4 = 1 ∨ i % 4 = 2 ∨ i % 4 = 3 := by omega
    rw [setWord, byte_ofBytes _ hi, if_pos hk, ← UInt8.toNat_inj, UInt8.toNat_ofNat', word]
    rcases hr with hr | hr | hr | hr <;> rw [hr]
    · rw [show i = 4 * k by omega]
      omega
    · rw [show i = 4 * k + 1 by omega]
      omega
    · rw [show i = 4 * k + 2 by omega]
      omega
    · rw [show i = 4 * k + 3 by omega]
      omega
  · exact byte_setWord_of_ne b _ hk

/-! ### Bits -/

/-- The mask `m = 1 << (bi % 8)` of `balloc` and `bfree`. -/
def mask (bi : ℕ) : UInt8 := 1 <<< UInt8.ofNat (bi % 8)

/-- The bit at index `bi`: `(bp->data[bi/8] & m) != 0`. -/
def bit (b : Block) (bi : ℕ) : Bool := b.byte (bi / 8) &&& mask bi != 0

/-- `bp->data[bi/8] |= m`. -/
def setBit (b : Block) (bi : ℕ) : Block :=
  ofBytes fun i => if i = bi / 8 then b.byte i ||| mask bi else b.byte i

/-- `bp->data[bi/8] &= ~m`. -/
def clearBit (b : Block) (bi : ℕ) : Block :=
  ofBytes fun i => if i = bi / 8 then b.byte i &&& ~~~ mask bi else b.byte i

theorem mask_toBitVec (bi : ℕ) : (mask bi).toBitVec = BitVec.twoPow 8 (bi % 8) := by
  have h : ∀ r < 8, ((1 : UInt8) <<< UInt8.ofNat r).toBitVec = BitVec.twoPow 8 r := by
    decide
  exact h _ (Nat.mod_lt _ (by omega))

/-- The test of `balloc` and `bfree` reads one bit of one byte. -/
theorem bit_eq_getLsbD (b : Block) (bi : ℕ) :
    b.bit bi = (b.byte (bi / 8)).toBitVec.getLsbD (bi % 8) := by
  have hlt : bi % 8 < 8 := Nat.mod_lt _ (by omega)
  have hiff : b.byte (bi / 8) &&& mask bi = 0 ↔
      (b.byte (bi / 8)).toBitVec.getLsbD (bi % 8) = false := by
    rw [← UInt8.toBitVec_inj, UInt8.toBitVec_and, mask_toBitVec, BitVec.and_twoPow]
    cases hg : (b.byte (bi / 8)).toBitVec.getLsbD (bi % 8) with
    | false => simp
    | true =>
      simp only [if_true, Bool.true_eq_false, iff_false]
      intro h0
      have hb := congrArg (fun v : BitVec 8 => v.getLsbD (bi % 8)) h0
      simp [hlt] at hb
  unfold bit
  cases hg : (b.byte (bi / 8)).toBitVec.getLsbD (bi % 8) with
  | false => simp [hiff.mpr hg]
  | true =>
    have hne : b.byte (bi / 8) &&& mask bi ≠ 0 := fun h0 => by
      rw [hiff.mp h0] at hg
      cases hg
    simp [hne]

theorem bit_zero (bi : ℕ) : zero.bit bi = false := by
  rw [bit_eq_getLsbD, byte_zero]
  simp

/-- **Marking a bit is an array update.** -/
theorem bit_setBit (b : Block) (hi : bi < 4096) (hj : bj < 4096) :
    (b.setBit bi).bit bj = if bj = bi then true else b.bit bj := by
  rw [bit_eq_getLsbD, bit_eq_getLsbD, setBit, byte_ofBytes _ (by omega)]
  by_cases hd : bj / 8 = bi / 8
  · rw [if_pos hd, UInt8.toBitVec_or, mask_toBitVec, BitVec.getLsbD_or, BitVec.getLsbD_twoPow]
    by_cases hm : bj = bi
    · subst hm
      simp [Nat.mod_lt bj (show 0 < 8 by omega)]
    · rw [if_neg hm]
      have hne : bi % 8 ≠ bj % 8 := by omega
      simp [hne]
  · rw [if_neg hd, if_neg (by rintro rfl; exact hd rfl)]

/-- **Clearing a bit is an array update.** -/
theorem bit_clearBit (b : Block) (hi : bi < 4096) (hj : bj < 4096) :
    (b.clearBit bi).bit bj = if bj = bi then false else b.bit bj := by
  rw [bit_eq_getLsbD, bit_eq_getLsbD, clearBit, byte_ofBytes _ (by omega)]
  have hlt : bj % 8 < 8 := Nat.mod_lt _ (by omega)
  by_cases hd : bj / 8 = bi / 8
  · rw [if_pos hd, UInt8.toBitVec_and, UInt8.toBitVec_not, mask_toBitVec, BitVec.getLsbD_and,
      BitVec.getLsbD_not, BitVec.getLsbD_twoPow]
    by_cases hm : bj = bi
    · subst hm
      simp [hlt]
    · rw [if_neg hm]
      have hne : bi % 8 ≠ bj % 8 := by omega
      simp [hne, hlt]
  · rw [if_neg hd, if_neg (by rintro rfl; exact hd rfl)]

/-- The bitmap block whose first `n` bits are set, as `mkfs` makes it. -/
def usedPrefix (n : ℕ) : Block := (List.range n).foldl setBit zero

/-- The bits that `balloc` of `mkfs` sets are those below `n`. -/
theorem bit_usedPrefix (hn : n ≤ 4096) (hbi : bi < 4096) :
    (usedPrefix n).bit bi = decide (bi < n) := by
  induction n with
  | zero => simp [usedPrefix, bit_zero]
  | succ n ih =>
    rw [usedPrefix] at ih ⊢
    rw [List.range_succ, List.foldl_append, List.foldl_cons, List.foldl_nil,
      bit_setBit _ (by omega) hbi, ih (by omega)]
    by_cases h : bi = n
    · simp [h]
    · simp only [h, if_false, decide_eq_decide]
      omega

theorem getLsbD_byte_usedPrefix (hn : n ≤ 4096) (hi : i < 512) (hr : r < 8) :
    ((usedPrefix n).byte i).toBitVec.getLsbD r = decide (8 * i + r < n) := by
  have h := bit_usedPrefix hn (show 8 * i + r < 4096 by omega)
  rwa [bit_eq_getLsbD, show (8 * i + r) / 8 = i by omega, show (8 * i + r) % 8 = r by omega] at h

/-- A byte past the used prefix. -/
theorem byte_usedPrefix_of_le (hn : n ≤ 4096) (h : n ≤ 8 * i) : (usedPrefix n).byte i = 0 := by
  rcases Nat.lt_or_ge i 512 with hi | hi
  · refine UInt8.eq_of_toBitVec_eq (BitVec.eq_of_getLsbD_eq fun r hr => ?_)
    rw [getLsbD_byte_usedPrefix hn hi hr, decide_eq_false (by omega)]
    simp
  · exact byte_of_le _ hi

/-- A byte inside the used prefix. -/
theorem byte_usedPrefix_of_ge (hn : n ≤ 4096) (h : 8 * (i + 1) ≤ n) :
    (usedPrefix n).byte i = 255 := by
  refine UInt8.eq_of_toBitVec_eq (BitVec.eq_of_getLsbD_eq fun r hr => ?_)
  rw [getLsbD_byte_usedPrefix hn (by omega) hr, decide_eq_true (by omega)]
  have hall : ∀ r < 8, (255 : UInt8).toBitVec.getLsbD r = true := by decide
  exact (hall r hr).symm

/-- The words behind the bits that are set. -/
theorem word_usedPrefix_of_le (hn : n ≤ 4096) (h : n ≤ 32 * k) : (usedPrefix n).word k = 0 := by
  simp only [word, byte_usedPrefix_of_le hn (show n ≤ 8 * (4 * k) by omega),
    byte_usedPrefix_of_le hn (show n ≤ 8 * (4 * k + 1) by omega),
    byte_usedPrefix_of_le hn (show n ≤ 8 * (4 * k + 2) by omega),
    byte_usedPrefix_of_le hn (show n ≤ 8 * (4 * k + 3) by omega)]
  rfl

/-- The words all of whose bits are set. -/
theorem word_usedPrefix_of_ge (hn : n ≤ 4096) (h : 32 * (k + 1) ≤ n) :
    (usedPrefix n).word k = 2 ^ 32 - 1 := by
  simp only [word, byte_usedPrefix_of_ge hn (show 8 * (4 * k + 1) ≤ n by omega),
    byte_usedPrefix_of_ge hn (show 8 * (4 * k + 1 + 1) ≤ n by omega),
    byte_usedPrefix_of_ge hn (show 8 * (4 * k + 2 + 1) ≤ n by omega),
    byte_usedPrefix_of_ge hn (show 8 * (4 * k + 3 + 1) ≤ n by omega)]
  rfl

/-- The words with some bit set. -/
theorem word_usedPrefix_ne_zero (hn : n ≤ 4096) (h : 32 * k < n) : (usedPrefix n).word k ≠ 0 := by
  intro h0
  have hbyte : (usedPrefix n).byte (4 * k) = 0 := by
    refine UInt8.toNat_inj.mp ?_
    rw [word] at h0
    simp only [UInt8.toNat_zero]
    omega
  have := getLsbD_byte_usedPrefix hn (show 4 * k < 512 by omega) (show 0 < 8 by omega)
  rw [hbyte, decide_eq_true (by omega)] at this
  simp at this

/-! ### Byte ranges -/

/-- `memmove(bp->data + off, src, src.length)`. -/
def blit (b : Block) (off : ℕ) (src : List UInt8) : Block :=
  ofBytes fun i => if off ≤ i then src.getD (i - off) (b.byte i) else b.byte i

/-- `memmove(dst, bp->data + off, n)`: the bytes copied out. -/
def slice (b : Block) (off n : ℕ) : List UInt8 :=
  (List.range n).map fun i => b.byte (off + i)

@[simp] theorem length_slice (b : Block) (off n : ℕ) : (b.slice off n).length = n := by
  simp [slice]

/-- A byte after a copy into the block: the source inside the range, the old byte
outside it. -/
theorem byte_blit (b : Block) (off : ℕ) (src : List UInt8) (hi : i < 512) :
    (b.blit off src).byte i = if off ≤ i then src.getD (i - off) (b.byte i) else b.byte i := by
  rw [blit, byte_ofBytes _ hi]

/-- The bytes before the copy stay. -/
theorem byte_blit_of_lt (b : Block) (src : List UInt8) (h : i < off) :
    (b.blit off src).byte i = b.byte i := by
  by_cases hi : i < 512
  · rw [byte_blit b off src hi, if_neg (by omega)]
  · rw [byte_of_le _ (by omega), byte_of_le _ (by omega)]

/-- The bytes behind the copy stay. -/
theorem byte_blit_of_ge (b : Block) (src : List UInt8) (h : off + src.length ≤ i) :
    (b.blit off src).byte i = b.byte i := by
  by_cases hi : i < 512
  · rw [byte_blit b off src hi, if_pos (by omega), List.getD_eq_default _ _ (by omega)]
  · rw [byte_of_le _ (by omega), byte_of_le _ (by omega)]

theorem byte_blit_of_mem (b : Block) {j : ℕ} {src : List UInt8} (hj : j < src.length)
    (hi : off + j < 512) : (b.blit off src).byte (off + j) = src[j] := by
  rw [byte_blit b off src hi, if_pos (by omega), show off + j - off = j by omega,
    List.getD_eq_getElem _ _ hj]

end Block

end Xv6
