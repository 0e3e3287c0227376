import Xv6.Console
import Xv6.PageTable
import Xv6.Pipe
import Xv6.SmallDisk

/-!
# The Buffer of `read`

What `sys_read` stores, and where. The length `n` is an `int` for `sys_read`, `piperead` and
`consoleread`; `argptr` adds it to the pointer as an unsigned word, and `readi` takes it as an
unsigned count, which it clips to the size of the file. For a negative `n` the three readings do not
agree: `argptr` accepts a pointer of at least `-n`, and `readi` stores all bytes up to the end of
the file.

A call is modelled by the stores it makes, in order, and by what it returns; `none` is a panic. What
it finds behind the file is given: the blocks of an inode (`none` for a block for which `bmap` or
`bread` panics), the characters of the console, the pipe after the wait for a byte.

## Main results

* `readi_eq_fs`: the stores of `readi` are the bytes that the file system model returns.
* `read_stays_in_buffer`: **a read stays in the buffer unless it reads a file with a negative
  length** that `argptr` accepts, before its end.
-/

open WriteSeq

namespace Xv6.ReadBuffer

open Vm (KERNBASE)

/-- A machine word. -/
abbrev Word := BitVec 32

/-- The size of a process, `proc->sz`. -/
structure Proc where
  sz : ℕ
  sz_lt : sz < KERNBASE

/-- `argptr(n, pp, size)` when the argument word is `i`. -/
def argptr (proc : Proc) (i size : Word) : Option Word :=
  if proc.sz ≤ i.toNat ∨ proc.sz < (i + size).toNat then none else some i

/-- What a function stores and what it returns. -/
structure Outcome (α : Type) where
  stores : List (Word × UInt8)
  ret : Option α

/-- `memmove(dst, src, n)` from a buffer with the bytes `src`. -/
def memmove (dst : Word) : List UInt8 → List (Word × UInt8)
  | [] => []
  | b :: src => (dst, b) :: memmove (dst + 1) src

/-! ### The model -/

/-- An inode: the fields that `readi` looks at, its blocks, and the characters that the rounds of
`consoleread` find; a round in which the process is killed finds `none`. -/
structure Node where
  type : BitVec 16
  major : BitVec 16
  size : Word
  block : ℕ → Option Block
  console : ℕ → Option UInt8

/-- The loop of `readi`, with `n` bytes to go. -/
def readiLoop (block : ℕ → Option Block) : ℕ → Word → ℕ → ℕ → Outcome Unit
  | 0, _, _, _ => ⟨[], some ()⟩
  | fuel + 1, dst, off, n =>
    if n = 0 then ⟨[], some ()⟩
    else
      match block (off / BSIZE) with
      | none => ⟨[], none⟩
      | some bp =>
        let m := min n (BSIZE - off % BSIZE)
        let rest := readiLoop block fuel (dst + BitVec.ofNat 32 m) (off + m) (n - m)
        ⟨memmove dst (bp.slice (off % BSIZE) m) ++ rest.stores, rest.ret⟩

/-- The loop of `consoleread`, with `n` characters to go, in round `k`: what is left of `n`, or
`none` if the process is killed. -/
def consoleLoop (console : ℕ → Option UInt8) : ℕ → ℕ → Word → List (Word × UInt8) × Option ℕ
  | 0, _, _ => ([], some 0)
  | n + 1, k, dst =>
    match console k with
    | none => ([], none)
    | some c =>
      if c = Console.ctrl 'D' then ([], some (n + 1))
      else if c = Console.newline then ([(dst, c)], some n)
      else
        let rest := consoleLoop console n (k + 1) (dst + 1)
        ((dst, c) :: rest.1, rest.2)

/-- `consoleread(ip, dst, n)`. -/
def consoleread (console : ℕ → Option UInt8) (dst n : Word) : Outcome ℤ :=
  let r := consoleLoop console n.toInt.toNat 0 dst
  ⟨r.1, some <| match r.2 with
    | none => -1
    | some m => n.toInt.toNat - m⟩

/-- The count of `readi`, clipped to the end of the file. -/
def clip (size off n : Word) : Word := if size < off + n then size - off else n

/-- `readi(ip, dst, off, n)`. Of the devices only the console can be read. -/
def readi (ip : Node) (dst off n : Word) : Outcome ℤ :=
  if ip.type = T_DEV then
    if ip.major = CONSOLE then consoleread ip.console dst n else ⟨[], some (-1)⟩
  else if ip.size < off ∨ off + n < off then ⟨[], some (-1)⟩
  else
    let n := clip ip.size off n
    let r := readiLoop ip.block n.toNat dst off.toNat n.toNat
    ⟨r.stores, r.ret.map fun _ => n.toInt⟩

/-- The second loop of `piperead`, with `n` bytes to go. -/
def pipeCopy : ℕ → Pipes.Pipe → Word → List (Word × UInt8)
  | 0, _, _ => []
  | n + 1, p, addr =>
    if p.isEmpty then [] else (addr, p.front) :: pipeCopy n p.advance (addr + 1)

/-- `piperead(p, addr, n)`: `p` is the pipe after the first loop, `none` if the process is killed
there. -/
def piperead (p : Option Pipes.Pipe) (addr n : Word) : Outcome ℤ :=
  match p with
  | none => ⟨[], some (-1)⟩
  | some p =>
    let stores := pipeCopy n.toInt.toNat p addr
    ⟨stores, some stores.length⟩

/-- What is behind an open file: `FD_NONE`, `FD_PIPE` or `FD_INODE`. -/
inductive Source
  | none
  | pipe (p : Option Pipes.Pipe)
  | inode (ip : Node)

/-- `struct file`. -/
structure OpenFile where
  readable : Bool
  off : Word
  source : Source

/-- `fileread(f, addr, n)`, and the file afterwards. -/
def fileread (f : OpenFile) (addr n : Word) : Outcome ℤ × OpenFile :=
  if f.readable = false then (⟨[], some (-1)⟩, f)
  else
    match f.source with
    | .pipe p => (piperead p addr n, f)
    | .inode ip =>
      let r := readi ip addr f.off n
      let k := r.ret.getD 0
      (r, if 0 < k then { f with off := f.off + BitVec.ofInt 32 k } else f)
    | .none => (⟨[], none⟩, f)

/-- `sys_read()`: the open file of the descriptor, `none` if `argfd` fails, and the argument words,
`none` if they cannot be fetched. -/
def sysRead (proc : Proc) (f : Option OpenFile) (p n : Option Word) :
    Outcome ℤ × Option OpenFile :=
  match f, n, p with
  | some f, some n, some i =>
    match argptr proc i n with
    | some p =>
      let r := fileread f p n
      (r.1, some r.2)
    | none => (⟨[], some (-1)⟩, some f)
  | f, _, _ => (⟨[], some (-1)⟩, f)

/-! ### Stores -/

section Stores

variable {dst a : Word} {src : List UInt8}

/-- Two copies one after the other. -/
theorem memmove_append (dst : Word) (src src' : List UInt8) :
    memmove dst (src ++ src') =
      memmove dst src ++ memmove (dst + BitVec.ofNat 32 src.length) src' := by
  induction src generalizing dst with
  | nil => simp [memmove]
  | cons b src ih =>
    have hdst : dst + 1 + BitVec.ofNat 32 src.length = dst + BitVec.ofNat 32 (src.length + 1) := by
      rw [BitVec.add_assoc, Nat.add_comm src.length, BitVec.ofNat_add]
      rfl
    simp only [List.cons_append, memmove, ih, List.length_cons, hdst]

/-- The addresses of a copy that does not run over the end of the address space. -/
theorem memmove_range (hend : dst.toNat + src.length ≤ 2 ^ 32) {w : Word × UInt8}
    (hw : w ∈ memmove dst src) :
    dst.toNat ≤ w.1.toNat ∧ w.1.toNat < dst.toNat + src.length := by
  induction src generalizing dst with
  | nil => cases hw
  | cons b src ih =>
    rw [List.length_cons] at hend ⊢
    rcases List.mem_cons.mp hw with rfl | hw
    · exact ⟨Nat.le_refl _, by dsimp only; omega⟩
    · have hlen : 0 < src.length := by
        cases src with
        | nil => cases hw
        | cons => exact Nat.succ_pos _
      have hnext : (dst + 1).toNat = dst.toNat + 1 := by
        rw [BitVec.toNat_add]
        exact Nat.mod_eq_of_lt (by change dst.toNat + 1 < _; omega)
      have := ih (by omega) hw
      omega

end Stores

/-! ### Where the reads store -/

section Reads

variable {dst off n size : Word}

/-- **The loop of `readi`** stores a piece of at most `n` bytes, which is empty only if `n` is 0 or
the first block cannot be read. -/
theorem readiLoop_stores (block : ℕ → Option Block) (fuel : ℕ) (dst : Word) (off n : ℕ)
    (hfuel : n ≤ fuel) :
    ∃ src, (readiLoop block fuel dst off n).stores = memmove dst src ∧ src.length ≤ n ∧
      (0 < src.length ↔ 0 < n ∧ block (off / BSIZE) ≠ none) := by
  induction fuel generalizing dst off n with
  | zero =>
    obtain rfl : n = 0 := by omega
    exact ⟨[], rfl, Nat.le_refl _, by simp⟩
  | succ fuel ih =>
    by_cases h0 : n = 0
    · subst h0
      exact ⟨[], by rw [readiLoop, if_pos rfl]; rfl, Nat.le_refl _, by simp⟩
    · rw [readiLoop, if_neg h0]
      cases hblock : block (off / BSIZE) with
      | none => exact ⟨[], rfl, Nat.zero_le _, by simp⟩
      | some bp =>
        have hm := round_bounds off h0
        obtain ⟨src, hsrc, hlen, -⟩ :=
          ih (dst + BitVec.ofNat 32 (min n (BSIZE - off % BSIZE)))
            (off + min n (BSIZE - off % BSIZE)) (n - min n (BSIZE - off % BSIZE)) (by omega)
        refine ⟨bp.slice (off % BSIZE) (min n (BSIZE - off % BSIZE)) ++ src, ?_, ?_, ?_⟩
        · rw [memmove_append, Block.length_slice]
          simp only [hsrc]
        · rw [List.length_append, Block.length_slice]
          omega
        · rw [List.length_append, Block.length_slice]
          exact ⟨fun _ => ⟨Nat.pos_of_ne_zero h0, Option.some_ne_none bp⟩, fun _ => by omega⟩

/-- What `consoleread` stores is one copy. -/
theorem consoleLoop_stores (console : ℕ → Option UInt8) (n k : ℕ) (dst : Word) :
    ∃ src, (consoleLoop console n k dst).1 = memmove dst src ∧ src.length ≤ n := by
  induction n generalizing k dst with
  | zero => exact ⟨[], rfl, Nat.le_refl _⟩
  | succ n ih =>
    rw [consoleLoop]
    cases console k with
    | none => exact ⟨[], rfl, Nat.zero_le _⟩
    | some c =>
      dsimp only
      split_ifs
      · exact ⟨[], rfl, Nat.zero_le _⟩
      · exact ⟨[c], rfl, Nat.succ_le_succ (Nat.zero_le n)⟩
      · obtain ⟨src, hsrc, hlen⟩ := ih (k + 1) (dst + 1)
        exact ⟨c :: src, by rw [hsrc]; rfl, Nat.succ_le_succ hlen⟩

/-- What `piperead` stores is one copy. -/
theorem pipeCopy_stores (n : ℕ) (p : Pipes.Pipe) (addr : Word) :
    ∃ src, pipeCopy n p addr = memmove addr src ∧ src.length ≤ n := by
  induction n generalizing p addr with
  | zero => exact ⟨[], rfl, Nat.le_refl _⟩
  | succ n ih =>
    rw [pipeCopy]
    split_ifs
    · exact ⟨[], rfl, Nat.zero_le _⟩
    · obtain ⟨src, hsrc, hlen⟩ := ih p.advance (addr + 1)
      exact ⟨p.front :: src, by rw [hsrc]; rfl, Nat.succ_le_succ hlen⟩

/-- The clipped count is at most `n`, and 0 only at the end of the file or for `n = 0`. -/
theorem clip_spec (hoff : off ≤ size) (hsum : off ≤ off + n) :
    (clip size off n).toNat ≤ n.toNat ∧ (0 < (clip size off n).toNat ↔ off < size ∧ n ≠ 0) := by
  have hoff' : off.toNat ≤ size.toNat := hoff
  have hsum' : off.toNat ≤ (off + n).toNat := hsum
  rw [BitVec.toNat_add] at hsum'
  have hne : n ≠ 0 ↔ 0 < n.toNat := by
    rw [Nat.pos_iff_ne_zero, Ne, Ne, ← BitVec.toNat_inj]
    rfl
  have hlt : off < size ↔ off.toNat < size.toNat := Iff.rfl
  rw [hne, hlt]
  by_cases hclip : size < off + n
  · have hclip' : size.toNat < (off + n).toNat := hclip
    rw [BitVec.toNat_add] at hclip'
    rw [clip, if_pos hclip, BitVec.toNat_sub_of_le hoff]
    omega
  · have hclip' : (off + n).toNat ≤ size.toNat := Nat.not_lt.mp hclip
    rw [BitVec.toNat_add] at hclip'
    rw [clip, if_neg hclip]
    omega

/-- `readi` on a file copies at least one byte: the offset is before the end, the end of the range
does not wrap around, and the first block can be read. -/
def Node.Copies (ip : Node) (off n : Word) : Prop :=
  off < ip.size ∧ off ≤ off + n ∧ n ≠ 0 ∧ ip.block (off.toNat / BSIZE) ≠ none

/-- **`readi` on a file** stores a piece of at most `n` bytes, for `n` an unsigned number. -/
theorem readi_stores {ip : Node} (hdev : ip.type ≠ T_DEV) (dst off n : Word) :
    ∃ src, (readi ip dst off n).stores = memmove dst src ∧ src.length ≤ n.toNat ∧
      (0 < src.length ↔ ip.Copies off n) := by
  rw [readi, if_neg hdev]
  by_cases hrange : ip.size < off ∨ off + n < off
  · rw [if_pos hrange]
    refine ⟨[], rfl, Nat.zero_le _, fun h => absurd h (Nat.lt_irrefl 0), fun h => ?_⟩
    rcases hrange with hr | hr
    · exact absurd h.1 (BitVec.not_lt.mpr (BitVec.le_of_lt hr))
    · exact absurd h.2.1 (BitVec.not_le.mpr hr)
  · rw [if_neg hrange]
    rw [not_or, BitVec.not_lt, BitVec.not_lt] at hrange
    obtain ⟨hle, hpos⟩ := clip_spec hrange.1 hrange.2
    obtain ⟨src, hsrc, hlen, hsome⟩ :=
      readiLoop_stores ip.block (clip ip.size off n).toNat dst off.toNat _ (Nat.le_refl _)
    refine ⟨src, hsrc, hlen.trans hle, ?_⟩
    rw [hsome, hpos, Node.Copies, and_assoc]
    exact ⟨fun ⟨h1, h2, h3⟩ => ⟨h1, hrange.2, h2, h3⟩, fun ⟨h1, _, h2, h3⟩ => ⟨h1, h2, h3⟩⟩

end Reads

/-! ### The file system underneath -/

section Files

variable {md : Mode} {pr : ℕ} {s : Sys} {ip : ℕ}

/-- The inode of a cache entry, with the blocks that `bmap` leads to. -/
def nodeOf (s : Sys) (ip : ℕ) : Node where
  type := (s.icache ip).din.type
  major := (s.icache ip).din.major
  size := BitVec.ofNat 32 (s.icache ip).din.size
  block bn := some (s.disk (dataPtr s.disk (s.icache ip).din bn))
  console _ := none

/-- What the loop of `readi` stores is one copy of the bytes of the file. -/
theorem readiLoop_eq_fileSlice (d : Disk) (a : Dinode) {fuel n : ℕ} (hfuel : n ≤ fuel) (dst : Word)
    (off : ℕ) : readiLoop (fun bn => some (d (dataPtr d a bn))) fuel dst off n =
      ⟨memmove dst (fileSlice d a off n), some ()⟩ := by
  induction fuel generalizing dst off n with
  | zero =>
    obtain rfl : n = 0 := by omega
    rfl
  | succ fuel ih =>
    rw [readiLoop]
    split_ifs with h0
    · subst h0
      rfl
    · have hm := round_bounds off h0
      dsimp only
      rw [ih (by omega), slice_eq_fileSlice d a hm.2.2]
      nth_rewrite 2 [← length_fileSlice d a off (min n (BSIZE - off % BSIZE))]
      rw [← memmove_append, fileSlice_append, Nat.add_sub_cancel' hm.1]

/-- **The bytes that `readi` stores are those of the file system model**: the same bytes, from `dst`
on, and the same answer, for a cached inode whose blocks are all mapped. -/
theorem readi_eq_fs (htype : (s.icache ip).din.type ≠ T_DEV)
    (hmap : ∀ bn, bn * BSIZE < (s.icache ip).din.size →
      bn < MAXFILE ∧ dataPtr s.disk (s.icache ip).din bn ≠ 0) (dst off n : Word) :
    ∃ r, Prog.run (exec md pr) (Xv6.readi ip off.toNat n.toNat) s = .ok (r, s) ∧
      readi (nodeOf s ip) dst off n = ⟨memmove dst (r.getD []), some (match r with
        | none => -1
        | some bs => bs.length)⟩ := by
  have htype' : (nodeOf s ip).type ≠ T_DEV := htype
  have hblock : ∀ k < (s.icache ip).din.size, k / 512 < MAXFILE ∧
      dataPtr s.disk (s.icache ip).din (k / 512) ≠ 0 := fun k hk =>
    hmap (k / 512) (by simp only [BSIZE]; omega)
  have hsize : (s.icache ip).din.size ≤ 8524800 := by
    by_contra hlt
    have := (hblock 8524800 (by omega)).1
    rw [maxfile_eq] at this
    omega
  have hnode : (nodeOf s ip).size.toNat = (s.icache ip).din.size := by
    rw [nodeOf, BitVec.toNat_ofNat]
    omega
  have hrefuse : ((nodeOf s ip).size < off ∨ off + n < off) ↔
      ((s.icache ip).din.size < off.toNat ∨ (off.toNat + n.toNat) % 2 ^ 32 < off.toNat) := by
    rw [BitVec.lt_def, BitVec.lt_def, hnode, BitVec.toNat_add]
  by_cases hrange : (s.icache ip).din.size < off.toNat ∨ (off.toNat + n.toNat) % 2 ^ 32 < off.toNat
  · refine ⟨none, ?_, ?_⟩
    · simp only [Xv6.readi, Prog.run_bind, run_getInode, Prog.ok_bind, if_neg htype, if_pos hrange]
      rfl
    · rw [readi, if_neg htype', if_pos (hrefuse.mpr hrange)]
      rfl
  · -- the same count, and then the two loops
    have hcount : (clip (nodeOf s ip).size off n).toNat =
        if (s.icache ip).din.size < (off.toNat + n.toNat) % 2 ^ 32 then
          (s.icache ip).din.size - off.toNat else n.toNat := by
      have hlt : (nodeOf s ip).size < off + n ↔
          (s.icache ip).din.size < (off.toNat + n.toNat) % 2 ^ 32 := by
        rw [BitVec.lt_def, hnode, BitVec.toNat_add]
      rw [clip, apply_ite BitVec.toNat, BitVec.toNat_sub_of_le, hnode]
      · simp only [hlt]
      · rw [BitVec.le_def, hnode]
        omega
    have hend : off.toNat + (clip (nodeOf s ip).size off n).toNat ≤ (s.icache ip).din.size := by
      have := off.isLt
      have := n.isLt
      rw [hcount]
      split_ifs <;> omega
    refine ⟨some (fileSlice s.disk (s.icache ip).din off.toNat
      (clip (nodeOf s ip).size off n).toNat), ?_, ?_⟩
    · simp only [Xv6.readi, Prog.run_bind, run_getInode, Prog.ok_bind, if_neg htype, if_neg hrange,
        ← hcount]
      rw [run_readiLoop (Nat.le_refl _) fun k _ hk => hblock k (by omega)]
      rfl
    · have hint : (clip (nodeOf s ip).size off n).toInt =
          (clip (nodeOf s ip).size off n).toNat := by
        rw [BitVec.toInt_eq_toNat_of_lt]
        omega
      rw [readi, if_neg htype', if_neg (hrefuse.not.mpr hrange)]
      simp only [nodeOf] at hint ⊢
      rw [readiLoop_eq_fileSlice _ _ (Nat.le_refl _), hint]
      simp

/-- A read across the end of a block. -/
theorem readi_eq_fs_block : ∃ s r, (s.icache 0).din.size = 1024 ∧
    Prog.run (exec .real 0) (Xv6.readi 0 500 100) s = .ok (r, s) ∧
      (readi (nodeOf s 0) 64 500 100).stores = memmove 64 (r.getD []) := by
  have hmap : ∀ bn, bn * BSIZE < ((smallDisk false 2 0).icache 0).din.size → bn < MAXFILE ∧
      dataPtr (smallDisk false 2 0).disk ((smallDisk false 2 0).icache 0).din bn ≠ 0 := by
    intro bn hbn
    have hsize : ((smallDisk false 2 0).icache 0).din.size = 1024 := rfl
    have hlt : bn < 2 := by
      simp only [hsize, BSIZE] at hbn
      omega
    interval_cases bn <;> decide +kernel
  obtain ⟨r, hr, he⟩ := readi_eq_fs (by decide) hmap 64 500 100
  exact ⟨_, r, rfl, hr, by rw [he]⟩

end Files

/-! ### The buffer -/

/-- The byte at `a` is in the buffer of `n` bytes at `p`, and in the memory of the process. -/
def InBuffer (proc : Proc) (p n a : Word) : Prop :=
  p.toNat ≤ a.toNat ∧ (a.toNat : ℤ) < p.toNat + n.toInt ∧ a.toNat < proc.sz

/-- The file is read with a negative length that `argptr` accepts, and `readi` copies something. -/
def ReadsNegative (proc : Proc) (f : OpenFile) (p n : Word) : Prop :=
  n.toInt < 0 ∧ argptr proc p n = some p ∧ f.readable = true ∧
    ∃ ip, f.source = .inode ip ∧ ip.type ≠ T_DEV ∧ ip.Copies f.off n

section Buffer

variable {proc : Proc} {f : OpenFile} {p n a : Word}

/-- What `argptr` checks, with a sum that wraps around. -/
theorem argptr_eq_some : argptr proc p n = some a ↔
    a = p ∧ p.toNat < proc.sz ∧ (p + n).toNat ≤ proc.sz := by
  rw [argptr]
  split_ifs with h
  · simp only [false_iff]
    omega
  · simp only [Option.some.injEq]
    constructor
    · rintro rfl
      exact ⟨rfl, by omega, by omega⟩
    · rintro ⟨rfl, -⟩
      rfl

theorem toInt_of_nonneg (hn : 0 ≤ n.toInt) : n.toInt = n.toNat := by
  rw [BitVec.toInt_eq_toNat_cond] at hn ⊢
  have := n.isLt
  split_ifs at hn ⊢ <;> omega

/-- **What `argptr` accepts is in the memory of the process.** -/
theorem argptr_range (h : argptr proc p n = some a) (hn : 0 ≤ n.toInt) :
    (p.toNat : ℤ) + n.toInt ≤ proc.sz := by
  obtain ⟨-, hp, hsum⟩ := argptr_eq_some.mp h
  have hsz := proc.sz_lt
  have hint := toInt_of_nonneg hn
  have hbound := BitVec.toInt_lt (x := n)
  rw [BitVec.toNat_add] at hsum
  simp only [KERNBASE] at hsz
  simp only [Nat.reduceSub] at hbound
  omega

/-- A read of at least 0 bytes stores a piece of at most `n` bytes. -/
theorem fileread_stores (f : OpenFile) (dst n : Word) (hn : 0 ≤ n.toInt) :
    ∃ src, (fileread f dst n).1.stores = memmove dst src ∧ (src.length : ℤ) ≤ n.toInt := by
  have hnat := toInt_of_nonneg hn
  have hnil : ∃ src, ([] : List (Word × UInt8)) = memmove dst src ∧ (src.length : ℤ) ≤ n.toInt :=
    ⟨[], rfl, hn⟩
  rw [fileread]
  split_ifs
  · exact hnil
  · cases f.source with
    | none => exact hnil
    | pipe p =>
      cases p with
      | none => exact hnil
      | some p =>
        obtain ⟨src, hsrc, hlen⟩ := pipeCopy_stores n.toInt.toNat p dst
        exact ⟨src, hsrc, by omega⟩
    | inode ip =>
      by_cases hdev : ip.type = T_DEV
      · by_cases hcons : ip.major = CONSOLE
        · obtain ⟨src, hsrc, hlen⟩ := consoleLoop_stores ip.console n.toInt.toNat 0 dst
          refine ⟨src, ?_, by omega⟩
          simp only [readi, if_pos hdev, if_pos hcons, consoleread, hsrc]
        · simpa only [readi, if_pos hdev, if_neg hcons] using hnil
      · obtain ⟨src, hsrc, hlen, -⟩ := readi_stores hdev dst f.off n
        exact ⟨src, hsrc, by omega⟩

/-- A read of a negative number of bytes stores at `dst` if it copies from a file, and nowhere
else. -/
theorem fileread_negative (f : OpenFile) (dst n : Word) (hn : n.toInt < 0) :
    (fileread f dst n).1.stores = [] ∨ (f.readable = true ∧
      ∃ ip, f.source = .inode ip ∧ ip.type ≠ T_DEV ∧ ip.Copies f.off n) := by
  have hzero : n.toInt.toNat = 0 := by omega
  rw [fileread]
  split_ifs with hread
  · exact Or.inl rfl
  · cases hsource : f.source with
    | none => exact Or.inl rfl
    | pipe p =>
      cases p with
      | none => exact Or.inl rfl
      | some p =>
        refine Or.inl ?_
        simp only [piperead, hzero, pipeCopy]
    | inode ip =>
      by_cases hdev : ip.type = T_DEV
      · refine Or.inl ?_
        by_cases hcons : ip.major = CONSOLE
        · simp only [readi, if_pos hdev, if_pos hcons, consoleread, hzero, consoleLoop]
        · simp only [readi, if_pos hdev, if_neg hcons]
      · by_cases hcopies : ip.Copies f.off n
        · exact Or.inr ⟨by simpa using hread, ip, rfl, hdev, hcopies⟩
        · obtain ⟨src, hsrc, -, hsome⟩ := readi_stores hdev dst f.off n
          have hnil : src = [] := List.length_eq_zero_iff.mp
            (Nat.eq_zero_of_not_pos fun h => hcopies (hsome.mp h))
          refine Or.inl ?_
          rw [hnil] at hsrc
          exact hsrc

/-- A copy from a file with a negative length starts with a store at `dst`. -/
theorem mem_stores_of_copies {ip : Node} (hread : f.readable = true)
    (hsource : f.source = .inode ip)
    (hdev : ip.type ≠ T_DEV) (hcopies : ip.Copies f.off n) :
    ∃ b, (p, b) ∈ (fileread f p n).1.stores := by
  obtain ⟨src, hsrc, -, hsome⟩ := readi_stores hdev p f.off n
  have hpos := hsome.mpr hcopies
  have hstores : (fileread f p n).1.stores = memmove p src := by
    rw [fileread, if_neg (by simp [hread]), hsource]
    exact hsrc
  cases src with
  | nil => exact absurd hpos (Nat.lt_irrefl 0)
  | cons b src => exact ⟨b, by rw [hstores]; exact List.mem_cons_self⟩

/-- **`read` stays in the buffer of the caller unless it reads a file with a negative length** that
`argptr` accepts. What `argptr` accepts is in the memory of the process in any case. -/
theorem read_stays_in_buffer (proc : Proc) (f : OpenFile) (p n : Word) :
    ((∀ mem a, ¬ InBuffer proc p n a →
        applyWrites (sysRead proc (some f) (some p) (some n)).1.stores mem a = mem a) ∧
      ∀ size : Word, argptr proc p size = some p → ∀ a : ℤ, p.toNat ≤ a → a < p.toNat + size.toInt →
        0 ≤ a ∧ a < proc.sz) ↔
    ¬ ReadsNegative proc f p n := by
  have hargptr : ∀ size : Word, argptr proc p size = some p → ∀ a : ℤ, p.toNat ≤ a →
      a < p.toNat + size.toInt → 0 ≤ a ∧ a < proc.sz := by
    intro size hsize a hlo hhi
    have := argptr_range hsize (by omega)
    omega
  rw [and_iff_left hargptr]
  -- a byte is left alone in every memory exactly if no store goes there
  have hstores : (∀ mem a, ¬ InBuffer proc p n a →
      applyWrites (sysRead proc (some f) (some p) (some n)).1.stores mem a = mem a) ↔
      ∀ w ∈ (sysRead proc (some f) (some p) (some n)).1.stores, InBuffer proc p n w.1 := by
    constructor
    · intro h w hw
      by_contra hout
      have : Nontrivial UInt8 := ⟨0, 1, by decide⟩
      exact forall_applyWrites_eq_iff.mp (fun mem => h mem w.1 hout) w hw rfl
    · intro h mem a hout
      exact applyWrites_of_notMem fun w hw he => hout (he ▸ h w hw)
  rw [hstores]
  cases harg : argptr proc p n with
  | none =>
    have hnone : (sysRead proc (some f) (some p) (some n)).1.stores = [] := by
      simp only [sysRead, harg]
    rw [hnone]
    simp [ReadsNegative, harg]
  | some q =>
    obtain rfl := (argptr_eq_some.mp harg).1
    have hsys : (sysRead proc (some f) (some q) (some n)).1.stores = (fileread f q n).1.stores := by
      simp only [sysRead, harg]
    rw [hsys]
    by_cases hn : 0 ≤ n.toInt
    · refine iff_of_true (fun w hw => ?_) fun h => absurd h.1 (Int.not_lt.mpr hn)
      have hend := argptr_range harg hn
      obtain ⟨src, hsrc, hlen⟩ := fileread_stores f q n hn
      rw [hsrc] at hw
      have hsz := proc.sz_lt
      simp only [KERNBASE] at hsz
      have hrange := memmove_range (by omega) hw
      exact ⟨hrange.1, by omega, by omega⟩
    · constructor
      · rintro h ⟨-, -, hread, ip, hsource, hdev, hcopies⟩
        obtain ⟨b, hb⟩ := mem_stores_of_copies (p := q) hread hsource hdev hcopies
        have := (h _ hb).2.1
        dsimp only at this
        omega
      · intro h
        rcases fileread_negative f q n (by omega) with hnil | hcopies
        · rw [hnil]
          exact fun w hw => absurd hw List.not_mem_nil
        · exact absurd ⟨by omega, harg, hcopies⟩ h

end Buffer

/-- A process of two pages. -/
def twoPages : Proc := ⟨8192, by decide⟩

/-- An open file of four bytes, at its start. -/
def fourBytes : OpenFile :=
  ⟨true, 0, .inode ⟨T_FILE, 0, 4, fun _ => some (Block.ofBytes fun _ => 7), fun _ => none⟩⟩

/-- `read(fd, p, -5)` with `p = 256` stores four bytes. -/
theorem read_negative_length :
    (sysRead twoPages (some fourBytes) (some 256) (some (-5))).1.ret = some 4 ∧
      applyWrites (sysRead twoPages (some fourBytes) (some 256) (some (-5))).1.stores
        (fun _ => 0) 259 = 7 ∧ ¬ InBuffer twoPages 256 (-5) 259 := by
  refine ⟨by decide +kernel, by decide +kernel, fun h => absurd h.2.1 (by decide)⟩

end Xv6.ReadBuffer
