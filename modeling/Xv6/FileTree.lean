import Xv6.Fs

/-!
# The Block Tree of an Inode

The three tiers of block pointers that `bmap` walks, seen as one tree: a position is an entry
of `addrs` and a list of indices into indirect blocks below it. `bmap` then is one walk down
such a list (`bmap_eq`), whatever the tier, and a file is the array of the bytes of its data
blocks.

## Main definitions

* `tree`: the block pointer at a position.
* `pathOf`: the position of the `bn`th block of a file.
* `fileByte`: the contents of a file.

## Main results

* `bmap_eq`: `bmap` follows the path of the block.
* `run_readiLoop`: **`readi` returns the bytes of the array**, and changes nothing, when the
  blocks it needs are there.
-/

namespace Xv6

section Tree

variable {md : Mode} {p ip : ℕ} {s : Sys}

/-! ### Positions -/

/-- The block pointer at the position below entry `r` of `addrs` that is reached with the
indices `js`, the last one first. It is zero below a zero pointer. -/
def tree (d : Disk) (a : Dinode) (r : ℕ) : List ℕ → ℕ
  | [] => a.addr r
  | j :: js => if tree d a r js = 0 then 0 else (d (tree d a r js)).word j

/-- How many levels of indirect blocks are below an entry of `addrs`. -/
def depth (r : ℕ) : ℕ :=
  if r < NDIRECT then 0 else if r < NDIRECT + NUM_INDIRECT then 1 else 2

/-- The positions that the tree has. -/
structure ValidPos (r : ℕ) (js : List ℕ) : Prop where
  root : r < 13
  depth : js.length ≤ depth r
  index : ∀ j ∈ js, j < 128

variable {j r bn off : ℕ} {js : List ℕ}

theorem ValidPos.tail (h : ValidPos r (j :: js)) : ValidPos r js :=
  ⟨h.root, (Nat.le_succ _).trans h.depth, fun k hk => h.index k (List.mem_cons_of_mem _ hk)⟩

theorem ValidPos.head (h : ValidPos r (j :: js)) : j < 128 :=
  h.index j List.mem_cons_self

/-- The position of block `bn` of a file. -/
def pathOf (bn : ℕ) : ℕ × List ℕ :=
  if bn < NDIRECT then (bn, [])
  else if bn - NDIRECT < NINDIRECT then
    (NDIRECT + (bn - NDIRECT) / PTRS_PER_BLOCK, [(bn - NDIRECT) % PTRS_PER_BLOCK])
  else
    (NDIRECT + NUM_INDIRECT,
      [(bn - NDIRECT - NINDIRECT) % PTRS_PER_BLOCK, (bn - NDIRECT - NINDIRECT) / PTRS_PER_BLOCK])

theorem maxfile_eq : MAXFILE = 16650 := rfl

/-- The three tiers. -/
theorem pathOf_cases (h : bn < MAXFILE) : (bn < 10 ∧ pathOf bn = (bn, [])) ∨
    (∃ k j, k < 2 ∧ j < 128 ∧ bn = 10 + 128 * k + j ∧ pathOf bn = (10 + k, [j])) ∨
    (∃ i j, i < 128 ∧ j < 128 ∧ bn = 266 + 128 * i + j ∧ pathOf bn = (12, [j, i])) := by
  rw [maxfile_eq] at h
  by_cases h1 : bn < 10
  · exact Or.inl ⟨h1, by simp [pathOf, h1]⟩
  · right
    by_cases h2 : bn - 10 < 256
    · exact Or.inl ⟨(bn - 10) / 128, (bn - 10) % 128, by omega, by omega, by omega,
        by simp [pathOf, h1, h2]⟩
    · exact Or.inr ⟨(bn - 266) / 128, (bn - 266) % 128, by omega, by omega, by omega,
        by simp [pathOf, h1, h2, show bn - 10 - 256 = bn - 266 by omega]⟩

/-- A file's blocks are at the bottom of the tree. -/
theorem depth_pathOf (h : bn < MAXFILE) : (pathOf bn).2.length = depth (pathOf bn).1 := by
  rcases pathOf_cases h with ⟨hlt, heq⟩ | ⟨k, j, hk, hj, -, heq⟩ | ⟨i, j, hi, hj, -, heq⟩
  · simp [heq, depth, hlt]
  · simp [heq, depth, show 10 + k < 12 by omega]
  · simp [heq, depth]

theorem validPos_pathOf (h : bn < MAXFILE) : ValidPos (pathOf bn).1 (pathOf bn).2 := by
  refine ⟨?_, (depth_pathOf h).le, ?_⟩ <;>
    rcases pathOf_cases h with ⟨hlt, heq⟩ | ⟨k, j, hk, hj, -, heq⟩ | ⟨i, j, hi, hj, -, heq⟩ <;>
    rw [heq] <;> simp [*] <;> omega

/-- Different blocks of a file are at different positions. -/
theorem pathOf_inj {bn' : ℕ} (h : bn < MAXFILE) (h' : bn' < MAXFILE)
    (heq : pathOf bn = pathOf bn') : bn = bn' := by
  rcases pathOf_cases h with ⟨h1, e1⟩ | ⟨k, j, h1, h2, h3, e1⟩ | ⟨k, j, h1, h2, h3, e1⟩ <;>
    rcases pathOf_cases h' with ⟨g1, e2⟩ | ⟨k', j', g1, g2, g3, e2⟩ | ⟨k', j', g1, g2, g3, e2⟩ <;>
    rw [e1, e2] at heq <;> simp at heq <;> omega

/-! ### Walking down the tree -/

/-- The walk of `bmap` down to a position. -/
def bmapPath (ip r : ℕ) : List ℕ → Fs ℕ
  | [] => inodePtr ip r
  | j :: js => do
    let blk ← bmapPath ip r js
    blockPtr blk j

/-- **`bmap` follows the path of the block.** -/
theorem bmap_eq (ip : ℕ) (h : bn < MAXFILE) :
    bmap ip bn = bmapPath ip (pathOf bn).1 (pathOf bn).2 := by
  have hlt : bn - 10 - 256 < 128 * 128 ∨ bn - 10 < 256 := by
    rw [maxfile_eq] at h
    omega
  by_cases h1 : bn < 10
  · simp [bmap, pathOf, h1, bmapPath]
  · by_cases h2 : bn - 10 < 256
    · simp [bmap, pathOf, h1, h2, bmapPath]
    · have h3 : bn - 10 - 256 < 16384 := by omega
      simp [bmap, pathOf, h1, h2, h3, bmapPath, Nat.mod_eq_of_lt h3]

theorem tree_ne_zero_tail {d : Disk} {a : Dinode} (h : tree d a r (j :: js) ≠ 0) :
    tree d a r js ≠ 0 := by
  intro h0
  simp [tree, h0] at h

/-- A walk to a position that is mapped finds it and changes nothing. -/
theorem run_bmapPath (h : tree s.disk (s.icache ip).din r js ≠ 0) :
    Prog.run (exec md p) (bmapPath ip r js) s =
      .ok (tree s.disk (s.icache ip).din r js, s) := by
  induction js with
  | nil =>
    have h' : (s.icache ip).din.addr r ≠ 0 := h
    simp [bmapPath, inodePtr, Prog.run_bind, h', tree]
  | cons j js ih =>
    have hpar := tree_ne_zero_tail h
    have hword : (s.disk (tree s.disk (s.icache ip).din r js)).word j ≠ 0 := by
      simpa [tree, hpar] using h
    simp [bmapPath, blockPtr, Prog.run_bind, ih hpar, hword, tree, hpar]

/-- The block that holds byte `512 * bn` of a file. -/
def dataPtr (d : Disk) (a : Dinode) (bn : ℕ) : ℕ := tree d a (pathOf bn).1 (pathOf bn).2

/-- **`bmap` of a mapped block** finds it and changes nothing. -/
theorem run_bmap (hbn : bn < MAXFILE) (h : dataPtr s.disk (s.icache ip).din bn ≠ 0) :
    Prog.run (exec md p) (bmap ip bn) s = .ok (dataPtr s.disk (s.icache ip).din bn, s) := by
  rw [bmap_eq ip hbn]
  exact run_bmapPath h

/-! ### Files as arrays of bytes -/

/-- Byte `k` of a file. -/
def fileByte (d : Disk) (a : Dinode) (k : ℕ) : UInt8 :=
  (d (dataPtr d a (k / BSIZE))).byte (k % BSIZE)

/-- The bytes `[off, off + n)` of a file. -/
def fileSlice (d : Disk) (a : Dinode) (off n : ℕ) : List UInt8 :=
  (List.range n).map fun i => fileByte d a (off + i)

/-- A piece of a file inside one block. -/
theorem slice_eq_fileSlice (d : Disk) (a : Dinode) {m : ℕ} (h : off % 512 + m ≤ 512) :
    (d (dataPtr d a (off / BSIZE))).slice (off % BSIZE) m = fileSlice d a off m := by
  simp only [Block.slice, fileSlice, BSIZE]
  refine List.map_congr_left fun i hi => ?_
  have hi := List.mem_range.mp hi
  simp only [fileByte, BSIZE]
  rw [show (off + i) / 512 = off / 512 by omega, show (off + i) % 512 = off % 512 + i by omega]

/-- Two neighbouring pieces of a file. -/
theorem fileSlice_append (d : Disk) (a : Dinode) (off m n : ℕ) :
    fileSlice d a off m ++ fileSlice d a (off + m) n = fileSlice d a off (m + n) := by
  simp only [fileSlice, List.range_add, List.map_append, List.map_map]
  congr 1
  refine List.map_congr_left fun i _ => ?_
  simp [Nat.add_assoc]

@[simp] theorem length_fileSlice (d : Disk) (a : Dinode) (off n : ℕ) :
    (fileSlice d a off n).length = n := by
  simp [fileSlice]

/-- A round of a loop over the bytes of a file stays within one block. -/
theorem round_bounds {n : ℕ} (off : ℕ) (h0 : n ≠ 0) :
    min n (BSIZE - off % BSIZE) ≤ n ∧ 0 < min n (BSIZE - off % BSIZE) ∧
      off % 512 + min n (BSIZE - off % BSIZE) ≤ 512 := by
  simp only [BSIZE]
  omega

/-- **The loop of `readi`** returns the bytes of the array, when their blocks are mapped. -/
theorem run_readiLoop {fuel n : ℕ} (hfuel : n ≤ fuel)
    (hmap : ∀ k, off ≤ k → k < off + n → k / 512 < MAXFILE ∧
      dataPtr s.disk (s.icache ip).din (k / 512) ≠ 0) :
    Prog.run (exec md p) (readiLoop ip fuel off n) s =
      .ok (fileSlice s.disk (s.icache ip).din off n, s) := by
  -- induction on the fuel: every round with bytes to go reads at least one
  induction fuel generalizing off n with
  | zero =>
    obtain rfl : n = 0 := by omega
    rfl
  | succ fuel ih =>
    unfold readiLoop
    split_ifs with h0
    · subst h0
      rfl
    · obtain ⟨hle, hpos, hblk⟩ := round_bounds off h0
      obtain ⟨hbn, hptr⟩ := hmap off le_rfl (by omega)
      have hfuel' : n - min n (BSIZE - off % BSIZE) ≤ fuel := by omega
      have hrest := ih hfuel' fun k (h1 : off + min n (BSIZE - off % BSIZE) ≤ k) h2 =>
        hmap k (by omega) (by omega)
      simp only [Prog.run_bind, BSIZE] at hrest ⊢
      rw [run_bmap hbn hptr]
      simp only [Prog.ok_bind, run_bread, hrest, Prog.run_pure, Except.ok.injEq, Prod.mk.injEq,
        and_true]
      have := slice_eq_fileSlice s.disk (s.icache ip).din hblk
      simp only [BSIZE] at this
      rw [this, fileSlice_append]
      congr 1
      omega

end Tree

end Xv6
