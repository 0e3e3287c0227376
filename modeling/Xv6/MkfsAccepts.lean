import Mathlib.Algebra.Order.BigOperators.Group.List
import Xv6.MkfsImage

/-!
# The Runs of the Image Builder

Which lists of files `mkfs` makes an image for. `iappend` can append to an inode of up to
`NDIRECT + NINDIRECT` blocks; past that it accesses its array `indirect` outside its bounds. Up to
block `NDIRECT + PTRS_PER_BLOCK` no uninitialised element of the array matters.

## Main results

* `iappend_runs`: `iappend` of at most a block returns, and allocates at most four blocks.
* `build_runs`: **`mkfs` adds all files**, or finds a slash in a name, in the same way for all
  contents of the uninitialised elements.
-/

namespace Xv6

namespace Mkfs

/-- **The rule for two folds that agree**: at every element they go on in the same way, or stop
with the same error. -/
theorem foldlM_agree {ε β σ : Type} {f g : σ → β → Except ε σ} {P : List β → σ → Prop} {E : Prop}
    {e : ε} {l : List β} {s : σ}
    (hstep : ∀ pre x post s, l = pre ++ x :: post → P pre s →
      (∃ s', f s x = .ok s' ∧ g s x = .ok s' ∧ P (pre ++ [x]) s') ∨
        (E ∧ f s x = .error e ∧ g s x = .error e)) (h : P [] s) :
    (∃ t, l.foldlM f s = .ok t ∧ l.foldlM g s = .ok t ∧ P l t) ∨
      (E ∧ l.foldlM f s = .error e ∧ l.foldlM g s = .error e) := by
  suffices ∀ post pre s, l = pre ++ post → P pre s →
      (∃ t, post.foldlM f s = .ok t ∧ post.foldlM g s = .ok t ∧ P l t) ∨
        (E ∧ post.foldlM f s = .error e ∧ post.foldlM g s = .error e) from this l [] s rfl h
  intro post
  induction post with
  | nil =>
    rintro pre s rfl h
    rw [List.append_nil] at *
    exact Or.inl ⟨s, rfl, rfl, h⟩
  | cons x post ih =>
    intro pre s hl h
    rw [List.foldlM_cons, List.foldlM_cons]
    rcases hstep pre x post s hl h with ⟨s', hf, hg, h'⟩ | ⟨hE, hf, hg⟩
    · rw [hf, hg]
      exact ih (pre ++ [x]) s' (by rw [hl, List.append_assoc]; rfl) h'
    · rw [hf, hg]
      exact Or.inr ⟨hE, rfl, rfl⟩

/-! ### One inode -/

section Inode

variable {junk junk' : ℕ → ℕ → ℕ} {inum off : ℕ} {din : Dinode} {m : State} {p : List UInt8}

/-- The uninitialised elements do not matter: they are all zero, or they are not reached. -/
def SameJunk (junk junk' : ℕ → ℕ → ℕ) (len : ℕ) : Prop :=
  ((∀ i k, junk i k = 0) ∧ junk' = junk) ∨ len ≤ 138 * 512

/-- A round takes at most two blocks, and does not depend on the array past its end. -/
theorem iappendBlock_runs (h : off / 512 < 266) (hj : junk = junk' ∨ off / 512 < 138) :
    ∃ r, iappendBlock junk inum din off m = .ok r ∧ iappendBlock junk' inum din off m = .ok r ∧
      r.2.2.freeblock ≤ m.freeblock + 2 := by
  have hd : NDIRECT = 10 := rfl
  have hi : NINDIRECT = 256 := rfl
  have hptr : PTRS_PER_BLOCK = 128 := rfl
  have hmax : ¬ MAXFILE ≤ off / 512 := by
    rw [maxfile_eq]
    omega
  have hset : (setBlock NDIRECT din m).2.freeblock ≤ m.freeblock + 1 := by
    rw [setBlock]
    split_ifs
    · exact le_rfl
    · exact Nat.le_succ _
  by_cases hdir : off / 512 < NDIRECT
  · have heq : ∀ j, iappendBlock j inum din off m = .ok
        ((setBlock (off / 512) din m).1.addr (off / 512), setBlock (off / 512) din m) := fun j => by
      simp only [iappendBlock, if_neg hmax, if_pos hdir]
    refine ⟨_, heq junk, heq junk', ?_⟩
    rw [setBlock]
    split_ifs
    · exact Nat.le_succ _
    · exact Nat.le_add_right _ 2
  · have hk : ¬ NINDIRECT ≤ off / 512 - NDIRECT := by omega
    have hent : ∀ v v' u blk, (v = v' ∨ off / 512 < 138) →
        ∃ r, indirectEntry v (off / 512 - NDIRECT) blk u = .ok r ∧
          indirectEntry v' (off / 512 - NDIRECT) blk u = .ok r ∧
          r.2.freeblock ≤ u.freeblock + 1 := by
      intro v v' u blk hv
      have hval : (if off / 512 - NDIRECT < PTRS_PER_BLOCK then
          (u.disk blk).word (off / 512 - NDIRECT) else v) =
          if off / 512 - NDIRECT < PTRS_PER_BLOCK then
            (u.disk blk).word (off / 512 - NDIRECT) else v' := by
        rcases hv with rfl | hlt
        · rfl
        · have hlt' : off / 512 - NDIRECT < PTRS_PER_BLOCK := by
            omega
          rw [if_pos hlt', if_pos hlt']
      simp only [indirectEntry, if_neg hk, hval]
      split_ifs
      all_goals first
        | exact ⟨_, rfl, rfl, le_rfl⟩
        | exact ⟨_, rfl, rfl, Nat.le_succ _⟩
    obtain ⟨r, h1, h2, h3⟩ := hent (junk inum off) (junk' inum off) (setBlock NDIRECT din m).2
      ((setBlock NDIRECT din m).1.addr NDIRECT) (hj.imp (fun he => by rw [he]) id)
    refine ⟨(r.1, (setBlock NDIRECT din m).1, r.2), ?_, ?_, h3.trans (by omega)⟩
    · simp only [iappendBlock, if_neg hmax, if_neg hdir]
      rw [h1]
      rfl
    · simp only [iappendBlock, if_neg hmax, if_neg hdir]
      rw [h2]
      rfl

/-- The loop allocates at most two blocks for each block that it writes to. -/
theorem iappendLoop_runs {fuel : ℕ} (h : off + p.length ≤ 266 * 512)
    (hj : SameJunk junk junk' (off + p.length)) :
    ∃ r, iappendLoop junk inum fuel p din off m = .ok r ∧
      iappendLoop junk' inum fuel p din off m = .ok r ∧
      r.2.2.freeblock ≤
        m.freeblock + if p.length = 0 then 0 else 2 * ((off % 512 + p.length + 511) / 512) := by
  induction fuel generalizing p din off m with
  | zero => exact ⟨_, rfl, rfl, Nat.le_add_right _ _⟩
  | succ fuel ih =>
    rw [iappendLoop, iappendLoop]
    by_cases hp : p = []
    · rw [if_pos hp, if_pos hp]
      exact ⟨_, rfl, rfl, Nat.le_add_right _ _⟩
    · have hpos : 0 < p.length := List.length_pos_iff.mpr hp
      rw [if_neg hp, if_neg hp]
      obtain ⟨⟨x, a, u⟩, h1, h2, h3⟩ : ∃ r, iappendBlock junk inum din off m = .ok r ∧
          iappendBlock junk' inum din off m = .ok r ∧ r.2.2.freeblock ≤ m.freeblock + 2 :=
        iappendBlock_runs (by omega) (hj.imp (fun h => h.2.symm) fun hle => by omega)
      rw [h1, h2]
      obtain ⟨n1, hn1⟩ : ∃ n1, n1 = min p.length ((off / 512 + 1) * 512 - off) := ⟨_, rfl⟩
      have hdrop : (p.drop n1).length = p.length - n1 := List.length_drop
      obtain ⟨w, hw⟩ : ∃ w, w = u.wsect x ((u.disk x).blit (off - off / 512 * 512)
        (p.take n1)) := ⟨_, rfl⟩
      have hfree : w.freeblock = u.freeblock := by rw [hw]; rfl
      obtain ⟨r, g1, g2, g3⟩ : ∃ r, iappendLoop junk inum fuel (p.drop n1) a (off + n1) w = .ok r ∧
          iappendLoop junk' inum fuel (p.drop n1) a (off + n1) w = .ok r ∧ r.2.2.freeblock ≤
            w.freeblock + if (p.drop n1).length = 0 then 0
              else 2 * (((off + n1) % 512 + (p.drop n1).length + 511) / 512) :=
        ih (by omega) (hj.imp id fun hle => by omega)
      have h3 : u.freeblock ≤ m.freeblock + 2 := h3
      rw [hw, hn1] at g1 g2
      refine ⟨r, g1, g2, g3.trans ?_⟩
      rw [if_neg (show p.length ≠ 0 by omega), hdrop, hfree]
      split_ifs <;> omega

/-- **`iappend` of at most a block** returns, and allocates at most four blocks. -/
theorem iappend_runs (hp : p.length ≤ 512) (h : (m.rinode inum).size + p.length ≤ 266 * 512)
    (hj : SameJunk junk junk' ((m.rinode inum).size + p.length)) :
    ∃ m', iappend junk inum p m = .ok m' ∧ iappend junk' inum p m = .ok m' ∧
      m'.freeblock ≤ m.freeblock + 4 := by
  obtain ⟨⟨a, off, u⟩, h1, h2, h3⟩ : ∃ r, iappendLoop junk inum p.length p (m.rinode inum)
      (m.rinode inum).size m = .ok r ∧ iappendLoop junk' inum p.length p (m.rinode inum)
      (m.rinode inum).size m = .ok r ∧ r.2.2.freeblock ≤ m.freeblock + if p.length = 0 then 0
        else 2 * (((m.rinode inum).size % 512 + p.length + 511) / 512) := iappendLoop_runs h hj
  refine ⟨u.winode inum { a with size := off }, ?_, ?_, h3.trans ?_⟩
  · rw [iappend, h1]
    rfl
  · rw [iappend, h2]
    rfl
  · split_ifs <;> omega

end Inode

/-! ### All files -/

section Files

variable {junk junk' : ℕ → ℕ → ℕ} {m : State} {c : ℕ → List UInt8} {fs : List HostFile}
  {f : HostFile}

/-- Adding a file succeeds, or its name has a slash. -/
theorem addFile_runs (h : Built fs m c) (hn : fs.length + 3 ≤ 264)
    (hlen : f.content.length ≤ 266 * 512) (hF : m.freeblock + 4 + 4 * f.chunks.length < 2 ^ 32)
    (hj : SameJunk junk junk' f.content.length) :
    (∃ m', addFile junk m f = .ok m' ∧ addFile junk' m f = .ok m' ∧
        m'.freeblock ≤ m.freeblock + 4 + 4 * f.chunks.length) ∨
      (slash ∈ f.name ∧ addFile junk m f = .error .assertion ∧
        addFile junk' m f = .error .assertion) := by
  by_cases hs : slash ∈ f.name
  · exact Or.inr ⟨hs, if_pos hs, if_pos hs⟩
  · left
    have hinode := h.inode
    have hsize : ((m.ialloc T_FILE).2.rinode ROOTINO).size = 16 * (fs.length + 2) := by
      rw [(h.ialloc hn).size ROOTINO (by simp; omega)]
      exact h.root
    obtain ⟨de, hde⟩ : ∃ de, de = mkDirent (if f.name.head? = some underscore then f.name.tail
      else f.name) m.freeinode := ⟨_, rfl⟩
    have hlen16 : de.length = 16 := by rw [hde, length_mkDirent]
    obtain ⟨u, h1, h2, h3⟩ : ∃ u, iappend junk ROOTINO de (m.ialloc T_FILE).2 = .ok u ∧
        iappend junk' ROOTINO de (m.ialloc T_FILE).2 = .ok u ∧
        u.freeblock ≤ (m.ialloc T_FILE).2.freeblock + 4 :=
      iappend_runs (by omega) (by omega) (Or.inr (by omega))
    have h3 : u.freeblock ≤ m.freeblock + 4 := h3
    obtain ⟨-, himg⟩ := h.entry hn hlen16 h1 (by omega)
    -- the chunks never fail
    have hchunks := foldlM_agree (f := fun s x => iappend junk m.freeinode x s)
      (g := fun s x => iappend junk' m.freeinode x s) (l := f.chunks) (E := False)
      (e := Abort.assertion) (s := u)
      (P := fun pre s => s.freeblock ≤ u.freeblock + 4 * pre.length ∧
        Img (m.freeinode + 1) s.freeblock s.disk s.rinode
          (Function.update (Function.update c 1 (c 1 ++ de)) m.freeinode pre.flatten)) ?_
      ⟨le_rfl, himg⟩
    · rcases hchunks with ⟨m', g1, g2, g3, -⟩ | ⟨hE, -⟩
      · refine ⟨m', ?_, ?_, g3.trans (by omega)⟩
        · rw [addFile, if_neg hs]
          exact bind_eq_ok.mpr ⟨u, by rw [← h1, hde]; rfl, g1⟩
        · rw [addFile, if_neg hs]
          exact bind_eq_ok.mpr ⟨u, by rw [← h2, hde]; rfl, g2⟩
      · exact hE.elim
    · rintro pre x post s hl ⟨hfree, himg⟩
      have hx : x.length ≤ 512 := (f.chunk_ok x (by simp [hl])).2
      have hpre : pre.length + 1 ≤ f.chunks.length := by rw [hl]; simp
      have hsum : pre.flatten.length + x.length ≤ f.content.length := by
        rw [HostFile.content, hl]
        simp only [List.flatten_append, List.flatten_cons, List.length_append]
        omega
      have hsz : (s.rinode m.freeinode).size = pre.flatten.length := by
        rw [himg.size _ (Nat.lt_succ_self _), Function.update_self]
      have hj' : SameJunk junk junk' (pre.flatten.length + x.length) :=
        hj.imp id fun hle => by omega
      obtain ⟨s', g1, g2, g3⟩ : ∃ s', iappend junk m.freeinode x s = .ok s' ∧
          iappend junk' m.freeinode x s = .ok s' ∧ s'.freeblock ≤ s.freeblock + 4 :=
        iappend_runs hx (by omega) (by rw [hsz]; exact hj')
      refine Or.inl ⟨s', g1, g2, ?_, ?_⟩
      · rw [List.length_append, List.length_singleton]
        omega
      · have := himg.iappend (Nat.lt_succ_self _) (by omega)
          (hj'.imp And.left fun hle => by rw [Function.update_self]; exact hle) g1 (by omega)
        rwa [Function.update_self, Function.update_idem, ← List.flatten_concat] at this

/-- The blocks that are enough for the metadata, the root directory and the files. -/
def blockBound (fs : List HostFile) : ℕ := 43 + (fs.map fun f => 4 + 4 * f.chunks.length).sum

theorem blockBound_concat (fs : List HostFile) (f : HostFile) :
    blockBound (fs ++ [f]) = blockBound fs + (4 + 4 * f.chunks.length) := by
  simp [blockBound, Nat.add_assoc]

/-- A piece that `read` returns has at least one byte. -/
theorem HostFile.length_chunks_le (f : HostFile) : f.chunks.length ≤ f.content.length := by
  have hone : ∀ k ∈ f.chunks.map List.length, 1 ≤ k := by
    intro k hk
    obtain ⟨x, hx, rfl⟩ := List.mem_map.mp hk
    exact List.length_pos_iff.mpr (f.chunk_ok x hx).1
  have := List.length_le_sum_of_one_le _ hone
  rwa [List.length_map, ← List.length_flatten] at this

/-- The counter of blocks does not wrap around. -/
theorem blockBound_lt {files : List HostFile} (hn : files.length + 2 ≤ 264)
    (hlen : ∀ f ∈ files, f.content.length ≤ 266 * 512) : blockBound files < 2 ^ 32 := by
  have hle : ∀ k ∈ files.map fun f => 4 + 4 * f.chunks.length, k ≤ 4 + 4 * (266 * 512) := by
    intro k hk
    obtain ⟨f, hf, rfl⟩ := List.mem_map.mp hk
    have := f.length_chunks_le
    have := hlen f hf
    omega
  have hsum := List.sum_le_card_nsmul _ _ hle
  rw [List.length_map, nsmul_eq_mul, Nat.cast_id] at hsum
  rw [blockBound]
  omega

theorem blockBound_append_le (fs post : List HostFile) :
    blockBound fs ≤ blockBound (fs ++ post) := by
  simp only [blockBound, List.map_append, List.sum_append]
  omega

/-- **The loop of `main` adds all files**, or finds a slash in a name. -/
theorem build_runs {files : List HostFile} (hn : files.length + 2 ≤ 264)
    (hlen : ∀ f ∈ files, f.content.length ≤ 266 * 512 ∧ SameJunk junk junk' f.content.length) :
    (∃ m c, build junk files = .ok m ∧ build junk' files = .ok m ∧ Built files m c ∧
        m.freeblock ≤ blockBound files) ∨
      ((∃ f ∈ files, slash ∈ f.name) ∧ build junk files = .error .assertion ∧
        build junk' files = .error .assertion) := by
  have hF := blockBound_lt hn fun f hf => (hlen f hf).1
  have hsize := img_root.size 1 (by omega)
  obtain ⟨u, h1, h1', hu⟩ : ∃ u, iappend junk 1 (mkDirent [46] 1) (start.ialloc T_DIR).2 = .ok u ∧
      iappend junk' 1 (mkDirent [46] 1) (start.ialloc T_DIR).2 = .ok u ∧
      u.freeblock ≤ (start.ialloc T_DIR).2.freeblock + 4 := by
    refine iappend_runs ?_ ?_ (Or.inr ?_)
    all_goals rw [length_mkDirent]
    all_goals first
      | omega
      | rw [hsize, List.length_nil]
        omega
  have hu : u.freeblock ≤ 39 := hu
  have himg := Img.iappend img_root (by omega) (by omega)
    (Or.inr (by rw [length_mkDirent]; simp)) h1 (by omega)
  obtain ⟨u', h2, h2', hu'⟩ : ∃ u', iappend junk 1 (mkDirent [46, 46] 1) u = .ok u' ∧
      iappend junk' 1 (mkDirent [46, 46] 1) u = .ok u' ∧ u'.freeblock ≤ u.freeblock + 4 := by
    have hsize' := himg.size 1 (by omega)
    rw [Function.update_self, List.length_append, length_mkDirent, List.length_nil] at hsize'
    refine iappend_runs ?_ ?_ (Or.inr ?_) <;> rw [length_mkDirent] <;> omega
  have hbuild : ∀ j, iappend j 1 (mkDirent [46] 1) (start.ialloc T_DIR).2 = .ok u →
      iappend j 1 (mkDirent [46, 46] 1) u = .ok u' →
      build j files = files.foldlM (addFile j) u' := by
    intro j g1 g2
    have hino : (start.ialloc T_DIR).1 = 1 := rfl
    simp only [build, hino, ROOTINO, ne_eq, not_true_eq_false, if_false]
    rw [g1]
    simp only [bind, Except.bind]
    rw [g2]
  rw [hbuild junk h1 h2, hbuild junk' h1' h2']
  have hfold := foldlM_agree (f := addFile junk) (g := addFile junk') (l := files)
    (E := ∃ f ∈ files, slash ∈ f.name) (e := Abort.assertion) (s := u')
    (P := fun pre s => (∃ c, Built pre s c) ∧ s.freeblock ≤ blockBound pre) ?_
    ⟨built_nil (length_mkDirent _ _) (length_mkDirent _ _) h1 h2 (by omega), by
      simp only [blockBound, List.map_nil, List.sum_nil]
      omega⟩
  · rcases hfold with ⟨m, g1, g2, ⟨c, hc⟩, hle⟩ | h
    · exact Or.inl ⟨m, c, g1, g2, hc, hle⟩
    · exact Or.inr h
  · rintro pre f post s hl ⟨⟨c, hc⟩, hle⟩
    have hmem : f ∈ files := by simp [hl]
    have hpre : pre.length + 1 ≤ files.length := by rw [hl]; simp
    have hbound : blockBound pre + (4 + 4 * f.chunks.length) ≤ blockBound files := by
      rw [← blockBound_concat, hl, List.append_cons pre f post]
      exact blockBound_append_le _ _
    have hruns := addFile_runs hc (by omega) (hlen f hmem).1 (by omega) (hlen f hmem).2
    rcases hruns with ⟨s', g1, g2, g3⟩ | ⟨hs, g1, g2⟩
    · refine Or.inl ⟨s', g1, g2, hc.addFile (by omega) (by omega) ?_ g1, ?_⟩
      · exact (hlen f hmem).2.imp And.left id
      · rw [blockBound_concat]
        omega
    · exact Or.inr ⟨⟨f, hmem, hs⟩, g1, g2⟩

end Files

end Mkfs

end Xv6
