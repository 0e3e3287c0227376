import Xv6.MkfsAgrees

/-!
# Well-Formed Images

When the image that `mkfs` makes is a consistent file system: no holes, no block used twice, a
correct bitmap, and the inodes where they belong. The root directory is the delicate part. Its
size is rounded up after the last entry has been written, to the next multiple of the block size
that is larger, so when its entries fill their blocks it gets a block that is not there.

## Main results

* `Built.imageOk`: **the images of lists without the three defects.**
* `mkfs_image_iff`: **the lists of files for which the image is well formed.**
* `mkfs_image_hello`: such a list.
* `mkfs_root_hole`: with 30 files the root directory has a hole.
-/

namespace Xv6

namespace Mkfs

/-- The image, with inodes `1, …, n`, is a consistent file system. -/
structure ImageOk (img : Disk) (n : ℕ) : Prop where
  /-- no inode is stored past the inode blocks -/
  stored : ∀ i, 1 ≤ i → i ≤ n → IBLOCK i < ninodes / IPB + 3
  /-- no inode has a hole -/
  mapped : ∀ i, 1 ≤ i → i ≤ n → ∀ bn, bn < ((inodeAt img i).size + 511) / 512 →
    bn < MAXFILE ∧ dataPtr img (inodeAt img i) bn ≠ 0
  /-- no block is referenced twice -/
  once : ∀ i i' r r' js js', 1 ≤ i → i ≤ n → 1 ≤ i' → i' ≤ n → ValidPos r js → ValidPos r' js' →
    tree img (inodeAt img i) r js ≠ 0 →
    tree img (inodeAt img i) r js = tree img (inodeAt img i') r' js' → i = i' ∧ r = r' ∧ js = js'
  /-- the blocks that are referenced are marked -/
  used : ∀ i r js, 1 ≤ i → i ≤ n → ValidPos r js → tree img (inodeAt img i) r js ≠ 0 →
    (mounted img).used (tree img (inodeAt img i) r js) = true
  /-- the metadata blocks are marked -/
  meta_used : ∀ b < metablocks, (mounted img).used b = true

/-! ### Positions and blocks -/

section Roles

variable {d : Disk} {a : Dinode} {r r' : ℕ} {js js' : List ℕ}

/-- What the block at a position is used for. -/
def roleOf (r : ℕ) : List ℕ → Option ℕ
  | [] => if r = 10 then none else some r
  | j :: _ => some (10 + j)

/-- The positions below the entries of `addrs` that `mkfs` uses. -/
theorem pos_cases (h : ValidPos r js) (hr : r ≤ 10) :
    js = [] ∨ ∃ j < 128, r = 10 ∧ js = [j] := by
  have hdepth := h.depth
  cases js with
  | nil => exact Or.inl rfl
  | cons j js =>
    have hlt : 10 ≤ r := by
      by_contra hlt
      simp [depth, show r < 10 by omega] at hdepth
    obtain rfl : r = 10 := by omega
    have hnil : js = [] := by
      refine List.length_eq_zero_iff.mp ?_
      simpa [depth] using hdepth
    exact Or.inr ⟨j, h.head, rfl, by rw [hnil]⟩

/-- The positions in the tree of an inode and the roles of its blocks. -/
theorem tree_eq_blk (h : ValidPos r js) (hr : r ≤ 10) :
    RoleOk (roleOf r js) ∧ tree d a r js = blk d a (roleOf r js) := by
  rcases pos_cases h hr with rfl | ⟨j, hj, rfl, rfl⟩
  · by_cases h10 : r = 10
    · subst h10
      exact ⟨trivial, rfl⟩
    · rw [roleOf, if_neg h10]
      exact ⟨roleOk_some (by omega), (blk_direct (by omega)).symm⟩
  · refine ⟨roleOk_some (by omega), ?_⟩
    rw [roleOf, blk_indirect (by omega) (by omega), Nat.add_sub_cancel_left]
    rfl

/-- Different positions have different roles. -/
theorem roleOf_inj (h : ValidPos r js) (h' : ValidPos r' js') (hr : r ≤ 10) (hr' : r' ≤ 10)
    (he : roleOf r js = roleOf r' js') : r = r' ∧ js = js' := by
  rcases pos_cases h hr with rfl | ⟨j, hj, rfl, rfl⟩ <;>
    rcases pos_cases h' hr' with rfl | ⟨j', hj', rfl, rfl⟩ <;>
    simp only [roleOf] at he
  · split_ifs at he <;> simp_all
  · split_ifs at he
    simp at he
    omega
  · split_ifs at he
    simp at he
    omega
  · simp at he
    exact ⟨rfl, by rw [he]⟩

/-- Nothing is below the entries that `mkfs` does not use. -/
theorem tree_eq_zero (h : a.addr r = 0) (js : List ℕ) : tree d a r js = 0 := by
  induction js with
  | nil => exact h
  | cons j js ih => rw [tree, if_pos ih]

end Roles

/-! ### The image of a list of files -/

section Image

variable {files : List HostFile} {m : State} {c : ℕ → List UInt8}

/-- The kernel reads the superblock that `mkfs` wrote. -/
theorem Built.sb_mounted (h : Built files m c) : (mounted (finish m)).sb = sb := by
  have hone : finish m 1 = sb.toBlock := by
    rw [finish, Function.update_of_ne (by omega), fixRoot, winode_disk_one, h.rootOk.super]
  have hsb : (mounted (finish m)).sb = Superblock.ofBlock (finish m 1) := rfl
  rw [hsb, hone, Superblock.ofBlock_toBlock] <;> simp only [sb, size, nblocks, ninodes, nlog] <;>
    decide

/-- The bitmap marks a prefix of the blocks. -/
theorem Built.used_mounted (h : Built files m c) (hn : files.length ≤ 206)
    (hused : m.usedblocks < 4096) {b : ℕ} (hb : b < size) :
    (mounted (finish m)).used b = decide (b < m.usedblocks) := by
  have hinode := h.inode
  have hdisk : (mounted (finish m)).disk = finish m := rfl
  have hn200 : sb.ninodes = 200 := rfl
  have hb : b < 25045 := hb
  rw [Sys.used, h.sb_mounted, hdisk, hn200, bblock_eq]
  simp only [BPB, BSIZE]
  rcases Nat.lt_or_ge b 4096 with hlt | hge
  · rw [show b / 4096 + 200 / 8 + 3 = 28 by omega, show b % (512 * 8) = b by omega, finish,
      Function.update_self, Block.bit_usedPrefix (by omega) hlt]
  · have hzero : finish m (b / 4096 + 200 / 8 + 3) = Block.zero := by
      rw [finish, Function.update_of_ne (by omega), fixRoot,
        winode_disk_of_bitmap (by decide) (by omega)]
      exact h.rootOk.bitmap (by omega) _ (by omega) (by omega)
    rw [hzero, Block.bit_zero]
    exact (decide_eq_false (by omega)).symm

/-- The inodes of the image: only the size of the root directory has changed. -/
theorem Built.inodeAt_mounted (h : Built files m c) (hn : files.length ≤ 206) {i : ℕ}
    (hi : i ≤ files.length + 1) :
    inodeAt (finish m) i =
      if i = 1 then (m.rinode 1).setSize ((16 * (files.length + 2) / 512 + 1) * 512)
      else m.rinode i := by
  have hroot := h.size_root
  rw [inodeAt_finish (by omega), rinode_fixRoot (by omega), hroot]

/-- The fix of the size does not change the tree of the root directory. -/
theorem Built.tree_mounted (h : Built files m c) (hn : files.length ≤ 206) {i : ℕ}
    (hi : i ≤ files.length + 1) (r : ℕ) (js : List ℕ) :
    tree (finish m) (inodeAt (finish m) i) r js = tree (finish m) (m.rinode i) r js := by
  rw [h.inodeAt_mounted hn hi]
  split_ifs with h1
  · rw [tree_setSize, h1]
  · rfl

theorem Built.dataPtr_mounted (h : Built files m c) (hn : files.length ≤ 206) {i : ℕ}
    (hi : i ≤ files.length + 1) (bn : ℕ) :
    dataPtr (finish m) (inodeAt (finish m) i) bn = dataPtr (finish m) (m.rinode i) bn :=
  h.tree_mounted hn hi _ _

/-- A pointer that is set is that of a block that `iappend` keeps track of. -/
theorem Built.role_mounted (h : Built files m c) (hn : files.length ≤ 206) {i r : ℕ}
    {js : List ℕ} (hi : i ≤ files.length + 1) (hpos : ValidPos r js)
    (hne : tree (finish m) (inodeAt (finish m) i) r js ≠ 0) :
    r ≤ 10 ∧ RoleOk (roleOf r js) ∧ tree (finish m) (inodeAt (finish m) i) r js =
      blk (finish m) (m.rinode i) (roleOf r js) := by
  have hinode := h.inode
  rw [h.tree_mounted hn hi] at hne ⊢
  have hr : r ≤ 10 := by
    by_contra hr
    exact hne (tree_eq_zero (h.img_finish.top i (by omega) r (by omega)) js)
  exact ⟨hr, tree_eq_blk hpos hr⟩

/-- Every file of the image, the root directory included, has at most 138 blocks. -/
theorem Built.length_le (h : Built files m c) (hn : files.length ≤ 206)
    (hlen : ∀ f ∈ files, f.content.length ≤ 138 * 512) {i : ℕ} (hi : 1 ≤ i)
    (hi' : i ≤ files.length + 1) : (c i).length ≤ 138 * 512 := by
  by_cases h1 : i = 1
  · rw [h1, h.root]
    omega
  · have hj : files[i - 2]? = some files[i - 2] := List.getElem?_eq_getElem (by omega)
    have hc := h.content _ _ hj
    rw [show i - 2 + 2 = i by omega] at hc
    rw [hc]
    exact hlen _ (List.getElem_mem _)

/-- **The image is well formed**, if the files have at most 138 blocks, the inodes fit, and the
entries do not fill the last block of the root directory. -/
theorem Built.imageOk (h : Built files m c) (hused : m.usedblocks < 4096)
    (hn : files.length ≤ 206) (hlen : ∀ f ∈ files, f.content.length ≤ 138 * 512)
    (hroot : (files.length + 2) % 32 ≠ 0) : ImageOk (finish m) (files.length + 1) := by
  have hinode := h.inode
  have himg := h.img_finish
  have hF := h.used
  have hbase := himg.base
  refine ⟨?_, ?_, ?_, ?_, ?_⟩
  · intro i _ hi
    rw [iblock_eq]
    simp only [ninodes, IPB, BSIZE]
    omega
  · intro i hi hi' bn hbn
    have hle := h.length_le hn hlen hi hi'
    -- the size is that of the contents, or less than a block more
    have hin : bn * 512 < (c i).length := by
      rw [h.inodeAt_mounted hn hi'] at hbn
      split_ifs at hbn with h1
      · have hbn : bn < ((16 * (files.length + 2) / 512 + 1) * 512 + 511) / 512 := hbn
        rw [h1, h.root]
        omega
      · rw [himg.size i (by omega)] at hbn
        omega
    rw [h.dataPtr_mounted hn hi', maxfile_eq]
    exact ⟨by omega, himg.mapped i (by omega) bn (by omega) hin⟩
  · intro i i' r r' js js' _ hi _ hi' hpos hpos' hne he
    obtain ⟨hr, hok, heq⟩ := h.role_mounted hn hi hpos hne
    obtain ⟨hr', hok', heq'⟩ := h.role_mounted hn hi' hpos' (he ▸ hne)
    rw [heq] at hne he
    rw [heq'] at he
    obtain ⟨hii, hrole⟩ := himg.inj i (by omega) i' (by omega) _ _ hok hok' hne he
    exact ⟨hii, roleOf_inj hpos hpos' hr hr' hrole⟩
  · intro i r js _ hi hpos hne
    obtain ⟨-, hok, heq⟩ := h.role_mounted hn hi hpos hne
    have hrange := himg.range i (by omega) _ hok (heq ▸ hne)
    rw [heq, h.used_mounted hn hused (by simp only [size]; omega), decide_eq_true_eq]
    omega
  · intro b hb
    rw [metablocks_eq] at hb
    rw [h.used_mounted hn hused (by simp only [size]; omega), decide_eq_true_eq]
    omega

/-- When the entries fill their blocks, the size fix-up makes a hole. -/
theorem Built.root_hole (h : Built files m c) (hn : files.length ≤ 206)
    (hroot : (files.length + 2) % 32 = 0) :
    (inodeAt (finish m) 1).size = ((files.length + 2) / 32 + 1) * 512 ∧
      dataPtr (finish m) (inodeAt (finish m) 1) ((files.length + 2) / 32) = 0 := by
  have hsize : ((m.rinode 1).setSize ((16 * (files.length + 2) / 512 + 1) * 512)).size =
    (16 * (files.length + 2) / 512 + 1) * 512 := rfl
  have hdir : dataPtr (finish m) (m.rinode 1) ((files.length + 2) / 32) =
    (m.rinode 1).addr ((files.length + 2) / 32) := blk_direct (by omega)
  rw [h.dataPtr_mounted hn (by omega), hdir, h.inodeAt_mounted hn (by omega), if_pos rfl, hsize]
  refine ⟨by omega, h.rootOk.tight _ (by omega) ?_⟩
  rw [h.size_root]
  omega

end Image

/-! ### Lists of files -/

section Files

variable {files : List HostFile}

/-- Every run of `mkfs` on these files that does not fail an assertion makes a well-formed image.
The root directory and the files are the inodes from number 1 on. -/
def MakesImage (files : List HostFile) : Prop :=
  ∀ junk, match main junk files with
    | .ok img => ImageOk img (files.length + 1)
    | .error .assertion => True
    | .error .undefined => False

/-- **The lists of files for which the image is well formed.** -/
theorem mkfs_image_iff (files : List HostFile) (hacc : main zeroJunk files ≠ .error .assertion) :
    MakesImage files ↔ files.length ≤ 206 ∧ (∀ f ∈ files, f.content.length ≤ 138 * 512) ∧
      (files.length + 2) % 32 ≠ 0 := by
  constructor
  · intro himage
    have hok := himage zeroJunk
    cases hmain : main zeroJunk files with
    | error e =>
      rw [hmain] at hok hacc
      cases e with
      | assertion => exact absurd rfl hacc
      | undefined => exact hok.elim
    | ok img =>
      rw [hmain] at hok
      have hok : ImageOk img (files.length + 1) := hok
      obtain ⟨m, hbuild, hused, rfl⟩ := main_cases hmain
      have hn : files.length ≤ 206 := by
        have := hok.stored (files.length + 1) (by omega) le_rfl
        rw [iblock_eq] at this
        simp only [ninodes, IPB, BSIZE] at this
        omega
      have heq := (usedblocks_build hbuild).1
      obtain ⟨c, hc⟩ := built_of_build hbuild (by omega) (by omega) (Or.inl fun _ _ => rfl)
      refine ⟨hn, fun f hf => ?_, fun hroot => ?_⟩
      · obtain ⟨j, hj⟩ := List.mem_iff_getElem?.mp hf
        have hjlt := (List.getElem?_eq_some_iff.mp hj).1
        have hinode := hc.inode
        by_contra hgt
        have hsize : (inodeAt (finish m) (j + 2)).size = f.content.length := by
          rw [hc.inodeAt_mounted hn (by omega), if_neg (by omega), hc.img.size _ (by omega),
            hc.content j f hj]
        have hmap := (hok.mapped (j + 2) (by omega) (by omega) 138 (by omega)).2
        rw [hc.dataPtr_mounted hn (by omega)] at hmap
        exact hmap (hc.img_finish.dataPtr_138 (by omega))
      · obtain ⟨hsize, hhole⟩ := hc.root_hole hn hroot
        refine (hok.mapped 1 le_rfl (by omega) ((files.length + 2) / 32) ?_).2 hhole
        rw [hsize]
        omega
  · rintro ⟨hn, hlen, hroot⟩ junk
    have hruns : ∀ f ∈ files, f.content.length ≤ 266 * 512 ∧
        SameJunk junk zeroJunk f.content.length := fun f hf =>
      ⟨(hlen f hf).trans (by omega), Or.inr (hlen f hf)⟩
    rcases build_runs (by omega) hruns with ⟨m, c, hbuild, -, hc, -⟩ | ⟨-, hbuild, -⟩
    · rw [main_eq hbuild]
      split_ifs with hused
      · trivial
      · exact hc.imageOk (by omega) hn hlen hroot
    · rw [main, hbuild]
      trivial

/-- An image with one file. -/
theorem mkfs_image_hello : main zeroJunk [hello] ≠ .error .assertion ∧ MakesImage [hello] :=
  ⟨main_hello, (mkfs_image_iff [hello] main_hello).mpr ⟨by decide, by decide, by decide⟩⟩

/-- Empty files with the names `A`, `B` and so on. -/
def emptyFiles (n : ℕ) : List HostFile :=
  (List.range n).map fun k => ⟨[UInt8.ofNat (65 + k)], [], by simp⟩

/-- **With 30 files the root directory has a hole**: its size is two blocks, and it has one. -/
theorem mkfs_root_hole : ∃ img, main zeroJunk (emptyFiles 30) = .ok img ∧
    (inodeAt img 1).size = 1024 ∧ dataPtr img (inodeAt img 1) 1 = 0 := by
  obtain ⟨m, c, -, hc, hmain⟩ : ∃ m c, build zeroJunk (emptyFiles 30) = .ok m ∧
      Built (emptyFiles 30) m c ∧ main zeroJunk (emptyFiles 30) = .ok (finish m) :=
    main_ok (fun _ _ => rfl) (by decide) (by decide) (by decide) (by decide)
  exact ⟨finish m, hmain, hc.root_hole (by decide) (by decide)⟩

end Files

end Mkfs

end Xv6
