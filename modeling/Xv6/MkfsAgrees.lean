import Xv6.InodeCache
import Xv6.MkfsAccepts
import Xv6.MkfsBlocks
import Xv6.OutsideTrans

/-!
# The Image Builder and the Kernel

Whether the kernel reads back from an image what `mkfs` was given. `iappend` and `bmap` agree on
the direct blocks and on the first singly-indirect block of an inode. They do not agree past that:
`iappend` takes `NINDIRECT` for the number of entries of one indirect block, while `bmap` finds
half of them below a second one. The other disagreement is about inodes: `mkfs` allocates more of
them than there is room for before the bitmap, which it writes last.

## Main results

* `readFile_iff`: what the kernel reads from an image.
* `mkfs_agrees_iff`: **the lists of files that are read back.**
* `mkfs_agrees_hello`: such a list.
* `mkfs_disagrees_139`: a file of 139 blocks is not read back.
-/

namespace Xv6

namespace Mkfs

/-! ### Reading a file from an image -/

/-- The inode in an image. -/
def inodeAt (d : Disk) (i : ℕ) : Dinode := getDinode (d (IBLOCK i)) (i % IPB)

/-- Read the whole file with this inode number. -/
def readFile (inum : ℕ) : Fs (Option (List UInt8)) := do
  let ip ← iget inum
  ilock ip
  let v ← getInode ip
  readi ip 0 v.din.size

section ReadFile

variable {md : Mode} {p inum : ℕ} {img : Disk} {bs : List UInt8}

/-- The state in which the file is read. -/
def opened (img : Disk) (inum : ℕ) : Sys :=
  (mounted img).setInode 0 ⟨inum, 1, true, true, inodeAt img inum⟩

/-- The first `iget` takes the first entry. -/
theorem run_iget_mounted :
    Prog.run (exec md p) (iget inum) (mounted img) =
      .ok (0, (mounted img).setInode 0 ⟨inum, 1, false, false, Dinode.zero⟩) := by
  have hnone : (mounted img).findCached inum = none :=
    List.find?_eq_none.mpr fun x _ => by simp [mounted, noInode]
  have hzero : (mounted img).findEmpty = some 0 := rfl
  rw [iget, run_perform]
  simp only [exec]
  rw [hnone]
  simp only [hzero]
  rfl

/-- The first `ilock` reads the inode from the image. -/
theorem run_ilock_mounted :
    Prog.run (exec md p) (ilock 0)
        ((mounted img).setInode 0 ⟨inum, 1, false, false, Dinode.zero⟩) =
      if (inodeAt img inum).type = 0 then .error (.panic .ilockNoType)
      else .ok ((), opened img inum) := by
  rw [run_ilock_load (by simp [setInode_icache]) (by simp [setInode_icache])
    (by simp [setInode_icache]), setInode_icache, if_pos rfl, setInode_setInode]
  rfl

/-- What `readi` does with a whole file. -/
theorem run_readi_opened (hdev : (inodeAt img inum).type ≠ T_DEV) :
    Prog.run (exec md p) (readi 0 0 (inodeAt img inum).size) (opened img inum) =
      (Prog.run (exec md p) (readiLoop 0 (inodeAt img inum).size 0 (inodeAt img inum).size)
        (opened img inum)).bind fun x => .ok (some x.1, x.2) := by
  have hdin : ((opened img inum).icache 0).din = inodeAt img inum := by
    rw [opened, setInode_icache, if_pos rfl]
  have hsize : (inodeAt img inum).size < 2 ^ 32 := (fits_getDinode _ _).size
  rw [readi, Prog.run_bind, run_getInode, Prog.ok_bind, hdin, if_neg hdev, if_neg (by omega),
    Nat.zero_add, Nat.mod_eq_of_lt hsize, if_neg (lt_irrefl _), Prog.run_bind]
  rfl

/-- **What the kernel reads from an image**: the bytes of the array, if all of its blocks are
mapped. -/
theorem readFile_iff (hdev : (inodeAt img inum).type ≠ T_DEV) :
    (∃ t, Fs.run md p (readFile inum) (mounted img) = .ok (some bs, t)) ↔
      (inodeAt img inum).type ≠ 0 ∧
      (∀ k < (inodeAt img inum).size, k / 512 < MAXFILE ∧
        dataPtr img (inodeAt img inum) (k / 512) ≠ 0) ∧
      bs = fileSlice img (inodeAt img inum) 0 (inodeAt img inum).size := by
  have hdin : ((opened img inum).icache 0).din = inodeAt img inum := by
    rw [opened, setInode_icache, if_pos rfl]
  have hdisk : (opened img inum).disk = img := rfl
  rw [Fs.run, readFile, Prog.run_bind, run_iget_mounted, Prog.ok_bind, Prog.run_bind,
    run_ilock_mounted]
  by_cases htype : (inodeAt img inum).type = 0
  · rw [if_pos htype]
    simp [htype]
  rw [if_neg htype, Prog.ok_bind, Prog.run_bind, run_getInode, Prog.ok_bind, hdin,
    run_readi_opened hdev]
  constructor
  · rintro ⟨t, hrun⟩
    cases hloop : Prog.run (exec md p) (readiLoop 0 (inodeAt img inum).size 0
      (inodeAt img inum).size) (opened img inum) with
    | error e =>
      rw [hloop] at hrun
      cases hrun
    | ok x =>
      obtain ⟨bs', t'⟩ := x
      have hmap : ∀ k < (inodeAt img inum).size, k / 512 < MAXFILE ∧
          dataPtr img (inodeAt img inum) (k / 512) ≠ 0 := by
        intro k hk
        have := run_readiLoop_closed rfl le_rfl hloop (Nat.zero_le k) (by omega)
        rwa [hdin, hdisk] at this
      refine ⟨htype, hmap, ?_⟩
      rw [run_readiLoop le_rfl (by rw [hdin, hdisk]; intro k _ hk; exact hmap k (by omega)),
        hdin, hdisk] at hrun
      cases hrun
      rfl
  · rintro ⟨-, hmap, rfl⟩
    refine ⟨opened img inum, ?_⟩
    rw [run_readiLoop le_rfl (by rw [hdin, hdisk]; intro k _ hk; exact hmap k (by omega)), hdin,
      hdisk]
    rfl

end ReadFile

/-! ### The finished image -/

section Image

variable {junk : ℕ → ℕ → ℕ} {files : List HostFile} {m : State} {img : Disk} {n : ℕ}

/-- `fixRoot` and `balloc` write the sector of the root inode and the first bitmap block. -/
def finish (m : State) : Disk :=
  Function.update (fixRoot m).disk 28 (Block.usedPrefix m.usedblocks)

/-- `mkfs` fails at the bitmap or finishes the image. -/
theorem main_eq (hbuild : build junk files = .ok m) :
    main junk files =
      if 4096 ≤ m.usedblocks then .error .assertion else .ok (finish m) := by
  rw [main, hbuild]
  simp only [bind, Except.bind, balloc]
  split_ifs <;> rfl

/-- What `mkfs` has done when it returns. -/
theorem main_cases (hrun : main junk files = .ok img) :
    ∃ m, build junk files = .ok m ∧ m.usedblocks < 4096 ∧ img = finish m := by
  cases hbuild : build junk files with
  | error e =>
    rw [main, hbuild] at hrun
    cases hrun
  | ok m =>
    rw [main_eq hbuild] at hrun
    split_ifs at hrun with h
    cases hrun
    exact ⟨m, rfl, by omega, rfl⟩

theorem finish_of_ge {b : ℕ} (hb : 35 ≤ b) : finish m b = m.disk b := by
  rw [finish, Function.update_of_ne (by omega), fixRoot, winode_disk_of_ge (by decide) hb]

/-- The size of the root directory is rounded up. -/
theorem rinode_fixRoot (hsize : (m.rinode 1).size < 2 ^ 31) (i : ℕ) :
    (fixRoot m).rinode i =
      if i = 1 then (m.rinode 1).setSize (((m.rinode 1).size / 512 + 1) * 512)
      else m.rinode i := by
  have hfits : ((m.rinode 1).setSize (((m.rinode 1).size / 512 + 1) * 512)).Fits := by
    refine ⟨?_, (fits_getDinode _ _).addr⟩
    have : ((m.rinode 1).setSize (((m.rinode 1).size / 512 + 1) * 512)).size =
      ((m.rinode 1).size / 512 + 1) * 512 := rfl
    omega
  exact rinode_winode hfits

variable {i j p : ℕ} {c : ℕ → List UInt8}

/-- The inodes before the bitmap. -/
theorem inodeAt_finish (hi : i < 208) : inodeAt (finish m) i = (fixRoot m).rinode i := by
  have hblk : IBLOCK i ≠ 28 := by
    rw [iblock_eq]
    omega
  rw [inodeAt, finish, Function.update_of_ne hblk]
  rfl

/-- The inodes that are in the sector of the bitmap. -/
theorem inodeAt_bitmap (h : img 28 = Block.usedPrefix n) (hi : i = 208 + j) (hj : j < 8) :
    inodeAt img i = getDinode (Block.usedPrefix n) j := by
  have hslot : i % IPB = j := by
    simp only [IPB, BSIZE]
    omega
  rw [inodeAt, iblock_eq, hslot, show i / 8 + 2 = 28 by omega, h]

theorem size_getDinode (b : Block) (j : ℕ) : (getDinode b j).size = b.word (16 * j + 2) := rfl

theorem type_getDinode (b : Block) (j : ℕ) :
    (getDinode b j).type = BitVec.ofNat 16 (b.word (16 * j)) := rfl

/-- Inode 208 is in the first words of the bitmap. Its size is not zero once 65 blocks are used,
and then it has a hole or is too large. -/
theorem readFile_208 {md : Mode} {bs : List UInt8} (h : img 28 = Block.usedPrefix n) (hn : 32 ≤ n)
    (hn' : n < 4096) :
    (∃ t, Fs.run md p (readFile 208) (mounted img) = .ok (some bs, t)) ↔ n ≤ 64 ∧ bs = [] := by
  have ha : inodeAt img 208 = getDinode (Block.usedPrefix n) 0 :=
    inodeAt_bitmap h (by omega) (by omega)
  have htype : (getDinode (Block.usedPrefix n) 0).type = 65535 := by
    rw [type_getDinode, Block.word_usedPrefix_of_ge (by omega) (by omega)]
    rfl
  have hsize : (getDinode (Block.usedPrefix n) 0).size = (Block.usedPrefix n).word 2 :=
    size_getDinode _ _
  rw [readFile_iff (by rw [ha, htype]; decide), ha, htype, hsize]
  constructor
  · rintro ⟨-, hmap, rfl⟩
    have hle : n ≤ 64 := by
      by_contra hgt
      have h2 : 0 < (Block.usedPrefix n).word 2 :=
        Nat.pos_of_ne_zero (Block.word_usedPrefix_ne_zero (by omega) (by omega))
      have h0 := (hmap 0 h2).2
      have hptr : dataPtr img (getDinode (Block.usedPrefix n) 0) (0 / 512) =
          (Block.usedPrefix n).word 3 := blk_direct (show 0 < 10 by omega)
      have h96 : 96 < n := by
        by_contra hle
        rw [hptr, Block.word_usedPrefix_of_le (by omega) (by omega)] at h0
        exact h0 rfl
      have hbig := (hmap (2 ^ 32 - 2) (by
        rw [Block.word_usedPrefix_of_ge (by omega) (by omega)]
        omega)).1
      rw [maxfile_eq] at hbig
      omega
    refine ⟨hle, ?_⟩
    rw [Block.word_usedPrefix_of_le (by omega) (by omega)]
    rfl
  · rintro ⟨hle, rfl⟩
    rw [Block.word_usedPrefix_of_le (by omega) (by omega)]
    refine ⟨by decide, fun k hk => absurd hk (Nat.not_lt_zero k), rfl⟩

/-- Inode 209 is in words of the bitmap that are zero as long as inode 208 is empty. -/
theorem readFile_209 {md : Mode} {bs : List UInt8} (h : img 28 = Block.usedPrefix n) (hn : n ≤ 64) :
    ¬ ∃ t, Fs.run md p (readFile 209) (mounted img) = .ok (some bs, t) := by
  have ha : inodeAt img 209 = getDinode (Block.usedPrefix n) 1 :=
    inodeAt_bitmap h (by omega) (by omega)
  have htype : (getDinode (Block.usedPrefix n) 1).type = 0 := by
    rw [type_getDinode, Block.word_usedPrefix_of_le (by omega) (by omega)]
    rfl
  rw [readFile_iff (by rw [ha, htype]; decide), ha, htype]
  exact fun h => h.1 rfl

theorem Built.img_finish (h : Built files m c) :
    Img m.freeinode m.freeblock (finish m) m.rinode c :=
  h.img.low fun _ hb => finish_of_ge hb

theorem Built.size_root (h : Built files m c) : (m.rinode 1).size = 16 * (files.length + 2) := by
  have hinode := h.inode
  rw [h.img.size 1 (by omega), h.root]

/-- The second singly-indirect pointer is never set. -/
theorem Img.dataPtr_138 {F : ℕ} {d : Disk} {D : ℕ → Dinode} (h : Img n F d D c) (hi : i < n) :
    dataPtr d (D i) 138 = 0 := by
  have hpath : pathOf 138 = (11, [0]) := by decide
  rw [dataPtr, hpath, tree, tree, if_pos (h.top i hi 11 le_rfl)]

/-- A file is read back if and only if its blocks are direct blocks and blocks of the first
singly-indirect block. -/
theorem readFile_built {md : Mode} {f : HostFile} (h : Built files m c)
    (hn : files.length + 2 ≤ 264) (hf : files[j]? = some f) (hj : j + 2 < 208) :
    (∃ t, Fs.run md p (readFile (j + 2)) (mounted (finish m)) = .ok (some f.content, t)) ↔
      f.content.length ≤ 138 * 512 := by
  have hlt : j + 2 < m.freeinode := by
    have := (List.getElem?_eq_some_iff.mp hf).1
    rw [h.inode]
    omega
  have hroot := h.size_root
  have ha : inodeAt (finish m) (j + 2) = m.rinode (j + 2) := by
    rw [inodeAt_finish hj, rinode_fixRoot (by omega), if_neg (by omega)]
  have himg := h.img_finish
  have htype := himg.type (j + 2) (by omega) hlt
  have hsize := himg.size (j + 2) hlt
  have hmapped := himg.mapped (j + 2) hlt
  have hbytes := himg.bytes (j + 2) hlt
  rw [h.content j f hf] at hsize hmapped hbytes
  rw [readFile_iff (by rw [ha, htype]; decide), ha, htype, hsize]
  constructor
  · rintro ⟨-, hmap, -⟩
    by_contra hgt
    have hne := (hmap (138 * 512) (by omega)).2
    rw [show 138 * 512 / 512 = 138 by omega] at hne
    exact hne (himg.dataPtr_138 hlt)
  · intro hle
    refine ⟨by decide, fun k hk => ⟨by rw [maxfile_eq]; omega, hmapped _ (by omega) (by omega)⟩,
      ?_⟩
    refine List.ext_getElem (by simp) fun k h1 h2 => ?_
    have hb := hbytes k h1 (by omega)
    rw [List.getD_eq_getElem _ _ h1] at hb
    simp only [fileSlice, List.getElem_map, List.getElem_range, Nat.zero_add, fileByte, BSIZE]
    exact hb.symm

end Image

/-! ### Lists of files -/

section Agree

variable {files : List HostFile}

/-- The kernel reads each file back from the image. The files are the inodes from number 2 on. -/
def ReadsBack (img : Disk) (files : List HostFile) : Prop :=
  ∀ p j f, files[j]? = some f →
    ∃ t, Fs.run .real p (readFile (j + 2)) (mounted img) = .ok (some f.content, t)

/-- Every run of `mkfs` on these files that does not fail an assertion makes an image from which
the kernel reads the files back. -/
def Agrees (files : List HostFile) : Prop :=
  ∀ junk, match main junk files with
    | .ok img => ReadsBack img files
    | .error .assertion => True
    | .error .undefined => False

/-- All uninitialised elements happen to be zero. -/
def zeroJunk : ℕ → ℕ → ℕ := fun _ _ => 0

/-- The number of blocks that `mkfs` marks in the bitmap. -/
theorem usedblocks_eq {m : State} (h : build zeroJunk files = .ok m) (hn : files.length + 2 ≤ 264)
    (hm : m.usedblocks < 4096) (hle : ∀ f ∈ files, f.content.length ≤ 138 * 512) :
    m.usedblocks = blocksUsed files := by
  have heq := (usedblocks_build h).1
  exact heq.trans (freeblock_build h hn (by omega) hle)

/-- What it takes for the inodes that are in the sector of the bitmap. -/
theorem readsBack_bitmap {img : Disk} {n : ℕ} (h : img 28 = Block.usedPrefix n) (hn : 32 ≤ n)
    (hn' : n < 4096) (hread : ReadsBack img files) (hlen : 207 ≤ files.length) :
    files.length = 207 ∧ (∀ f, files[206]? = some f → f.content = []) ∧ n ≤ 64 := by
  have hnil : ∀ f, files[206]? = some f → n ≤ 64 ∧ f.content = [] := fun f hf =>
    (readFile_208 h hn hn').mp (hread 0 206 f hf)
  have h64 : n ≤ 64 := (hnil files[206] (List.getElem?_eq_getElem (by omega))).1
  refine ⟨?_, fun f hf => (hnil f hf).2, h64⟩
  by_contra hne
  exact readFile_209 h h64 (hread 0 207 files[207] (List.getElem?_eq_getElem (by omega)))

/-- **The lists of files that are read back**: files of at most 138 blocks, and no more of them
than there is room for inodes before the bitmap. A further file is read back if it is empty and
the bitmap, in which its inode is then found, has no bits set where the size is. -/
theorem mkfs_agrees_iff (files : List HostFile)
    (hacc : main zeroJunk files ≠ .error .assertion) :
    Agrees files ↔ (∀ f ∈ files, f.content.length ≤ 138 * 512) ∧
      (files.length ≤ 206 ∨ files.length = 207 ∧
        (∀ f, files[206]? = some f → f.content = []) ∧ blocksUsed files ≤ 64) := by
  constructor
  · intro hagrees
    have hread := hagrees zeroJunk
    cases hmain : main zeroJunk files with
    | error e =>
      rw [hmain] at hread hacc
      cases e with
      | assertion => exact absurd rfl hacc
      | undefined => exact hread.elim
    | ok img =>
      rw [hmain] at hread
      have hread : ReadsBack img files := hread
      obtain ⟨m, hbuild, hused, rfl⟩ := main_cases hmain
      obtain ⟨heq, hge⟩ := usedblocks_build hbuild
      have hlen : files.length ≤ 206 ∨ files.length = 207 ∧
          (∀ f, files[206]? = some f → f.content = []) ∧ m.usedblocks ≤ 64 := by
        rcases Nat.lt_or_ge files.length 207 with hlt | hge'
        · exact Or.inl (by omega)
        · exact Or.inr (readsBack_bitmap (Function.update_self _ _ _) (by omega) hused hread hge')
      have hn : files.length + 2 ≤ 264 := by omega
      obtain ⟨c, hc⟩ := built_of_build hbuild hn (by omega) (Or.inl fun _ _ => rfl)
      have hsize : ∀ f ∈ files, f.content.length ≤ 138 * 512 := by
        intro f hf
        obtain ⟨j, hj⟩ := List.mem_iff_getElem?.mp hf
        rcases Nat.lt_or_ge (j + 2) 208 with hlt | hge'
        · exact (readFile_built hc hn hj hlt).mp (hread 0 j f hj)
        · have hjlt := (List.getElem?_eq_some_iff.mp hj).1
          obtain rfl : j = 206 := by omega
          have hnil : f.content = [] := by
            rcases hlen with h206 | ⟨-, hnil, -⟩
            · omega
            · exact hnil f hj
          rw [hnil]
          exact Nat.zero_le _
      rw [← usedblocks_eq hbuild hn hused hsize]
      exact ⟨hsize, hlen⟩
  · rintro ⟨hsize, hlen⟩ junk
    have hn : files.length + 2 ≤ 264 := by omega
    have hruns : ∀ f ∈ files, f.content.length ≤ 266 * 512 ∧
        SameJunk junk zeroJunk f.content.length := fun f hf =>
      ⟨(hsize f hf).trans (by omega), Or.inr (hsize f hf)⟩
    rcases build_runs hn hruns with ⟨m, c, hbuild, hbuild', hc, -⟩ | ⟨-, hbuild, -⟩
    · rw [main_eq hbuild]
      split_ifs with hused
      · trivial
      · have hge := (usedblocks_build hbuild).2
        have heq := hc.used
        intro p j f hj
        rcases Nat.lt_or_ge (j + 2) 208 with hlt | hge'
        · exact (readFile_built hc hn hj hlt).mpr (hsize f (List.mem_of_getElem? hj))
        · have hjlt := (List.getElem?_eq_some_iff.mp hj).1
          obtain rfl : j = 206 := by omega
          rcases hlen with h206 | ⟨-, hnil, h64⟩
          · omega
          · rw [← usedblocks_eq hbuild' hn (by omega) hsize] at h64
            exact (readFile_208 (Function.update_self _ _ _) (by omega) (by omega)).mpr
              ⟨h64, hnil f hj⟩
    · rw [main, hbuild]
      trivial

/-- The file `hello`. -/
def hello : HostFile := ⟨[104, 101, 108, 108, 111], [[104, 105, 10]], by decide⟩

/-- `mkfs` makes an image for a list of small files without slashes in their names. -/
theorem main_ok {junk : ℕ → ℕ → ℕ} (hj : ∀ i k, junk i k = 0) (hn : files.length + 2 ≤ 264)
    (hlen : ∀ f ∈ files, f.content.length ≤ 266 * 512) (hname : ∀ f ∈ files, slash ∉ f.name)
    (hbound : blockBound files < 4096) :
    ∃ m c, build junk files = .ok m ∧ Built files m c ∧ main junk files = .ok (finish m) := by
  rcases build_runs hn fun f hf => ⟨hlen f hf, Or.inl ⟨hj, rfl⟩⟩ with
    ⟨m, c, hbuild, -, hc, hle⟩ | ⟨⟨f, hf, hs⟩, -⟩
  · refine ⟨m, c, hbuild, hc, ?_⟩
    rw [main_eq hbuild, if_neg (by rw [hc.used]; omega)]
  · exact absurd hs (hname f hf)

theorem main_hello : main zeroJunk [hello] ≠ .error .assertion := by
  obtain ⟨m, c, -, -, hmain⟩ : ∃ m c, build zeroJunk [hello] = .ok m ∧ Built [hello] m c ∧
      main zeroJunk [hello] = .ok (finish m) :=
    main_ok (fun _ _ => rfl) (by decide) (by decide) (by decide) (by decide)
  rw [hmain]
  exact fun h => nomatch h

/-- An image with one file. -/
theorem mkfs_agrees_hello : main zeroJunk [hello] ≠ .error .assertion ∧ Agrees [hello] :=
  ⟨main_hello, (mkfs_agrees_iff [hello] main_hello).mpr ⟨by decide, by decide⟩⟩

/-- A file of `k` full blocks. -/
def fullFile (k : ℕ) : HostFile where
  name := [97]
  chunks := List.replicate k (List.replicate 512 7)
  chunk_ok x hx := by
    rw [List.eq_of_mem_replicate hx, List.length_replicate, Ne, List.replicate_eq_nil_iff]
    decide

theorem length_chunks_fullFile (k : ℕ) : (fullFile k).chunks.length = k :=
  List.length_replicate

theorem length_content_fullFile (k : ℕ) : (fullFile k).content.length = k * 512 := by
  rw [HostFile.content, fullFile, List.length_flatten, List.map_replicate, List.sum_replicate,
    List.length_replicate, nsmul_eq_mul, Nat.cast_id]

/-- **A file of 139 blocks is not read back**, although `mkfs` makes an image for it. -/
theorem mkfs_disagrees_139 : ∃ img, main zeroJunk [fullFile 139] = .ok img ∧
    ¬ ∃ t, Fs.run .real 0 (readFile 2) (mounted img) = .ok (some (fullFile 139).content, t) := by
  have hlen := length_content_fullFile 139
  obtain ⟨m, c, -, hc, hmain⟩ : ∃ m c, build zeroJunk [fullFile 139] = .ok m ∧
      Built [fullFile 139] m c ∧ main zeroJunk [fullFile 139] = .ok (finish m) := by
    refine main_ok (fun _ _ => rfl) (by decide) ?_ (by decide) ?_
    · intro f hf
      rw [List.mem_singleton.mp hf, hlen]
      omega
    · rw [blockBound, List.map_singleton, List.sum_singleton, length_chunks_fullFile]
      omega
  refine ⟨finish m, hmain, fun hread => ?_⟩
  have := (readFile_built hc (by decide) (rfl : [fullFile 139][0]? = some (fullFile 139))
    (by omega)).mp hread
  omega

end Agree

end Mkfs

end Xv6
