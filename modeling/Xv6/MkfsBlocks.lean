import Xv6.MkfsImage

/-!
# The Blocks of an Image

How many blocks `mkfs` marks as used. `iappend` takes a block where a file runs on into it, and the
indirect block with the first block below it; so the number depends on the lengths of the files
only. A file of at most 138 blocks has its data blocks, and one more if there are more than ten of
them. The root directory is a file of 16 bytes for each entry.

## Main results

* `Sharp.iappend`: **`iappend` takes the blocks of the longer file.**
* `freeblock_build`: the blocks of an image.
-/

namespace Xv6

namespace Mkfs

open Function (update update_self)

/-- The blocks of a file of `len` bytes, at most 138 blocks: its data blocks, and the indirect block
that it needs past the tenth of them. -/
def fileBlocks (len : ℕ) : ℕ := (len + 511) / 512 + if 5120 < len then 1 else 0

/-- The inode has exactly the blocks of a file of `len` bytes. -/
structure Sharp (d : Disk) (a : Dinode) (len : ℕ) : Prop where
  indirect : a.addr 10 ≠ 0 ↔ 5120 < len
  data : ∀ bn < 138, blk d a (some bn) ≠ 0 ↔ bn * 512 < len

section Count

variable {junk : ℕ → ℕ → ℕ} {n inum off off' len x fuel : ℕ} {m m' : State} {D : ℕ → Dinode}
  {c : ℕ → List UInt8} {p : List UInt8} {d d' : Disk} {a a' din din' : Dinode}

/-- Within a block the length does not matter. -/
theorem Sharp.grow {k : ℕ} (h : Sharp d a (off + 1)) (hk : 0 < k) (hle : off % 512 + k ≤ 512) :
    Sharp d a (off + k) :=
  ⟨h.indirect.trans (by omega), fun bn hbn => (h.data bn hbn).trans (by omega)⟩

/-- A new inode has no blocks. -/
theorem sharp_zero (h : ∀ r, a.addr r = 0) : Sharp d a 0 := by
  refine ⟨by simp [h], fun bn hbn => ?_⟩
  by_cases hlt : bn < 10
  · simp [blk_direct hlt, h]
  · simp [blk_indirect (not_lt.mp hlt) hbn, h]

/-- One more byte: the block at `off` is there, and no other one is new. -/
theorem Sharp.succ (h : Sharp d a off) (hind : a'.addr 10 ≠ 0 ↔ 5120 ≤ off)
    (hself : off / 512 < 138 → blk d' a' (some (off / 512)) ≠ 0)
    (hother : ∀ bn < 138, bn ≠ off / 512 → blk d' a' (some bn) = blk d a (some bn)) :
    Sharp d' a' (off + 1) := by
  refine ⟨hind.trans Nat.lt_succ_iff.symm, fun bn hbn => ?_⟩
  by_cases hne : bn = off / 512
  · subst hne
    exact iff_of_true (hself hbn) (by omega)
  · rw [hother bn hbn hne, h.data bn hbn]
    omega

/-- **A direct block** is taken at the start of a block. -/
theorem Sharp.setBlock (h : Sharp m.disk din off) (hlt : off / 512 < 10) (hpos : m.freeblock ≠ 0) :
    Sharp (setBlock (off / 512) din m).2.disk (setBlock (off / 512) din m).1 (off + 1) ∧
      (setBlock (off / 512) din m).2.freeblock =
        m.freeblock + if off % 512 = 0 then 1 else 0 := by
  have hdata := h.data (off / 512) (by omega)
  rw [blk_direct hlt] at hdata
  rw [Mkfs.setBlock]
  split_ifs with h0 h1 h1
  · refine ⟨h.succ ?_ ?_ ?_, rfl⟩
    · rw [Dinode.addr_setAddr _ (by omega), if_neg (by omega), h.indirect]
      omega
    · intro hbn
      rw [blk_setAddr hlt hbn, if_pos rfl]
      exact hpos
    · intro bn hbn hne
      rw [blk_setAddr hlt hbn, if_neg hne]
      rfl
  · exact absurd h0 (hdata.mpr (by omega))
  · exact absurd (hdata.mp h0) (by omega)
  · refine ⟨h.succ ?_ ?_ fun _ _ _ => rfl, rfl⟩
    · rw [h.indirect]
      omega
    · rw [blk_direct hlt]
      exact fun _ => h0

/-- **The indirect block** is taken after the tenth block; the pointers stay. -/
theorem Sharp.setIndirect (h : Sharp m.disk din off) (hle : 5120 ≤ off) (hpos : m.freeblock ≠ 0)
    (hzero : ∀ k, (m.disk m.freeblock).word k = 0) :
    (Mkfs.setBlock NDIRECT din m).1.addr 10 ≠ 0 ∧
      (Mkfs.setBlock NDIRECT din m).2.disk = m.disk ∧
      (∀ bn < 138, blk m.disk (Mkfs.setBlock NDIRECT din m).1 (some bn) =
        blk m.disk din (some bn)) ∧
      (Mkfs.setBlock NDIRECT din m).2.freeblock = m.freeblock + if off = 5120 then 1 else 0 := by
  have hind := h.indirect
  rw [Mkfs.setBlock]
  split_ifs with h0 h1 h1
  · refine ⟨?_, rfl, fun bn hbn => blk_setIndirect h0 hzero hbn, rfl⟩
    have hself : (din.setAddr 10 m.freeblock).addr 10 = m.freeblock :=
      (Dinode.addr_setAddr _ (by decide)).trans (if_pos rfl)
    exact hself ▸ hpos
  · exact absurd h0 (hind.mpr (by omega))
  · exact absurd (hind.mp h0) (by omega)
  · exact ⟨h0, rfl, fun _ _ => rfl, rfl⟩

/-- **An entry of the indirect block** is taken at the start of a block. -/
theorem Sharp.indirectEntry {v : ℕ} (h : Sharp m.disk a off) (hlt : off / 512 < 138)
    (hle : 10 ≤ off / 512) (hpos : m.freeblock ≠ 0) (hF : m'.freeblock < 2 ^ 32)
    (h10 : din.addr 10 ≠ 0)
    (hsame : ∀ bn < 138, blk m.disk din (some bn) = blk m.disk a (some bn))
    (hrun : indirectEntry v (off / 512 - 10) (din.addr 10) m = .ok (x, m')) :
    Sharp m'.disk din (off + 1) ∧ m'.freeblock = m.freeblock + if off % 512 = 0 then 1 else 0 := by
  have hk : off / 512 - 10 < 128 := by omega
  have hind : din.addr 10 ≠ 0 ↔ 5120 ≤ off := iff_of_true h10 (by omega)
  have hword : blk m.disk din (some (off / 512)) =
      (m.disk (din.addr 10)).word (off / 512 - 10) := by
    rw [blk_indirect hle hlt, if_neg h10]
  have hdata := h.data (off / 512) hlt
  rw [← hsame _ hlt, hword] at hdata
  simp only [Mkfs.indirectEntry] at hrun
  split_ifs at hrun with h1 h2 h3 h3
  · -- a new entry
    cases hrun
    have hset : ∀ bn < 138, blk (update m.disk (din.addr 10) ((m.disk (din.addr 10)).setWord
        (off / 512 - 10) m.freeblock)) din (some bn) =
          if bn = 10 + (off / 512 - 10) then m.freeblock else blk m.disk din (some bn) :=
      fun bn hbn => blk_setWord hk (lt_trans (Nat.lt_succ_self _) hF) rfl h10 hbn
    rw [if_pos (by by_contra hne; exact hdata.mpr (by omega) h3)]
    refine ⟨h.succ hind (fun hbn => ?_) (fun bn hbn hne => ?_), rfl⟩
    · exact (hset _ hbn).trans_ne (by rwa [if_pos (by omega)])
    · exact ((hset bn hbn).trans (if_neg (by omega))).trans (hsame bn hbn)
  · -- an entry that is set
    cases hrun
    rw [if_neg (by intro h0; exact absurd (hdata.mp h3) (by omega))]
    exact ⟨h.succ hind (fun _ => hword.trans_ne h3) fun bn hbn _ => hsame bn hbn, rfl⟩
  all_goals exact absurd hk h2

/-- **A round of `iappend` at the end of a file** takes the blocks that one more byte needs. -/
theorem Sharp.iappendBlock (h : Sharp m.disk din off) (hlt : off / 512 < 138)
    (hpos : m.freeblock ≠ 0) (hzero : ∀ k, (m.disk m.freeblock).word k = 0)
    (hF : m'.freeblock < 2 ^ 32)
    (hrun : iappendBlock junk inum din off m = .ok (x, din', m')) :
    Sharp m'.disk din' (off + 1) ∧
      m'.freeblock + fileBlocks off = m.freeblock + fileBlocks (off + 1) := by
  simp only [Mkfs.iappendBlock] at hrun
  split_ifs at hrun with h1 h2
  · -- a direct block
    have h2 : off / 512 < 10 := h2
    obtain ⟨hsharp, hcount⟩ := h.setBlock h2 hpos
    cases hrun
    refine ⟨hsharp, ?_⟩
    rw [hcount]
    simp only [fileBlocks]
    split_ifs <;> omega
  · -- a block below the indirect block, which may be new itself
    have h2 : 10 ≤ off / 512 := not_lt.mp h2
    obtain ⟨⟨y, u⟩, hent, hrun⟩ := bind_eq_ok.mp hrun
    cases hrun
    have hind := h.indirect
    obtain ⟨h10, hdisk, hsame, hfree⟩ := h.setIndirect (by omega) hpos hzero
    rw [← hdisk] at h hsame
    obtain ⟨hsharp, hcount⟩ := h.indirectEntry hlt h2 (by rw [hfree]; omega) hF h10 hsame hent
    refine ⟨hsharp, ?_⟩
    rw [hcount, hfree]
    simp only [fileBlocks]
    split_ifs <;> omega

/-- Only the pointers matter. -/
theorem Sharp.congr (h : Sharp d a len) (hsame : ∀ q, RoleOk q → blk d' a' q = blk d a q) :
    Sharp d' a' len := by
  refine ⟨?_, fun bn hbn => ?_⟩
  · have hnone : a'.addr 10 = a.addr 10 := hsame none trivial
    rw [hnone]
    exact h.indirect
  · rw [hsame _ (roleOk_some hbn)]
    exact h.data bn hbn

/-- **The loop takes the blocks of the longer file.** -/
theorem Sharp.iappendLoop (h : Sharp m.disk din off) (hopen : Open n D c inum din off m)
    (hi : inum < n) (hoff : (c inum).length = off) (hfuel : p.length ≤ fuel)
    (hF : m'.freeblock < 2 ^ 32) (hle : off + p.length ≤ 138 * 512)
    (hrun : iappendLoop junk inum fuel p din off m = .ok (din', off', m')) :
    Sharp m'.disk din' (off + p.length) ∧
      m'.freeblock + fileBlocks off = m.freeblock + fileBlocks (off + p.length) := by
  -- induction on the fuel: a round takes the blocks for its first byte, and the other bytes that
  -- it writes are in the same block
  induction fuel generalizing p din off m c with
  | zero =>
    obtain rfl : p = [] := List.length_eq_zero_iff.mp (by omega)
    cases hrun
    exact ⟨h, rfl⟩
  | succ fuel ih =>
    rw [Mkfs.iappendLoop] at hrun
    split_ifs at hrun with hp
    · subst hp
      cases hrun
      exact ⟨h, rfl⟩
    · obtain ⟨⟨x, a, u⟩, hblk, hrun⟩ := bind_eq_ok.mp hrun
      have hpos : 0 < p.length := List.length_pos_iff.mpr hp
      have hu : u.freeblock < 2 ^ 32 := (grew_iappendLoop hrun).le.trans_lt hF
      have hbase := Img.base hopen
      obtain ⟨hone, hcount⟩ := h.iappendBlock (by omega) (by omega)
        (fun k => by rw [Img.fresh hopen _ le_rfl, Block.word_zero]) hu hblk
      obtain ⟨n1, hn1⟩ : ∃ n1, n1 = min p.length ((off / 512 + 1) * 512 - off) := ⟨_, rfl⟩
      obtain ⟨hopen', hsame, -⟩ := hopen.round hi hoff hu (Or.inr (by omega)) hn1 hblk
      have hlen : (p.take n1).length = n1 := List.length_take_of_le (by omega)
      have hdrop : (p.drop n1).length = p.length - n1 := List.length_drop
      rw [← hn1] at hrun
      have hsharp : Sharp (u.wsect x ((u.disk x).blit (off - off / 512 * 512) (p.take n1))).disk a
          (off + n1) :=
        (hone.congr hsame).grow (by omega) (by omega)
      obtain ⟨h1, h2⟩ := ih (p := p.drop n1) hsharp hopen'
        (by rw [update_self, List.length_append, hlen, hoff]) (by omega) (by omega) hrun
      rw [hdrop, show off + n1 + (p.length - n1) = off + p.length by omega] at h1 h2
      refine ⟨h1, ?_⟩
      have hsame : fileBlocks (off + n1) = fileBlocks (off + 1) := by
        simp only [fileBlocks]
        split_ifs <;> omega
      have hfree : (u.wsect x ((u.disk x).blit (off - off / 512 * 512) (p.take n1))).freeblock =
        u.freeblock := rfl
      omega

/-- **`iappend` takes the blocks of the longer file.** -/
theorem Sharp.iappend (h : Sharp m.disk (m.rinode inum) (c inum).length)
    (himg : Img n m.freeblock m.disk m.rinode c) (hi : inum < n) (hn : n ≤ 264)
    (hF : m'.freeblock < 2 ^ 32) (hle : (c inum).length + p.length ≤ 138 * 512)
    (hrun : iappend junk inum p m = .ok m') :
    Sharp m'.disk (m'.rinode inum) ((c inum).length + p.length) ∧
      m'.freeblock + fileBlocks (c inum).length =
        m.freeblock + fileBlocks ((c inum).length + p.length) := by
  obtain ⟨a, u, hloop, rfl, hend, hfits, -⟩ := himg.iappend_cases hi hF (Or.inr hle) hrun
  have hF : u.freeblock < 2 ^ 32 := hF
  have hsize := himg.size inum hi
  obtain ⟨h1, h2⟩ := (hsize.symm ▸ h).iappendLoop himg.opened hi hsize.symm le_rfl hF
    (by rw [hsize]; exact hle) hloop
  rw [hsize] at h1 h2
  refine ⟨h1.congr fun q hq => ?_, h2⟩
  -- the inode is stored below the blocks
  rw [rinode_winode hfits, if_pos rfl, blk_setSize]
  refine blk_congr hq fun h0 => winode_disk_of_ge (by omega) ?_
  have hself : update m.rinode inum (a.setSize ((m.rinode inum).size + p.length)) inum =
    a.setSize ((m.rinode inum).size + p.length) := update_self _ _ _
  have hrange := (Img.range hend inum hi none trivial (by rw [hself]; exact h0)).1
  rwa [hself] at hrange

/-- The root directory has direct blocks only, and none past its end. -/
theorem RootOk.sharp (h : RootOk m) (himg : Img n m.freeblock m.disk m.rinode c) (hn : 1 < n)
    (hle : (c 1).length ≤ 5120) : Sharp m.disk (m.rinode 1) (c 1).length := by
  have hsize := himg.size 1 hn
  have h10 : (m.rinode 1).addr 10 = 0 := h.tight 10 le_rfl (by omega)
  refine ⟨iff_of_false (not_not.mpr h10) (by omega), fun bn hbn =>
    ⟨fun hne => ?_, himg.mapped 1 hn bn hbn⟩⟩
  by_cases hlt : bn < 10
  · rw [blk_direct hlt] at hne
    by_contra hge
    exact hne (h.tight bn hlt.le (by omega))
  · rw [blk_indirect (not_lt.mp hlt) hbn, if_pos h10] at hne
    exact absurd rfl hne

end Count

/-! ### All files -/

/-- The blocks of an image with these files, the metadata blocks first. -/
def blocksUsed (files : List HostFile) : ℕ :=
  metablocks + fileBlocks (16 * (files.length + 2)) +
    (files.map fun f => fileBlocks f.content.length).sum

/-- The blocks with one more file. -/
theorem blocksUsed_concat (fs : List HostFile) (f : HostFile) :
    blocksUsed (fs ++ [f]) + fileBlocks (16 * (fs.length + 2)) =
      blocksUsed fs + fileBlocks (16 * (fs.length + 3)) + fileBlocks f.content.length := by
  rw [blocksUsed, blocksUsed, List.length_append, List.map_append, List.sum_append]
  simp only [List.length_singleton, List.map_singleton, List.sum_singleton]
  rw [show fs.length + 1 + 2 = fs.length + 3 by omega]
  omega

section Build

variable {junk : ℕ → ℕ → ℕ} {m m' : State} {c : ℕ → List UInt8} {fs files : List HostFile}
  {f : HostFile}

/-- The contents of a file, piece by piece. -/
theorem freeblock_chunks {i : ℕ} {u : State} (hi : i + 1 ≤ 264)
    (himg : Img (i + 1) u.freeblock u.disk u.rinode (update c i []))
    (hzero : ∀ r, (u.rinode i).addr r = 0) (hF : m'.freeblock < 2 ^ 32)
    (hle : f.content.length ≤ 138 * 512)
    (hrun : f.chunks.foldlM (fun s x => iappend junk i x s) u = .ok m') :
    m'.freeblock = u.freeblock + fileBlocks f.content.length := by
  refine (foldlM_ok (P := fun pre s => s.freeblock < 2 ^ 32 →
    Img (i + 1) s.freeblock s.disk s.rinode (update c i pre.flatten) ∧
    Sharp s.disk (s.rinode i) pre.flatten.length ∧
    s.freeblock = u.freeblock + fileBlocks pre.flatten.length) ?_ hrun
    (fun _ => ⟨himg, sharp_zero hzero, rfl⟩) hF).2.2
  intro pre x post s s' hl hP hstep hlt
  obtain ⟨himg, hsharp, hcount⟩ := hP ((grew_iappend hstep).le.trans_lt hlt)
  have hself : update c i pre.flatten i = pre.flatten := update_self _ _ _
  have hle' : (update c i pre.flatten i).length + x.length ≤ 138 * 512 := by
    rw [hself]
    exact (HostFile.le_length_content hl).trans hle
  rw [← hself] at hsharp
  obtain ⟨h1, h2⟩ := hsharp.iappend himg (Nat.lt_succ_self i) hi hlt hle' hstep
  rw [hself] at h1 h2
  refine ⟨himg.chunk hi hlt (Or.inr hle') hstep, ?_⟩
  rw [List.flatten_concat, List.length_append]
  exact ⟨h1, by omega⟩

/-- **Adding a file** takes the blocks for its entry and for its contents. -/
theorem freeblock_addFile (h : Built fs m c) (hn : fs.length + 3 ≤ 264)
    (hF : m'.freeblock < 2 ^ 32) (hle : f.content.length ≤ 138 * 512)
    (hrun : addFile junk m f = .ok m') :
    m'.freeblock + fileBlocks (16 * (fs.length + 2)) =
      m.freeblock + fileBlocks (16 * (fs.length + 3)) + fileBlocks f.content.length := by
  obtain ⟨de, u, hde, hroot, hrun⟩ := addFile_cases hrun
  have hinode := h.inode
  have hlen := h.root
  have hu : u.freeblock < 2 ^ 32 := by
    refine lt_of_le_of_lt ?_ hF
    refine foldlM_ok (P := fun _ s => u.freeblock ≤ s.freeblock) ?_ hrun le_rfl
    intro pre x post s s' _ hP hstep
    exact hP.trans (grew_iappend hstep).le
  have hroot' : (c 1).length + de.length ≤ 138 * 512 := by omega
  -- the entry
  have hsharp := (h.rootOk.ialloc (by omega)).sharp (h.ialloc hn) (by omega) (by omega)
  obtain ⟨-, hentry⟩ := hsharp.iappend (h.ialloc hn) (by omega) (by omega) hu hroot' hroot
  rw [hlen, hde, show 16 * (fs.length + 2) + 16 = 16 * (fs.length + 3) by omega] at hentry
  have hfree : (m.ialloc T_FILE).2.freeblock = m.freeblock := rfl
  -- the contents
  have hnew : u.rinode m.freeinode = { Dinode.zero with type := T_FILE, nlink := 1 } := by
    rw [(h.ialloc hn).rinode_iappend (by omega) hu (Or.inr hroot') hroot (by omega) (by omega)]
    exact (rinode_winode (fits_ialloc T_FILE)).trans (if_pos rfl)
  have hcontent := freeblock_chunks (by omega) (h.entry hn hde hroot hu).2
    (fun r => by rw [hnew]; exact Dinode.addr_eq_zero (fun _ => rfl) r) hF hle hrun
  omega

/-- The blocks of an image without files. -/
theorem freeblock_nil {de de' : List UInt8} {u u' : State} (hde : de.length = 16)
    (hde' : de'.length = 16) (h1 : iappend junk 1 de (start.ialloc T_DIR).2 = .ok u)
    (h2 : iappend junk 1 de' u = .ok u') (hF : u'.freeblock < 2 ^ 32) :
    u'.freeblock = blocksUsed [] := by
  have hF1 := (grew_iappend h2).le.trans_lt hF
  have hlen : ([] : List UInt8).length + de.length = 16 := by simp [hde]
  have i1 := Img.iappend img_root (by omega) hF1 (Or.inr (by omega)) h1 (by omega)
  obtain ⟨s1, c1⟩ := (rootOk_root.sharp img_root (by omega) (Nat.zero_le _)).iappend img_root
    (by omega) (by omega) hF1 (by omega) h1
  have hself : (update (fun _ => []) 1 ([] ++ de) 1).length = 16 := by simp [hde]
  rw [hlen, ← hself] at s1
  obtain ⟨-, c2⟩ := s1.iappend i1 (by omega) (by omega) hF (by omega) h2
  rw [hlen] at c1
  rw [hself, hde'] at c2
  have hstart : (start.ialloc T_DIR).2.freeblock = metablocks := rfl
  have hnil : fileBlocks ([] : List UInt8).length = 0 := rfl
  have hused : blocksUsed [] = metablocks + fileBlocks (16 + 16) := rfl
  omega

/-- **The blocks of an image** whose files have at most 138 blocks each. -/
theorem freeblock_build (hrun : build junk files = .ok m) (hn : files.length + 2 ≤ 264)
    (hF : m.freeblock < 2 ^ 32) (hle : ∀ f ∈ files, f.content.length ≤ 138 * 512) :
    m.freeblock = blocksUsed files := by
  obtain ⟨de, de', u, u', hde, hde', h1, h2, hrun⟩ := build_cases hrun
  refine (foldlM_ok (P := fun pre s => s.freeblock < 2 ^ 32 →
    (∃ c, Built pre s c) ∧ s.freeblock = blocksUsed pre) ?_ hrun
    (fun hF => ⟨built_nil hde hde' h1 h2 hF, freeblock_nil hde hde' h1 h2 hF⟩) hF).2
  intro pre f post s s' hl hP hstep hF'
  obtain ⟨⟨c, hc⟩, hcount⟩ := hP ((le_addFile hstep).trans_lt hF')
  have hlen : files.length = pre.length + (post.length + 1) := by rw [hl, List.length_append]; rfl
  have hf : f.content.length ≤ 138 * 512 := hle f (by simp [hl])
  refine ⟨hc.addFile (by omega) hF' (Or.inr hf) hstep, ?_⟩
  have hadd := freeblock_addFile hc (by omega) hF' hf hstep
  have hconcat := blocksUsed_concat pre f
  omega

end Build

end Mkfs

end Xv6
