import Xv6.OwnerRun
import Xv6.SlotTable

/-!
# Directories as Finite Maps

A directory is a file of 16-byte entries, each with an inode number and a name of at most
`DIRSIZ` bytes. Names are compared with `strncmp` and stored with `strncpy`; entries with the
number 0 are free and reused by `dirlink`. As a table of slots (`Xv6.SlotTable`) a directory is a
finite map, with `dirlookup` as its lookup and writes of entries as its changes.

## Main results

* `strncmp_eq_zero_iff`, `strncpy_eq`: the two loops of `string.c`.
* `run_dirlookup`: `dirlookup` is the lookup of the table.
* `dirent_wrote`, `DirShape.wrote`: writing one entry.
* `SameDir`: what a step that does not concern a directory leaves alone.
-/

namespace Xv6

open SlotTable

/-! ### Names -/

/-- `strncmp(p, q, n)`; a string ends with a zero, which need not be part of the list. -/
def strncmp (p q : List UInt8) : ℕ → ℤ
  | 0 => 0
  | n + 1 =>
    if p.headD 0 ≠ 0 ∧ p.headD 0 = q.headD 0 then strncmp p.tail q.tail n
    else (p.headD 0).toNat - (q.headD 0).toNat

/-- `strncpy(s, t, n)`: the `n` bytes that are stored. -/
def strncpy (t : List UInt8) : ℕ → List UInt8
  | 0 => []
  | n + 1 =>
    if t.headD 0 ≠ 0 then t.headD 0 :: strncpy t.tail n
    else 0 :: List.replicate n 0

/-- `namecmp(s, t)`. -/
def namecmp (s t : List UInt8) : ℤ := strncmp s t DIRSIZ

/-- The part of a string that the loops look at, one byte at a time. -/
theorem takeWhile_take_succ (n : ℕ) (p : List UInt8) :
    (p.take (n + 1)).takeWhile (· ≠ 0) =
      if p.headD 0 = 0 then [] else p.headD 0 :: (p.tail.take n).takeWhile (· ≠ 0) := by
  cases p with
  | nil => simp
  | cons a p =>
    rw [List.take_succ_cons, List.takeWhile_cons]
    by_cases ha : a = 0 <;> simp [ha]

/-- Strings compare equal if they are the same up to a zero byte or `n` bytes. -/
theorem strncmp_eq_zero_iff (n : ℕ) (p q : List UInt8) :
    strncmp p q n = 0 ↔ (p.take n).takeWhile (· ≠ 0) = (q.take n).takeWhile (· ≠ 0) := by
  induction n generalizing p q with
  | zero => simp [strncmp]
  | succ n ih =>
    rw [strncmp, takeWhile_take_succ, takeWhile_take_succ]
    generalize p.headD 0 = a, q.headD 0 = b
    by_cases h : a ≠ 0 ∧ a = b
    · obtain ⟨ha, rfl⟩ := h
      simp [ha, ih]
    · -- the loop has stopped, at a zero or at two bytes that differ
      rw [if_neg h, sub_eq_zero, Nat.cast_inj, UInt8.toNat_inj]
      split_ifs with ha hb hb
      · simp [ha, hb]
      · simp [ha, eq_comm, hb]
      · simp [hb, ha]
      · simp [show a ≠ b from fun he => h ⟨ha, he⟩]

/-- A string is copied up to a zero byte or `n` bytes, and padded with zeros. -/
theorem strncpy_eq (n : ℕ) (t : List UInt8) :
    strncpy t n = (t.take n).takeWhile (· ≠ 0) ++
      List.replicate (n - ((t.take n).takeWhile (· ≠ 0)).length) 0 := by
  induction n generalizing t with
  | zero => rfl
  | succ n ih =>
    rw [strncpy, takeWhile_take_succ]
    by_cases h : t.headD 0 = 0
    · rw [if_neg (not_not.mpr h), if_pos h]
      rfl
    · rw [if_pos h, if_neg h, ih]
      simp

theorem namecmp_eq_zero_iff (s t : List UInt8) : namecmp s t = 0 ↔ nameOf s = nameOf t :=
  strncmp_eq_zero_iff DIRSIZ s t

/-- The entry that `dirlink` writes, as the code fills it in. -/
theorem mkDirent_eq (name : List UInt8) (inum : ℕ) :
    mkDirent name inum = [UInt8.ofNat inum, UInt8.ofNat (inum / 256)] ++ strncpy name DIRSIZ := by
  rw [mkDirent, strncpy_eq, List.append_assoc]
  rfl

/-- A name padded with zeros to at most `DIRSIZ` bytes is the same name. -/
theorem nameOf_pad (name : List UInt8) {m : ℕ} (hm : m ≤ DIRSIZ - (nameOf name).length) :
    nameOf (nameOf name ++ List.replicate m 0) = nameOf name := by
  have hlen : (nameOf name).length ≤ DIRSIZ :=
    (List.takeWhile_sublist _).length_le.trans (List.length_take_le ..)
  have hne : ∀ x ∈ nameOf name, x ≠ 0 := fun x hx => by
    simpa using List.mem_takeWhile_imp hx
  have htake : (nameOf name ++ List.replicate m (0 : UInt8)).length ≤ DIRSIZ := by
    rw [List.length_append, List.length_replicate]
    omega
  rw [nameOf, List.take_of_length_le htake, List.takeWhile_append_of_pos (by simpa)]
  simp

theorem nameOf_nameOf (name : List UInt8) : nameOf (nameOf name) = nameOf name := by
  simpa using nameOf_pad name (Nat.zero_le _)

theorem direntName_mkDirent (name : List UInt8) (inum : ℕ) :
    direntName (mkDirent name inum) = nameOf name := by
  rw [mkDirent_eq, direntName, strncpy_eq]
  exact nameOf_pad name le_rfl

/-- An entry is read as it was written. -/
theorem direntInum_mkDirent (name : List UInt8) {inum : ℕ} (h : inum < 65536) :
    direntInum (mkDirent name inum) = inum := by
  simp only [direntInum, mkDirent, List.cons_append, List.getD_cons_zero, List.getD_cons_succ,
    UInt8.toNat_ofNat']
  omega

/-! ### Entries -/

/-- An entry as a slot: its name and its inode number, if it is live. -/
def direntSlot (de : List UInt8) : Option (List UInt8 × ℕ) :=
  if direntInum de = 0 then none else some (direntName de, direntInum de)

namespace Sys

/-- The bytes of entry `k` of the directory `d`. -/
def dirent (s : Sys) (d k : ℕ) : List UInt8 := s.slice d (DIRENT * k) DIRENT

/-- Entry `k` of the directory `d`, as a slot. -/
def dirSlot (s : Sys) (d k : ℕ) : Option (List UInt8 × ℕ) := direntSlot (s.dirent d k)

/-- The number of entries of the directory `d`, free ones included. -/
def dirCount (s : Sys) (d : ℕ) : ℕ := (s.dinode d).size / DIRENT

/-- The entry and the inode number that `dirlookup` finds. -/
def dirFind (s : Sys) (d : ℕ) (name : List UInt8) : Option (ℕ × ℕ) :=
  find (s.dirSlot d) (s.dirCount d) (nameOf name)

/-- The inode number that the directory `d` has for a name. -/
def dirMap (s : Sys) (d : ℕ) (name : List UInt8) : Option ℕ :=
  lookup (s.dirSlot d) (s.dirCount d) (nameOf name)

/-- The entry that `dirlink` writes. -/
def dirFree (s : Sys) (d : ℕ) : ℕ :=
  freeSlot (s.dirSlot d) (s.dirCount d) (List.range (s.dirCount d))

/-- The cache entry `dp` is that of inode `d`, and valid. -/
structure HeldAs (s : Sys) (dp d : ℕ) : Prop extends s.Held dp where
  inum : (s.icache dp).inum = d

end Sys

/-- A directory with whole entries and without holes. -/
structure DirShape (d : ℕ) (s : Sys) : Prop where
  own : Own s
  lt : d < s.sb.ninodes
  type : (s.dinode d).type = T_DIR
  whole : DIRENT ∣ (s.dinode d).size
  mapped : ∀ bn, bn * BSIZE < (s.dinode d).size → bn < MAXFILE ∧ s.ptr (leaf d bn) ≠ 0

/-- **The directory invariant:** no name is in two entries. -/
structure DirOk (d : ℕ) (s : Sys) : Prop extends DirShape d s where
  distinct : Distinct (s.dirSlot d) (s.dirCount d)

section Read

variable {md : Mode} {p d dp : ℕ} {s : Sys}

theorem DirShape.size_le (h : DirShape d s) : (s.dinode d).size ≤ MAXFILE * BSIZE := by
  by_contra hlt
  exact absurd (h.mapped MAXFILE (by omega)).1 (lt_irrefl _)

theorem DirShape.size_eq (h : DirShape d s) : (s.dinode d).size = DIRENT * s.dirCount d :=
  (Nat.mul_div_cancel' h.whole).symm

theorem DirShape.dirEntries_eq (h : DirShape d s) :
    dirEntries (s.dinode d).size = s.dirCount d := by
  rw [h.size_eq, dirEntries, DIRENT, DIRSIZ]
  omega

theorem DirShape.din_eq (h : DirShape d s) (hdp : s.HeldAs dp d) :
    (s.icache dp).din = s.dinode d := by
  rw [← hdp.inum, Sys.dinode_of_held h.own.uniq hdp.toHeld]

section Loops

variable (h : DirShape d s) (hdp : s.HeldAs dp d)
include h hdp

/-- Reading an entry. -/
theorem run_readDirent {k : ℕ} (hk : k < s.dirCount d) (e : Panic) :
    Prog.run (exec md p) (readDirent e dp (DIRENT * k)) s = .ok (s.dirent d k, s) := by
  have hdin := h.din_eq hdp
  have hsize := h.size_eq
  have hle := h.size_le
  rw [maxfile_eq] at hle
  simp only [BSIZE, DIRENT, DIRSIZ] at hle hsize
  have hread : Prog.run (exec md p) (readi dp (DIRENT * k) DIRENT) s = _ :=
    run_readi h.own.uniq hdp.toHeld (by rw [hdin, h.type]; decide)
      (fun bn hbn => hdp.inum ▸ h.mapped bn (hdin ▸ hbn))
      (by rw [hdin]; simp only [DIRENT, DIRSIZ]; omega) (by simp only [DIRENT, DIRSIZ]; omega)
  rw [hdin, min_eq_left (by simp only [DIRENT, DIRSIZ]; omega), hdp.inum] at hread
  rw [readDirent, Prog.run_bind, hread, Prog.ok_bind]
  exact congrArg (Prog.run (exec md p) · s) (if_pos (by simp [Sys.slice]))

/-- **The loop of `dirlookup`** searches the slots. -/
theorem run_dirScan (name : List UInt8) {ks : List ℕ} (hks : ∀ k ∈ ks, k < s.dirCount d) :
    Prog.run (exec md p) (dirScan dp name ks) s =
      .ok ((search (s.dirSlot d) (nameOf name) ks).map fun x => (DIRENT * x.1, x.2), s) := by
  induction ks with
  | nil => rfl
  | cons k ks ih =>
    rw [List.forall_mem_cons] at hks
    rw [dirScan, Prog.run_bind, run_readDirent h hdp hks.1, Prog.ok_bind, search]
    have heq : nameEq name (direntName (s.dirent d k)) =
        decide (nameOf name = direntName (s.dirent d k)) := by
      rw [nameEq, direntName, nameOf_nameOf]
    simp only [Sys.dirSlot, direntSlot, heq]
    split_ifs with h0 hname
    · simpa only [valueAt] using ih hks.2
    · simp only [valueAt, if_pos (of_decide_eq_true hname)]
      rfl
    · simpa only [valueAt, if_neg fun hc => hname (decide_eq_true hc)] using ih hks.2

/-- **The loop of `dirlink`** looks for a free slot. -/
theorem run_findSlot (last : ℕ) {ks : List ℕ} (hks : ∀ k ∈ ks, k < s.dirCount d) :
    Prog.run (exec md p) (findSlot dp last ks) s =
      .ok (DIRENT * freeSlot (s.dirSlot d) last ks, s) := by
  induction ks with
  | nil => rfl
  | cons k ks ih =>
    rw [List.forall_mem_cons] at hks
    rw [findSlot, Prog.run_bind, run_readDirent h hdp hks.1, Prog.ok_bind, freeSlot]
    by_cases h0 : direntInum (s.dirent d k) = 0
    · rw [if_pos h0, if_pos (by rw [Sys.dirSlot, direntSlot, if_pos h0])]
      rfl
    · rw [if_neg h0, if_neg (by rw [Sys.dirSlot, direntSlot, if_neg h0]; simp)]
      exact ih hks.2

/-- **`dirlookup`** finds what the directory has for the name. -/
theorem run_dirlookup (name : List UInt8) :
    Prog.run (exec md p) (dirlookup dp name) s =
      match s.dirFind d name with
      | none => .ok (none, s)
      | some (k, inum) =>
        (exec md p (.iget inum) s).bind fun x => .ok (some (x.1, DIRENT * k), x.2) := by
  rw [dirlookup, Prog.run_bind, run_getInode, Prog.ok_bind]
  simp only [h.din_eq hdp, h.type, ne_eq, not_true_eq_false, if_false]
  rw [h.dirEntries_eq, Prog.run_bind,
    run_dirScan h hdp name fun k hk => List.mem_range.mp hk, Prog.ok_bind]
  change _ = match search (s.dirSlot d) (nameOf name) (List.range (s.dirCount d)) with
    | none => _
    | some (k, inum) => _
  cases search (s.dirSlot d) (nameOf name) (List.range (s.dirCount d)) with
  | none => rfl
  | some x =>
    rw [Option.map_some]
    change Prog.run (exec md p) (iget x.2 >>= fun ip => pure (some (ip, DIRENT * x.1))) s = _
    rw [Prog.run_bind, iget, run_perform]
    rfl

end Loops

end Read

/-! ### Writing an entry -/

section Write

variable {d dp j : ℕ} {s t : Sys} {de : List UInt8}

section Wrote

variable (h : DirShape d s) (hdp : s.HeldAs dp d) (hj : j ≤ s.dirCount d)
  (hmax : DIRENT * (j + 1) ≤ MAXFILE * BSIZE) (hlen : de.length = DIRENT)
  (hw : Wrote s dp (DIRENT * j) de t)

include h hdp hmax hlen hw

/-- The inode of the directory after an entry has been written. -/
theorem dirDinode_wrote : (t.resized dp (DIRENT * j + de.length)).dinode d =
    (t.dinode d).setSize (max (s.dinode d).size (DIRENT * (j + 1))) := by
  rw [hw.dinode_resized hdp.toHeld (by rw [hlen]; exact hmax) h.lt, if_pos hdp.inum.symm,
    h.din_eq hdp, hlen]
  rfl

/-- The number of entries after an entry has been written. -/
theorem dirCount_wrote :
    (t.resized dp (DIRENT * j + de.length)).dirCount d = max (s.dirCount d) (j + 1) := by
  have hsize := h.size_eq
  rw [Sys.dirCount, dirDinode_wrote h hdp hmax hlen hw, Dinode.setSize_size, hsize]
  simp only [DIRENT, DIRSIZ]
  omega

/-- **Writing an entry changes that entry.** -/
theorem dirent_wrote {k : ℕ} (hk : k < max (s.dirCount d) (j + 1)) :
    (t.resized dp (DIRENT * j + de.length)).dirent d k = if k = j then de else s.dirent d k := by
  have hsize := h.size_eq
  have hle := h.size_le
  have hm : MAXFILE * BSIZE = 8524800 := by rw [maxfile_eq]; rfl
  simp only [DIRENT, DIRSIZ] at hsize hmax hlen
  have hcont (i : ℕ) (hi : i < 16) :
      (t.resized dp (DIRENT * j + de.length)).contents d (DIRENT * k + i) =
        if k = j then de.getD i 0 else s.contents d (DIRENT * k + i) := by
    obtain ⟨e, hupd⟩ := hw
    rw [contents_resized e.own (e.held hdp.toHeld) (by simp only [DIRENT, DIRSIZ]; omega)
      (e.sb ▸ h.lt) (by simp only [DIRENT, DIRSIZ]; omega),
      hupd d h.lt _ (by simp only [DIRENT, DIRSIZ]; omega)]
    simp only [DIRENT, DIRSIZ, hlen, hdp.inum, true_and]
    by_cases hkj : k = j
    · rw [if_pos hkj, if_pos (by omega)]
      congr 1
      omega
    · rw [if_neg hkj, if_neg (by omega)]
  split_ifs with hkj
  · refine List.ext_getElem (by simp [Sys.dirent, Sys.slice, hlen]) fun i hi hi' => ?_
    simp only [Sys.dirent, Sys.slice, List.getElem_map, List.getElem_range]
    rw [hcont i (by omega), if_pos hkj, List.getD_eq_getElem _ _ hi']
  · rw [Sys.dirent, Sys.dirent, Sys.slice, Sys.slice]
    refine List.map_congr_left fun i hi => ?_
    rw [hcont i (by simpa using hi), if_neg hkj]

/-- **Writing an entry keeps the directory whole.** -/
theorem DirShape.wrote (hj : j ≤ s.dirCount d) :
    DirShape d (t.resized dp (DIRENT * j + de.length)) := by
  have hsize := h.size_eq
  have hm : MAXFILE * BSIZE = 8524800 := by rw [maxfile_eq]; rfl
  have hend : DIRENT * j + de.length ≤ MAXFILE * BSIZE := by rwa [hlen]
  obtain ⟨e, hupd⟩ := hw
  have hlim : DIRENT * j + de.length < 2 ^ 32 := by omega
  have hheld := e.held hdp.toHeld
  have hsb := sb_resized e.own hheld hlim
  have hdin := dirDinode_wrote h hdp hmax hlen ⟨e, hupd⟩
  refine ⟨own_resized e.own hheld hlim, ?_, ?_, ?_, fun bn hbn => ?_⟩
  · rw [hsb, e.sb]
    exact h.lt
  · obtain ⟨addrs, hf⟩ := e.fields
    rw [hdin, ← hdp.inum, ← e.inum dp, Sys.dinode_of_held e.own.uniq hheld, hf]
    exact (congrArg Dinode.type (h.din_eq hdp)).trans h.type
  · rw [hdin, Dinode.setSize_size, hsize, Nat.mul_max_mul_left]
    exact dvd_mul_right _ _
  · rw [hdin, Dinode.setSize_size] at hbn
    have hmap : s.Mapped dp := fun bn hbn => hdp.inum ▸ h.mapped bn (h.din_eq hdp ▸ hbn)
    have hoff : DIRENT * j ≤ (s.icache dp).din.size := by
      rw [h.din_eq hdp, hsize]
      exact Nat.mul_le_mul_left _ hj
    obtain ⟨h1, h2⟩ := Wrote.mapped ⟨e, hupd⟩ h.own hdp.toHeld hmap hoff hend
      (by rw [h.din_eq hdp, hlen]; exact hbn)
    rw [hdp.inum] at h2
    exact ⟨h1, by rwa [ptr_resized e.own hheld hlim (valid_leaf (e.sb ▸ h.lt) h1)]⟩

end Wrote

end Write

/-! ### What does not concern a directory -/

/-- The directory `d` has not changed. -/
structure SameDir (d : ℕ) (s t : Sys) : Prop where
  own : Own t
  sb : t.sb = s.sb
  type : (t.dinode d).type = (s.dinode d).type
  size : (t.dinode d).size = (s.dinode d).size
  leaf : ∀ bn < MAXFILE, t.ptr (leaf d bn) = s.ptr (leaf d bn)
  contents : ∀ k < MAXFILE * BSIZE, t.contents d k = s.contents d k

section Same

variable {d dp : ℕ} {s t : Sys}

theorem SameDir.dirCount (he : SameDir d s t) : t.dirCount d = s.dirCount d := by
  rw [Sys.dirCount, Sys.dirCount, he.size]

/-- The entries are those before. -/
theorem SameDir.dirSlot (h : DirShape d s) (he : SameDir d s t) {k : ℕ}
    (hk : k < s.dirCount d) : t.dirSlot d k = s.dirSlot d k := by
  have hsize := h.size_eq
  have hle := h.size_le
  simp only [DIRENT, DIRSIZ] at hsize
  rw [Sys.dirSlot, Sys.dirSlot, Sys.dirent, Sys.dirent, Sys.slice, Sys.slice]
  congr 1
  refine List.map_congr_left fun i hi => he.contents _ ?_
  rw [List.mem_range] at hi
  simp only [DIRENT, DIRSIZ] at hi ⊢
  omega

theorem SameDir.dirFind (h : DirShape d s) (he : SameDir d s t) (name : List UInt8) :
    t.dirFind d name = s.dirFind d name := by
  rw [Sys.dirFind, Sys.dirFind, he.dirCount]
  exact find_congr fun k hk => he.dirSlot h hk

theorem SameDir.dirMap (h : DirShape d s) (he : SameDir d s t) (name : List UInt8) :
    t.dirMap d name = s.dirMap d name :=
  congrArg (Option.map Prod.snd) (he.dirFind h name)

/-- The directory is well formed as before. -/
theorem DirShape.of_same (h : DirShape d s) (he : SameDir d s t) : DirShape d t where
  own := he.own
  lt := he.sb ▸ h.lt
  type := he.type.trans h.type
  whole := he.size ▸ h.whole
  mapped bn hbn := by
    obtain ⟨h1, h2⟩ := h.mapped bn (he.size ▸ hbn)
    exact ⟨h1, by rwa [he.leaf bn h1]⟩

/-- The names are distinct as before. -/
theorem DirOk.of_same (h : DirOk d s) (he : SameDir d s t) : DirOk d t := by
  refine ⟨h.toDirShape.of_same he, ?_⟩
  rw [he.dirCount]
  exact h.distinct.update (j := s.dirCount d) (x := none) (fun k hk _ => hk)
    (fun k hk => by rw [if_neg hk.ne, he.dirSlot h.toDirShape hk]) (by simp)

/-- Taking and giving back references does not concern directories. -/
theorem SameDir.of_entries (hown : Own s) (ht : Own t) (hd : d < s.sb.ninodes)
    (hdisk : t.disk = s.disk) (he : SameEntries s t) : SameDir d s t := by
  have hsb : t.sb = s.sb := Sys.sb_eq_of_disk (by rw [hdisk])
  have hdin : ∀ i, t.dinode i = s.dinode i := he.dinode hown.uniq ht.uniq hdisk
  have hptr : ∀ q : Pos, q.Valid s.sb.ninodes → t.ptr q = s.ptr q := fun q hq =>
    ptr_congr (fun i _ r _ => by rw [hdin i]) (fun _ _ _ _ => by rw [hdisk]) hq
  exact ⟨ht, hsb, by rw [hdin d], by rw [hdin d], fun bn hbn => hptr _ (valid_leaf hd hbn),
    fun k hk => contents_congr hptr (fun _ _ _ => by rw [hdisk]) hd hk⟩

/-- Two stretches of code one after the other. -/
theorem SameDir.trans {u : Sys} (h : SameDir d s t) (h' : SameDir d t u) : SameDir d s u where
  own := h'.own
  sb := h'.sb.trans h.sb
  type := h'.type.trans h.type
  size := h'.size.trans h.size
  leaf bn hbn := (h'.leaf bn hbn).trans (h.leaf bn hbn)
  contents k hk := (h'.contents k hk).trans (h.contents k hk)

theorem Sys.HeldAs.of_entries (h : s.HeldAs dp d) (he : SameEntries s t) : t.HeldAs dp d :=
  ⟨(he.held dp).mpr h.toHeld, (he.inum dp h.toHeld).trans h.inum⟩

end Same

/-! ### Writing through `writei` -/

section Writei

variable {md : Mode} {p d dp j : ℕ} {s : Sys} {de : List UInt8}

/-- A write past the maximum size is refused. -/
theorem run_writei_max {ip off : ℕ} {src : List UInt8} (htype : (s.icache ip).din.type ≠ T_DEV)
    (hoff : off ≤ (s.icache ip).din.size) (hlt : off + src.length < 2 ^ 32)
    (hmax : MAXFILE * BSIZE < off + src.length) :
    Prog.run (exec md p) (writei ip src off) s = .ok (none, s) := by
  rw [writei, Prog.run_bind, run_getInode, Prog.ok_bind]
  simp only [htype, if_false, Nat.mod_eq_of_lt hlt]
  rw [if_neg (by omega), if_pos hmax]
  rfl

/-- A write that returns was made in a transaction. -/
theorem busy_of_writei {ip off : ℕ} {src : List UInt8} {x : Option ℕ × Sys} (hne : src ≠ [])
    (htype : (s.icache ip).din.type ≠ T_DEV) (hoff : off ≤ (s.icache ip).din.size)
    (hmax : off + src.length ≤ MAXFILE * BSIZE)
    (hrun : Prog.run (exec md p) (writei ip src off) s = .ok x) : s.log.busy = true := by
  by_contra hbusy
  obtain ⟨n, hn⟩ : ∃ n, src.length = n + 1 :=
    Nat.exists_eq_succ_of_ne_zero fun h => hne (List.eq_nil_of_length_eq_zero h)
  obtain ⟨e, he⟩ : ∃ e, Prog.run (exec md p) (writeiLoop ip (n + 1) off src) s = .error e :=
    run_writeiLoop_closed (Bool.eq_false_iff.mpr hbusy) hne
  rw [run_writei htype hoff hmax, hn, he] at hrun
  cases hrun

section Entry

variable (h : DirShape d s) (hdp : s.HeldAs dp d) (hj : j ≤ s.dirCount d)
  (hlen : de.length = DIRENT)

include h hdp hj hlen

/-- **A write of an entry that returns** has written it, if there are blocks for it. -/
theorem wrote_of_entry {r : Option ℕ} {u : Sys} (hr : r ≠ none)
    (henough : (s.missing (span d (DIRENT * j) DIRENT)).card ≤ s.free.length)
    (hrun : Prog.run (exec .real p) (writei dp de (DIRENT * j)) s = .ok (r, u)) :
    r = some DIRENT ∧ DIRENT * (j + 1) ≤ MAXFILE * BSIZE ∧
      ∃ t, Wrote s dp (DIRENT * j) de t ∧ u = t.resized dp (DIRENT * j + de.length) := by
  have hdin := h.din_eq hdp
  have htype : (s.icache dp).din.type ≠ T_DEV := by
    rw [hdin, h.type]
    decide
  have hoff : DIRENT * j ≤ (s.icache dp).din.size := by
    rw [hdin, h.size_eq]
    exact Nat.mul_le_mul_left _ hj
  have hle := h.size_le
  have hm : MAXFILE * BSIZE = 8524800 := by rw [maxfile_eq]; rfl
  have hmax : DIRENT * j + de.length ≤ MAXFILE * BSIZE := by
    by_contra hgt
    rw [run_writei_max htype hoff (by rw [hdin] at hoff; simp only [DIRENT, DIRSIZ] at *; omega)
      (not_le.mp hgt)] at hrun
    cases hrun
    exact hr rfl
  have hbusy := busy_of_writei (fun h0 => by simp [h0] at hlen) htype hoff hmax hrun
  have hblocks : (s.missing (span (s.icache dp).inum (DIRENT * j) de.length)).card ≤
      s.free.length := by
    rw [hdp.inum, hlen]
    exact henough
  obtain ⟨rfl, t, hw, hu⟩ :=
    wrote_of_run ⟨h.own, hdp.toHeld, hbusy, htype, hoff, hmax, hblocks⟩ hrun
  rw [hlen, ← Nat.mul_succ] at hmax
  exact ⟨congrArg some hlen, hmax, t, hw, hu⟩

/-- **A write of an entry returns** in a transaction that has room for it. -/
theorem run_entry (hbusy : s.log.busy = true) (hmax : DIRENT * (j + 1) ≤ MAXFILE * BSIZE)
    (henough : (s.missing (span d (DIRENT * j) DIRENT)).card ≤ s.free.length)
    (hroom : sectorsBefore s dp (DIRENT * j) DIRENT < s.log.capacity) :
    ∃ u, Prog.run (exec .real p) (writei dp de (DIRENT * j)) s = .ok (some DIRENT, u) := by
  have hdin := h.din_eq hdp
  have hpre : WriteiPre s dp (DIRENT * j) de.length := by
    refine ⟨h.own, hdp.toHeld, hbusy, ?_, ?_, ?_, ?_⟩
    · rw [hdin, h.type]
      decide
    · rw [hdin, h.size_eq]
      exact Nat.mul_le_mul_left _ hj
    · rw [hlen, ← Nat.mul_succ]
      exact hmax
    · rw [hdp.inum, hlen]
      exact henough
  have hfit : sectorsBefore s dp (DIRENT * j) de.length < s.log.capacity := by
    rw [hlen]
    exact hroom
  obtain ⟨t, -, hrun⟩ := run_writei_real (p := p) hpre (Or.inr hfit)
  exact ⟨_, hrun.trans (by rw [hlen])⟩

end Entry

end Writei

end Xv6
