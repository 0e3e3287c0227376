import Xv6.Directory

/-!
# Directories over Runs

`dirlink` adds a name to a directory, clearing an entry as `sys_unlink` does removes one, and no
name is ever in two entries, whatever else happens in between.

An entry may need new blocks. The results are for a data area that has them: past it, `balloc`
goes on into the log area, or panics (`dirlink_disk_full`).

## Main results

* `DirOk.dirlink`, `DirOk.unlinkName`: what the calls do to the map.
* `DirOk.dirlink_returns`, `DirOk.unlinkName_returns`: when they return.
* `dirOk_reachable`, `directory_is_map`: **directories are finite maps**, over runs.
-/

namespace Xv6

open SlotTable

/-- The part of `sys_unlink` that looks up an entry and clears it. The reference to the inode is
kept, and its entry in the cache is returned. -/
def unlinkName (dp : ℕ) (name : List UInt8) : Fs (Option ℕ) := do
  match ← dirlookup dp name with
  | none => return none
  | some (ip, off) =>
    match ← writei dp (List.replicate DIRENT 0) off with
    | some m => if m = DIRENT then return some ip else fail (.panic .unlinkWritei)
    | none => fail (.panic .unlinkWritei)

/-- The data area has the blocks that a new entry needs. -/
def Sys.HasBlocks (s : Sys) (d : ℕ) : Prop :=
  (s.missing (span d (DIRENT * s.dirFree d) DIRENT)).card ≤ s.free.length

/-! ### Changes of the map -/

section Change

variable {d dp inum : ℕ} {name : List UInt8} {s t : Sys}

theorem direntSlot_mkDirent (hpos : 0 < inum) (hlt : inum < 65536) :
    direntSlot (mkDirent name inum) = some (nameOf name, inum) := by
  rw [direntSlot, direntInum_mkDirent name hlt, if_neg hpos.ne', direntName_mkDirent]

theorem direntSlot_zero : direntSlot (List.replicate DIRENT 0) = none := by
  decide

theorem Sys.dirMap_eq_none_iff : s.dirMap d name = none ↔ s.dirFind d name = none := by
  rw [Sys.dirMap, lookup, Option.map_eq_none_iff]
  rfl

/-- The entry that `dirlink` writes is free, or the next one. -/
theorem Sys.dirFree_spec (s : Sys) (d : ℕ) :
    s.dirFree d ≤ s.dirCount d ∧
      (s.dirFree d < s.dirCount d → s.dirSlot d (s.dirFree d) = none) :=
  freeSlot_spec _ _

/-- **A new name.** -/
theorem DirOk.linked (h : DirOk d s) (hdp : s.HeldAs dp d) (hpos : 0 < inum) (hlt : inum < 65536)
    (hnew : s.dirMap d name = none)
    (hmax : DIRENT * (s.dirFree d + 1) ≤ MAXFILE * BSIZE)
    (hw : Wrote s dp (DIRENT * s.dirFree d) (mkDirent name inum) t) :
    DirOk d (t.resized dp (DIRENT * s.dirFree d + (mkDirent name inum).length)) ∧
      ∀ b, (t.resized dp (DIRENT * s.dirFree d + (mkDirent name inum).length)).dirMap d b =
        if nameOf b = nameOf name then some inum else s.dirMap d b := by
  obtain ⟨hj, hfree⟩ := s.dirFree_spec d
  have hlen := length_mkDirent name inum
  have hcount := dirCount_wrote h.toDirShape hdp hmax hlen hw
  have hslot (k : ℕ) (hk : k < max (s.dirCount d) (s.dirFree d + 1)) :
      (t.resized dp (DIRENT * s.dirFree d + (mkDirent name inum).length)).dirSlot d k =
        if k = s.dirFree d then some (nameOf name, inum) else s.dirSlot d k := by
    rw [Sys.dirSlot, dirent_wrote h.toDirShape hdp hmax hlen hw hk]
    split_ifs with hkj
    · exact direntSlot_mkDirent hpos hlt
    · rfl
  refine ⟨⟨h.toDirShape.wrote hdp hmax hlen hw hj, ?_⟩, fun b => ?_⟩
  · rw [hcount]
    refine h.distinct.update (by omega) hslot ?_
    rintro _ _ ⟨⟩
    exact lookup_eq_none_iff.mp hnew
  · rw [Sys.dirMap, hcount]
    exact h.distinct.lookup_insert hj hfree rfl hslot hnew (nameOf b)

/-- **A name less.** -/
theorem DirOk.cleared {k i : ℕ} (h : DirOk d s) (hdp : s.HeldAs dp d)
    (hfind : s.dirFind d name = some (k, i))
    (hmax : DIRENT * (k + 1) ≤ MAXFILE * BSIZE)
    (hw : Wrote s dp (DIRENT * k) (List.replicate DIRENT 0) t) :
    DirOk d (t.resized dp (DIRENT * k + (List.replicate DIRENT (0 : UInt8)).length)) ∧
      ∀ b, (t.resized dp (DIRENT * k + (List.replicate DIRENT (0 : UInt8)).length)).dirMap d b =
        if nameOf b = nameOf name then none else s.dirMap d b := by
  obtain ⟨hk, hkey⟩ := find_sound hfind
  have hlen : (List.replicate DIRENT (0 : UInt8)).length = DIRENT := List.length_replicate
  have hcount := dirCount_wrote h.toDirShape hdp hmax hlen hw
  rw [max_eq_left hk] at hcount
  have hslot (l : ℕ) (hl : l < s.dirCount d) :
      (t.resized dp (DIRENT * k + (List.replicate DIRENT (0 : UInt8)).length)).dirSlot d l =
        if l = k then none else s.dirSlot d l := by
    rw [Sys.dirSlot, dirent_wrote h.toDirShape hdp hmax hlen hw (hl.trans_le (le_max_left ..))]
    split_ifs with hlk
    · exact direntSlot_zero
    · rfl
  refine ⟨⟨h.toDirShape.wrote hdp hmax hlen hw hk.le, ?_⟩, fun b => ?_⟩
  · rw [hcount]
    exact h.distinct.update (fun l hl _ => hl) hslot (by simp)
  · rw [Sys.dirMap, hcount]
    exact h.distinct.lookup_erase hk hkey hslot (nameOf b)

end Change

/-! ### The calls -/

section Calls

variable {p d dp inum : ℕ} {name : List UInt8} {s t : Sys}

/-- A reference that `iget` has made does not concern a directory. -/
theorem SameDir.iget {ip : ℕ} (h : DirShape d s)
    (hrun : exec .real p (.iget inum) s = .ok (ip, t)) :
    SameDir d s t := by
  obtain ⟨hown, -, -, hdisk, he⟩ := h.own.iget hrun
  exact .of_entries h.own hown h.lt hdisk he

section Run

variable (h : DirOk d s) (hdp : s.HeldAs dp d)
include h hdp

/-- `dirlink` of a name that the directory has: the reference that the lookup made is given back. -/
theorem DirOk.run_dirlink_found {k i : ℕ} (hfind : s.dirFind d name = some (k, i)) :
    Prog.run (exec .real p) (Xv6.dirlink dp name inum) s =
      (exec .real p (.iget i) s).bind fun x =>
        .ok (false, x.2.setInode x.1 { x.2.icache x.1 with ref := (x.2.icache x.1).ref - 1 }) := by
  rw [Xv6.dirlink, Prog.run_bind, run_dirlookup h.toDirShape hdp, hfind]
  dsimp only
  cases hg : exec .real p (.iget i) s with
  | error e => rfl
  | ok x =>
    obtain ⟨-, hsp, -⟩ := h.own.iget hg
    change Prog.run (exec .real p) (iput x.1 >>= fun _ => pure false) x.2 = _
    rw [Prog.run_bind, run_iput_spare hsp]
    rfl

/-- `dirlink` of a new name: the first free entry is written. -/
theorem DirOk.run_dirlink_new (hfind : s.dirFind d name = none) :
    Prog.run (exec .real p) (Xv6.dirlink dp name inum) s =
      (Prog.run (exec .real p) (writei dp (mkDirent name inum) (DIRENT * s.dirFree d)) s).bind
        fun x => if x.1 = some DIRENT then .ok (true, x.2) else .error (.panic .dirlink) := by
  rw [Xv6.dirlink, Prog.run_bind, run_dirlookup h.toDirShape hdp, hfind]
  change Prog.run (exec .real p) (getInode dp >>= fun v =>
    findSlot dp (dirEntries v.din.size) (List.range (dirEntries v.din.size)) >>= _) s = _
  rw [Prog.run_bind, run_getInode, Prog.ok_bind, h.din_eq hdp, h.dirEntries_eq, Prog.run_bind,
    run_findSlot h.toDirShape hdp _ fun k hk => List.mem_range.mp hk, Prog.ok_bind, Prog.run_bind]
  change (Prog.run (exec .real p) (writei dp (mkDirent name inum) (DIRENT * s.dirFree d)) s).bind
    _ = _
  congr 1
  funext x
  obtain ⟨_ | m, u⟩ := x
  · rfl
  · by_cases hm : m = DIRENT
    · subst hm
      rfl
    · simp only [Option.some.injEq, hm, if_false]
      rfl

/-- `unlinkName` of a name that the directory has: its entry is overwritten. -/
theorem DirOk.run_unlinkName_found {k i : ℕ} (hfind : s.dirFind d name = some (k, i)) :
    Prog.run (exec .real p) (unlinkName dp name) s =
      (exec .real p (.iget i) s).bind fun x =>
        (Prog.run (exec .real p) (writei dp (List.replicate DIRENT 0) (DIRENT * k)) x.2).bind
          fun y =>
            if y.1 = some DIRENT then .ok (some x.1, y.2) else .error (.panic .unlinkWritei) := by
  rw [unlinkName, Prog.run_bind, run_dirlookup h.toDirShape hdp, hfind]
  dsimp only
  cases exec .real p (.iget i) s with
  | error e => rfl
  | ok x =>
    change Prog.run (exec .real p) (writei dp (List.replicate DIRENT 0) (DIRENT * k) >>= _) x.2 =
      (Prog.run (exec .real p) (writei dp (List.replicate DIRENT 0) (DIRENT * k)) x.2).bind _
    rw [Prog.run_bind]
    congr 1
    funext y
    obtain ⟨_ | m, u⟩ := y
    · rfl
    · by_cases hm : m = DIRENT
      · subst hm
        rfl
      · simp only [Option.some.injEq, hm, if_false]
        rfl

theorem DirOk.run_unlinkName_none (hfind : s.dirFind d name = none) :
    Prog.run (exec .real p) (unlinkName dp name) s = .ok (none, s) := by
  rw [unlinkName, Prog.run_bind, run_dirlookup h.toDirShape hdp, hfind]
  rfl

omit h in
/-- An entry that exists needs no new blocks. -/
theorem DirShape.missing_entry {k : ℕ} (h : DirShape d s) (hk : k < s.dirCount d) :
    s.missing (span d (DIRENT * k) DIRENT) = ∅ := by
  have hmapped : s.Mapped dp := fun bn hbn => by
    rw [h.din_eq hdp] at hbn
    rw [hdp.inum]
    exact h.mapped bn hbn
  have hend : DIRENT * k + DIRENT ≤ (s.icache dp).din.size := by
    rw [h.din_eq hdp, h.size_eq, ← Nat.mul_succ]
    exact Nat.mul_le_mul_left _ hk
  have hmissing := missing_eq_empty hmapped hend
  rwa [hdp.inum] at hmissing

/-- **`dirlink`** adds exactly the names that are not there. -/
theorem DirOk.dirlink {r : Bool} (hpos : 0 < inum) (hlt : inum < 65536)
    (henough : s.dirMap d name = none → s.HasBlocks d)
    (hrun : Prog.run (exec .real p) (Xv6.dirlink dp name inum) s = .ok (r, t)) :
    (r = true ↔ s.dirMap d name = none) ∧ DirOk d t ∧
      ∀ b, t.dirMap d b =
        if r = true ∧ nameOf b = nameOf name then some inum else s.dirMap d b := by
  cases hfind : s.dirFind d name with
  | none =>
    have hnew := Sys.dirMap_eq_none_iff.mpr hfind
    rw [h.run_dirlink_new hdp hfind] at hrun
    obtain ⟨⟨r', u⟩, hw, hrun⟩ := Prog.bind_eq_ok.mp hrun
    dsimp only at hrun
    split_ifs at hrun with hr
    obtain ⟨rfl, rfl⟩ : true = r ∧ u = t := by simpa using hrun
    obtain ⟨-, hmax, v, hv, rfl⟩ := wrote_of_entry h.toDirShape hdp (s.dirFree_spec d).1
      (length_mkDirent name inum) (by rw [hr]; exact Option.some_ne_none _) (henough hnew) hw
    obtain ⟨hok, hmap⟩ := h.linked hdp hpos hlt hnew hmax hv
    refine ⟨iff_of_true rfl hnew, hok, fun b => ?_⟩
    rw [hmap b]
    simp
  | some x =>
    obtain ⟨k, i⟩ := x
    have hold : s.dirMap d name ≠ none := fun hn => by
      rw [Sys.dirMap_eq_none_iff.mp hn] at hfind
      cases hfind
    rw [h.run_dirlink_found hdp hfind] at hrun
    obtain ⟨⟨ip, u⟩, hg, hrun⟩ := Prog.bind_eq_ok.mp hrun
    obtain ⟨rfl, rfl⟩ : false = r ∧ _ = t := by simpa using hrun
    obtain ⟨hown, hsp, -⟩ := h.own.iget hg
    have hsame := SameDir.iget h.toDirShape hg
    have hlt' : d < u.sb.ninodes := hsame.sb ▸ h.lt
    have hsame' := hsame.trans (.of_entries hown (hown.drop hsp) hlt' rfl (.drop hsp))
    refine ⟨iff_of_false Bool.false_ne_true hold, h.of_same hsame', fun b => ?_⟩
    rw [hsame'.dirMap h.toDirShape]
    simp

/-- **`unlinkName`** removes exactly the name. -/
theorem DirOk.unlinkName {r : Option ℕ}
    (hrun : Prog.run (exec .real p) (Xv6.unlinkName dp name) s = .ok (r, t)) :
    (r = none ↔ s.dirMap d name = none) ∧ DirOk d t ∧
      ∀ b, t.dirMap d b = if nameOf b = nameOf name then none else s.dirMap d b := by
  cases hfind : s.dirFind d name with
  | none =>
    have hnone := Sys.dirMap_eq_none_iff.mpr hfind
    rw [h.run_unlinkName_none hdp hfind] at hrun
    obtain ⟨rfl, rfl⟩ : none = r ∧ s = t := by simpa using hrun
    refine ⟨iff_of_true rfl hnone, h, fun b => ?_⟩
    split_ifs with hb
    · rw [← hnone, Sys.dirMap, Sys.dirMap, hb]
    · rfl
  | some x =>
    obtain ⟨k, i⟩ := x
    have hold : s.dirMap d name ≠ none := fun hn => by
      rw [Sys.dirMap_eq_none_iff.mp hn] at hfind
      cases hfind
    rw [h.run_unlinkName_found hdp hfind] at hrun
    obtain ⟨⟨ip, u⟩, hg, hrun⟩ := Prog.bind_eq_ok.mp hrun
    obtain ⟨⟨r', v⟩, hw, hrun⟩ := Prog.bind_eq_ok.mp hrun
    dsimp only at hw hrun
    split_ifs at hrun with hr
    obtain ⟨rfl, rfl⟩ : some ip = r ∧ v = t := by simpa using hrun
    obtain ⟨-, -, -, -, he⟩ := h.own.iget hg
    have hsame := SameDir.iget h.toDirShape hg
    have hu := h.of_same hsame
    have hdp' := hdp.of_entries he
    have hfind' : u.dirFind d name = some (k, i) := by rw [hsame.dirFind h.toDirShape, hfind]
    have hk := (find_sound hfind').1
    obtain ⟨-, hmax, v, hv, rfl⟩ := wrote_of_entry hu.toDirShape hdp' hk.le List.length_replicate
      (by rw [hr]; exact Option.some_ne_none _)
      (by rw [hu.missing_entry hdp' hk]; exact Nat.zero_le _) hw
    obtain ⟨hok, hmap⟩ := hu.cleared hdp' hfind' hmax hv
    refine ⟨iff_of_false (Option.some_ne_none ip) hold, hok, fun b => ?_⟩
    rw [hmap b, hsame.dirMap h.toDirShape]

end Run

/-- The entry that `iget` returns is for the inode. -/
theorem inum_of_iget {i ip : ℕ} (hrun : exec .real p (.iget i) s = .ok (ip, t)) :
    (t.icache ip).inum = i := by
  simp only [exec] at hrun
  cases hc : s.findCached i with
  | some a =>
    rw [hc] at hrun
    cases hrun
    have ha := List.find?_some hc
    simp only [decide_eq_true_eq] at ha
    simp [setInode_icache, ha.2]
  | none =>
    rw [hc] at hrun
    cases he : s.findEmpty with
    | none =>
      rw [he] at hrun
      cases hrun
    | some a =>
      rw [he] at hrun
      cases hrun
      simp [setInode_icache]

/-- `iget` returns when the inode cache has a free entry. -/
theorem iget_returns {i : ℕ} (hempty : s.findEmpty ≠ none) :
    ∃ x, exec .real p (.iget i) s = .ok x := by
  obtain ⟨a, ha⟩ := Option.ne_none_iff_exists'.mp hempty
  simp only [exec, ha]
  cases s.findCached i with
  | some b => exact ⟨_, rfl⟩
  | none => exact ⟨_, rfl⟩

/-- An entry is inside one block. -/
theorem touched_entry (k : ℕ) : touched (DIRENT * k) DIRENT ⊆ {DIRENT * k / 512} := by
  intro bn hbn
  obtain ⟨j, hj, rfl⟩ := mem_touched.mp hbn
  rw [Finset.mem_singleton]
  simp only [DIRENT, DIRSIZ] at hj ⊢
  omega

/-- An entry that is there already is logged with one `log_write`. -/
theorem sectorsBefore_entry {d dp k : ℕ} {s : Sys} (h : DirOk d s) (hdp : s.HeldAs dp d)
    (hk : k < s.dirCount d) : sectorsBefore s dp (DIRENT * k) DIRENT ≤ s.log.lh.length := by
  have hsize : ¬ (s.icache dp).din.size < DIRENT * k + DIRENT := by
    rw [h.din_eq hdp, h.size_eq, ← Nat.mul_succ, not_lt]
    exact Nat.mul_le_mul_left _ hk
  have hlast : (DIRENT * k + DIRENT - 1) / BSIZE = DIRENT * k / 512 := by
    simp only [DIRENT, DIRSIZ, BSIZE]
    omega
  have hnone : (touched (DIRENT * k) DIRENT).erase (DIRENT * k / 512) = ∅ := by
    rw [← Finset.subset_empty, ← Finset.erase_singleton (DIRENT * k / 512)]
    exact Finset.erase_subset_erase _ (touched_entry k)
  have hfoot := card_footprint_le s (span d (DIRENT * k) DIRENT) ∅
  rw [h.missing_entry hdp hk, Finset.card_empty] at hfoot
  rw [sectorsBefore, if_neg hsize, hlast, hnone, sectorsWith, hdp.inum, Finset.image_empty]
  refine (Finset.card_union_le _ _).trans ?_
  have := List.toFinset_card_le s.log.lh
  omega

section Returns

variable (h : DirOk d s) (hdp : s.HeldAs dp d)
include h hdp

/-- **`dirlink` of a new name returns** in a transaction with room, if the directory is not at its
maximum size and there are blocks for it. -/
theorem DirOk.dirlink_returns (hnew : s.dirMap d name = none) (hbusy : s.log.busy = true)
    (hmax : DIRENT * (s.dirFree d + 1) ≤ MAXFILE * BSIZE)
    (henough : s.HasBlocks d)
    (hroom : sectorsBefore s dp (DIRENT * s.dirFree d) DIRENT < s.log.capacity) :
    ∃ t, Prog.run (exec .real p) (Xv6.dirlink dp name inum) s = .ok (true, t) := by
  obtain ⟨u, hu⟩ := run_entry (p := p) h.toDirShape hdp (s.dirFree_spec d).1
    (length_mkDirent name inum) hbusy hmax henough hroom
  refine ⟨u, ?_⟩
  rw [h.run_dirlink_new hdp (Sys.dirMap_eq_none_iff.mp hnew), hu]
  rfl

/-- **`dirlink` of a name that is there returns** if the lookup finds room in the inode cache. -/
theorem DirOk.dirlink_refuses (hold : s.dirMap d name ≠ none) (hempty : s.findEmpty ≠ none) :
    ∃ t, Prog.run (exec .real p) (Xv6.dirlink dp name inum) s = .ok (false, t) := by
  obtain ⟨⟨k, i⟩, hfind⟩ := Option.ne_none_iff_exists'.mp (mt Sys.dirMap_eq_none_iff.mpr hold)
  obtain ⟨x, hx⟩ := iget_returns (p := p) (i := i) hempty
  rw [h.run_dirlink_found hdp hfind, hx]
  exact ⟨_, rfl⟩

/-- **`unlinkName` returns** in a transaction with room for one sector more. -/
theorem DirOk.unlinkName_returns (hbusy : s.log.busy = true)
    (hroom : s.log.lh.length < s.log.capacity) (hempty : s.findEmpty ≠ none) :
    ∃ r t, Prog.run (exec .real p) (Xv6.unlinkName dp name) s = .ok (r, t) := by
  cases hfind : s.dirFind d name with
  | none => exact ⟨_, _, h.run_unlinkName_none hdp hfind⟩
  | some x =>
    obtain ⟨k, i⟩ := x
    obtain ⟨⟨ip, u⟩, hg⟩ := iget_returns (p := p) (i := i) hempty
    obtain ⟨-, -, hlog, -, he⟩ := h.own.iget hg
    have hsame := SameDir.iget h.toDirShape hg
    have hu := h.of_same hsame
    have hdp' := hdp.of_entries he
    have hk : k < u.dirCount d := hsame.dirCount ▸ (find_sound hfind).1
    have hmiss := hu.missing_entry hdp' hk
    -- the entry is inside the directory
    have hmax : DIRENT * (k + 1) ≤ MAXFILE * BSIZE :=
      (Nat.mul_le_mul_left _ hk).trans (hu.size_eq ▸ hu.size_le)
    have hsectors := sectorsBefore_entry hu hdp' hk
    rw [hlog] at hsectors
    have hlen : (List.replicate DIRENT (0 : UInt8)).length = DIRENT := List.length_replicate
    obtain ⟨v, hv⟩ := run_entry (p := p) hu.toDirShape hdp' (Nat.le_of_lt hk) hlen (hlog ▸ hbusy)
      hmax
      (by rw [hmiss]; exact Nat.zero_le _) (by rw [hlog]; omega)
    refine ⟨some ip, v, ?_⟩
    rw [h.run_unlinkName_found hdp hfind, hg, Prog.ok_bind, hv]
    rfl

end Returns

end Calls

/-! ### Runs -/

/-- What happens to a directory. -/
inductive DirCall
  | dirlink (p dp : ℕ) (name : List UInt8) (inum : ℕ)
  | unlinkName (p dp : ℕ) (name : List UInt8)
  /-- anything that leaves the directory alone -/
  | elsewhere

/-- The runs of the directory `d`, from an empty one. The calls are made with the directory
locked. -/
def dirRuns (d : ℕ) : Transition.System Sys DirCall where
  init s := DirShape d s ∧ (s.dinode d).size = 0
  step s c t :=
    match c with
    | .dirlink p dp name inum => s.HeldAs dp d ∧ 0 < inum ∧ inum < 65536 ∧
        ∃ r, Fs.run .real p (Xv6.dirlink dp name inum) s = .ok (r, t)
    | .unlinkName p dp name => s.HeldAs dp d ∧
        ∃ r, Fs.run .real p (Xv6.unlinkName dp name) s = .ok (r, t)
    | .elsewhere => SameDir d s t

/-- There are blocks for the entries that are added. -/
def EntryFits (d : ℕ) (s : Sys) : DirCall → Prop
  | .dirlink _ _ name _ => s.dirMap d name = none → s.HasBlocks d
  | _ => True

section Runs

variable {d : ℕ} {s t : Sys}

theorem DirShape.ok_of_empty (h : DirShape d s) (hsize : (s.dinode d).size = 0) : DirOk d s := by
  refine ⟨h, fun j hj => ?_⟩
  rw [Sys.dirCount, hsize, Nat.zero_div] at hj
  cases hj

/-- Every call keeps the names distinct, if a new entry fits. -/
theorem dirOk_step {c : DirCall} (h : DirOk d s) (hstep : (dirRuns d).step s c t)
    (hfits : EntryFits d s c) : DirOk d t := by
  cases c with
  | dirlink p dp name inum =>
    obtain ⟨hdp, hpos, hlt, r, hrun⟩ := hstep
    exact (h.dirlink hdp hpos hlt hfits hrun).2.1
  | unlinkName p dp name =>
    obtain ⟨hdp, r, hrun⟩ := hstep
    exact (h.unlinkName hdp hrun).2.1
  | elsewhere => exact h.of_same hstep

/-- The names are distinct in every reachable state. -/
theorem dirOk_reachable (hreach : ((dirRuns d).restrict (EntryFits d)).Reachable s) :
    DirOk d s := by
  refine hreach.invariant (I := DirOk d) ?_ ?_
  · rintro s ⟨h, hsize⟩
    exact h.ok_of_empty hsize
  · rintro s c t h ⟨hstep, hfits⟩
    exact dirOk_step h hstep hfits

/-- **The directory is a finite map**, and the calls are lookup, insertion and deletion. -/
structure IsMap (d : ℕ) (s : Sys) : Prop where
  distinct : ∀ j < s.dirCount d, ∀ k < s.dirCount d, ∀ a v b w, s.dirSlot d j = some (a, v) →
    s.dirSlot d k = some (b, w) → namecmp a b = 0 → j = k
  lookup : ∀ p dp name r t, s.HeldAs dp d → Fs.run .real p (dirlookup dp name) s = .ok (r, t) →
    r.map (fun x => (t.icache x.1).inum) = s.dirMap d name
  link : ∀ p dp name inum r t, s.HeldAs dp d → 0 < inum → inum < 65536 →
    (s.dirMap d name = none → s.HasBlocks d) →
    Fs.run .real p (dirlink dp name inum) s = .ok (r, t) →
    (r = true ↔ s.dirMap d name = none) ∧
      ∀ b, t.dirMap d b = if r = true ∧ namecmp b name = 0 then some inum else s.dirMap d b
  links : ∀ p dp name inum, s.HeldAs dp d → s.dirMap d name = none → s.log.busy = true →
    DIRENT * (s.dirFree d + 1) ≤ MAXFILE * BSIZE → s.HasBlocks d →
    sectorsBefore s dp (DIRENT * s.dirFree d) DIRENT < s.log.capacity →
    ∃ t, Fs.run .real p (dirlink dp name inum) s = .ok (true, t)
  refuses : ∀ p dp name inum, s.HeldAs dp d → s.dirMap d name ≠ none → s.findEmpty ≠ none →
    ∃ t, Fs.run .real p (dirlink dp name inum) s = .ok (false, t)
  unlink : ∀ p dp name r t, s.HeldAs dp d → Fs.run .real p (unlinkName dp name) s = .ok (r, t) →
    (r = none ↔ s.dirMap d name = none) ∧
      ∀ b, t.dirMap d b = if namecmp b name = 0 then none else s.dirMap d b
  unlinks : ∀ p dp name, s.HeldAs dp d → s.log.busy = true → s.log.lh.length < s.log.capacity →
    s.findEmpty ≠ none → ∃ r t, Fs.run .real p (unlinkName dp name) s = .ok (r, t)

/-- The names in the entries are cut already. -/
theorem nameOf_of_dirSlot {k v : ℕ} {a : List UInt8} (h : s.dirSlot d k = some (a, v)) :
    nameOf a = a := by
  rw [Sys.dirSlot, direntSlot] at h
  split_ifs at h
  obtain ⟨rfl, -⟩ : direntName (s.dirent d k) = a ∧ _ := by simpa using h
  exact nameOf_nameOf _

/-- `dirlookup` looks up the map of the directory. -/
theorem DirOk.dirlookup {p dp : ℕ} {name : List UInt8} {r : Option (ℕ × ℕ)} (h : DirOk d s)
    (hdp : s.HeldAs dp d) (hrun : Prog.run (exec .real p) (Xv6.dirlookup dp name) s = .ok (r, t)) :
    r.map (fun x => (t.icache x.1).inum) = s.dirMap d name := by
  rw [run_dirlookup h.toDirShape hdp] at hrun
  cases hfind : s.dirFind d name with
  | none =>
    rw [hfind] at hrun
    obtain ⟨rfl, rfl⟩ : none = r ∧ s = t := by simpa using hrun
    exact (Sys.dirMap_eq_none_iff.mpr hfind).symm
  | some x =>
    obtain ⟨k, i⟩ := x
    rw [hfind] at hrun
    obtain ⟨⟨ip, u⟩, hg, hrun⟩ := Prog.bind_eq_ok.mp hrun
    obtain ⟨rfl, rfl⟩ : some (ip, DIRENT * k) = r ∧ u = t := by simpa using hrun
    rw [Sys.dirMap, SlotTable.lookup, show find _ _ _ = some (k, i) from hfind]
    exact congrArg some (inum_of_iget hg)

/-- **A directory is a finite map from names to inode numbers**, over every run in which there are
blocks for the entries that are added. -/
theorem directory_is_map (hreach : ((dirRuns d).restrict (EntryFits d)).Reachable s) :
    IsMap d s := by
  have h := dirOk_reachable hreach
  constructor
  case distinct =>
    intro j hj k hk a v b w ha hb hab
    rw [namecmp_eq_zero_iff, nameOf_of_dirSlot ha, nameOf_of_dirSlot hb] at hab
    subst hab
    exact h.distinct j hj k hk a v w ha hb
  case lookup => exact fun p dp name r t hdp hrun => h.dirlookup hdp hrun
  case link =>
    intro p dp name inum r t hdp hpos hlt hfits hrun
    obtain ⟨hiff, -, hmap⟩ := h.dirlink hdp hpos hlt hfits hrun
    refine ⟨hiff, fun b => ?_⟩
    simp only [hmap b, namecmp_eq_zero_iff]
  case links =>
    exact fun p dp name inum hdp hnew hbusy hmax hfits hroom =>
      h.dirlink_returns hdp hnew hbusy hmax hfits hroom
  case refuses => exact fun p dp name inum hdp hold hempty => h.dirlink_refuses hdp hold hempty
  case unlink =>
    intro p dp name r t hdp hrun
    obtain ⟨hiff, -, hmap⟩ := h.unlinkName hdp hrun
    refine ⟨hiff, fun b => ?_⟩
    simp only [hmap b, namecmp_eq_zero_iff]
  case unlinks =>
    exact fun p dp name hdp hbusy hroom hempty => h.unlinkName_returns hdp hbusy hroom hempty

end Runs

/-! ### A small directory -/

/-- An empty directory, as inode 1. -/
def emptyDinode : Dinode := { smallFile 0 with type := T_DIR }

/-- A small file system with an empty directory in a transaction, and `f` free blocks. -/
def smallDir (f : ℕ) : Sys := (smallDisk true 0 f).setDin 0 emptyDinode

/-- The same without free blocks, the area of the log included. -/
def fullDisk : Sys :=
  { smallDisk true 0 0 with
    disk := Function.update (smallDisk true 0 0).disk 4 (Block.usedPrefix 15) }

/-- A disk without a free block. -/
theorem own_fullDisk : Own fullDisk := by
  have h : Own (smallDisk true 0 0) := own_smallDisk (by omega) (by omega)
  have hsb' : (smallDisk true 0 0).sb = smallSb 0 0 := sb_smallDisk (by omega)
  have hsb : fullDisk.sb = smallSb 0 0 := hsb'
  have hcache : fullDisk.CacheOk := h.toCacheOk.congr rfl (hsb.trans hsb'.symm)
  have hn : fullDisk.sb.ninodes = 8 := by rw [hsb]; rfl
  have hm : fullDisk.sb.metaEnd = 5 := by rw [hsb]; rfl
  have hzero (q : Pos) (hq : q.Valid 8) : (smallDisk true 0 0).ptr q = 0 := by
    rw [ptr_smallDisk (by omega) hq, if_neg (by omega)]
  have hdin (i : ℕ) (hi : i < 8) : fullDisk.dinode i = (smallDisk true 0 0).dinode i := by
    have hblk : IBLOCK i = 2 := by
      rw [iblock_eq]
      omega
    have hdisk : fullDisk.diskInode i = (smallDisk true 0 0).diskInode i := by
      rw [Sys.diskInode, Sys.diskInode, hblk]
      rfl
    unfold Sys.dinode
    rw [hdisk]
    rfl
  have hptr (q : Pos) (hq : q.Valid 8) : fullDisk.ptr q = 0 := by
    rw [← hzero q hq]
    exact ptr_congr (fun i hi r _ => by rw [hdin i hi])
      (fun q hq _ hne => absurd (hzero q hq) hne) hq
  have hused (b : ℕ) (hb : b < 5) : fullDisk.used b = true := by
    have hblk : BBLOCK b 8 = 4 := by
      rw [bblock_eq]
      omega
    have hmod : b % BPB = b := by
      simp only [BPB, BSIZE]
      omega
    rw [Sys.used, hn, hblk, hmod]
    exact (Block.bit_usedPrefix (by omega) (by omega)).trans (decide_eq_true (by omega))
  refine { hcache with
    meta_le := ?_, start_le := ?_, nodup := h.nodup, lt := h.lt, slot := ?_, meta_used := ?_,
    range := ?_, ptr_used := ?_, inj := ?_ }
  · rw [hm]
    exact le_rfl
  · rw [hsb]
    decide
  · rintro i x ⟨⟩
  · rw [hm]
    exact hused
  · rw [hn]
    exact fun q hq hne => absurd (hptr q hq) hne
  · rw [hn]
    exact fun q hq hne => absurd (hptr q hq) hne
  · rw [hn]
    exact fun q _ hq _ hne => absurd (hptr q hq) hne

/-- A directory without entries. -/
theorem dirShape_setDin {s : Sys} (h : Own s) (hip : s.Held 0) (hinum : (s.icache 0).inum = 1)
    (hn : 1 < s.sb.ninodes) (haddrs : (s.icache 0).din.addrs = emptyDinode.addrs) :
    DirShape 1 (s.setDin 0 emptyDinode) ∧ ((s.setDin 0 emptyDinode).dinode 1).size = 0 := by
  have hdin : (s.setDin 0 emptyDinode).dinode 1 = emptyDinode := by
    rw [Sys.dinode_setDin h.uniq hip, if_pos hinum.symm]
  refine ⟨⟨h.setDin hip haddrs.symm (by decide), hn, ?_, ?_, fun bn hbn => ?_⟩, ?_⟩
  · rw [hdin]
    rfl
  · rw [hdin]
    exact Nat.dvd_zero _
  · rw [hdin] at hbn
    exact absurd hbn (Nat.not_lt_zero _)
  · rw [hdin]
    rfl

/-- An empty directory. -/
theorem dirShape_smallDir {f : ℕ} (h : 15 + f < 4096) :
    DirShape 1 (smallDir f) ∧ ((smallDir f).dinode 1).size = 0 := by
  refine dirShape_setDin (own_smallDisk (by omega) (by omega)) (held_smallDisk.mpr rfl) rfl ?_ rfl
  rw [sb_smallDisk (by omega)]
  exact Nat.one_lt_succ_succ 6

theorem heldAs_setDin {s : Sys} (hip : s.Held 0) (hinum : (s.icache 0).inum = 1) :
    (s.setDin 0 emptyDinode).HeldAs 0 1 :=
  ⟨Sys.held_setDin.mpr hip, hinum⟩

/-- A name is added to an empty directory. -/
theorem directory_is_map_first :
    ∃ t, IsMap 1 t ∧ t.dirMap 1 [97] = some 2 ∧ t.dirMap 1 [98] = none := by
  obtain ⟨hshape, hsize⟩ := dirShape_smallDir (f := 5) (by omega)
  have hok := hshape.ok_of_empty hsize
  have hdp : (smallDir 5).HeldAs 0 1 := heldAs_setDin (held_smallDisk.mpr rfl) rfl
  have hcount : (smallDir 5).dirCount 1 = 0 := by rw [Sys.dirCount, hsize, Nat.zero_div]
  have hfree : (smallDir 5).dirFree 1 = 0 :=
    Nat.le_zero.mp (hcount ▸ ((smallDir 5).dirFree_spec 1).1)
  have hmap (b : List UInt8) : (smallDir 5).dirMap 1 b = none := by
    rw [Sys.dirMap, hcount]
    rfl
  have hspan : span 1 (DIRENT * 0) DIRENT = {⟨1, 0, []⟩} := by
    rw [span, show touched (DIRENT * 0) DIRENT = {0} by decide, Finset.singleton_biUnion,
      bmapPositions_direct (by omega)]
  have hmiss : ((smallDir 5).missing (span 1 (DIRENT * 0) DIRENT)).card ≤ 1 := by
    rw [hspan]
    exact Finset.card_filter_le _ _
  have hblocks : (smallDir 5).HasBlocks 1 := by
    have hlist : (smallDir 5).free = (List.range 5).map (5 + 0 + ·) := free_smallDisk (by omega)
    rw [Sys.HasBlocks, hfree]
    refine hmiss.trans ?_
    rw [hlist]
    decide
  have hroom : sectorsBefore (smallDir 5) 0 (DIRENT * (smallDir 5).dirFree 1) DIRENT <
      (smallDir 5).log.capacity := by
    have hgrow : ((smallDir 5).icache 0).din.size < DIRENT * 0 + DIRENT := by decide
    have hfoot := card_footprint_le (smallDir 5) (span 1 (DIRENT * 0) DIRENT)
      (leaves 1 (DIRENT * 0) DIRENT)
    have hleaf : (leaves 1 (DIRENT * 0) DIRENT).card ≤ 1 :=
      Finset.card_image_le.trans (Finset.card_le_card (touched_entry 0))
    have hcap : (smallDir 5).log.capacity = 9 := rfl
    rw [hfree, sectorsBefore, if_pos hgrow, sectorsWith, hdp.inum, hcap]
    refine lt_of_le_of_lt (Finset.card_union_le _ _) ?_
    rw [show (smallDir 5).log.lh.toFinset.card = 0 from rfl]
    unfold leaves at hfoot hleaf
    omega
  obtain ⟨t, ht⟩ : ∃ t, Prog.run (exec .real 0) (dirlink 0 [97] 2) (smallDir 5) = .ok (true, t) :=
    hok.dirlink_returns hdp (hmap [97]) rfl (by rw [hfree, maxfile_eq]; decide) hblocks hroom
  have hreach : ((dirRuns 1).restrict (EntryFits 1)).Reachable t :=
    .step (l := .dirlink 0 0 [97] 2) (.init ⟨hshape, hsize⟩)
      ⟨⟨hdp, by decide, by decide, true, ht⟩, fun _ => hblocks⟩
  obtain ⟨-, -, hnew⟩ := hok.dirlink hdp (by decide) (by decide) (fun _ => hblocks) ht
  refine ⟨t, directory_is_map hreach, ?_, ?_⟩
  · rw [hnew, if_pos ⟨rfl, rfl⟩]
  · rw [hnew, if_neg (by decide), hmap]

/-- **A full disk**: a new name cannot be added to a directory that is empty, although `dirlookup`
finds nothing. -/
theorem dirlink_disk_full : ∃ s, (dirRuns 1).Reachable s ∧ s.HeldAs 0 1 ∧ s.log.busy = true ∧
    s.log.lh = [] ∧ (s.dinode 1).size = 0 ∧ s.dirMap 1 [97] = none ∧
    Fs.run .real 0 (dirlink 0 [97] 2) s = .error (.panic .outOfBlocks) := by
  have hheld : fullDisk.Held 0 := ⟨by decide, by decide, rfl⟩
  obtain ⟨hshape, hsize⟩ := dirShape_setDin own_fullDisk hheld rfl
    (by decide +kernel : 1 < fullDisk.sb.ninodes) rfl
  refine ⟨fullDisk.setDin 0 emptyDinode, .init ⟨hshape, hsize⟩, heldAs_setDin hheld rfl, rfl, rfl,
    hsize, ?_, ?_⟩
  · rw [Sys.dirMap, Sys.dirCount, hsize]
    rfl
  · exact Prog.eq_error_of_fault (by decide +kernel)

end Xv6
