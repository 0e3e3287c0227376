import Xv6.BlockOwner

/-!
# The Inode Cache

The critical sections of `iget`, `ilock`, `iunlock` and `iput` keep the ownership invariant:
they change which copy of an inode is the current one, but not what it says. The exception is
the branch of `iput` that truncates and frees, which is not taken for a reference that `iget`
has just made.

## Main results

* `Own.of_entries`: the invariant is kept when the valid entries stay.
* `Own.load`: reading an inode into its cache entry keeps the invariant.
* `Own.iget`, `Own.drop`: taking a reference, and giving back one that is not the last one of a
  valid entry.
-/

namespace Xv6

section Cache

variable {s t : Sys} {ip inum : ℕ}

theorem setInode_icache {v : Inode} (a : ℕ) :
    (s.setInode ip v).icache a = if a = ip then v else s.icache a := by
  simp [Sys.setInode, Function.update_apply]

/-- The valid entries and what they say stay the same. -/
structure SameEntries (s t : Sys) : Prop where
  held : ∀ a, t.Held a ↔ s.Held a
  inum : ∀ a, s.Held a → (t.icache a).inum = (s.icache a).inum
  din : ∀ a, s.Held a → (t.icache a).din = (s.icache a).din

/-- The inodes depend on the entries that are in use only. -/
theorem SameEntries.dinode (h : SameEntries s t) (hs : s.Uniq) (ht : t.Uniq)
    (hdisk : t.disk = s.disk) (i : ℕ) : t.dinode i = s.dinode i := by
  by_cases hex : ∃ a, s.Held a ∧ (s.icache a).inum = i
  · obtain ⟨a, ha, rfl⟩ := hex
    have := Sys.dinode_of_held ht ((h.held a).mpr ha)
    rw [h.inum a ha, h.din a ha] at this
    rw [this, Sys.dinode_of_held hs ha]
  · have hno : ∀ a, s.Held a → (s.icache a).inum ≠ i := fun a ha he => hex ⟨a, ha, he⟩
    have hno' : ∀ a, t.Held a → (t.icache a).inum ≠ i := fun a ha => by
      have ha' := (h.held a).mp ha
      rw [h.inum a ha']
      exact hno a ha'
    rw [Sys.dinode_of_forall_ne hno, Sys.dinode_of_forall_ne hno', Sys.diskInode, Sys.diskInode,
      hdisk]

/-- **The invariant is kept when the disk, the log and the current inodes stay.** -/
theorem Own.of_dinode (h : Own s) (hdisk : t.disk = s.disk) (hlog : t.log = s.log)
    (hcache : t.CacheOk) (hdin : ∀ i < s.sb.ninodes, t.dinode i = s.dinode i) : Own t := by
  have hsb : t.sb = s.sb := Sys.sb_eq_of_disk (by rw [hdisk])
  refine h.congr hsb (by rw [hlog]) hcache ?_ (fun x hx => ?_) fun q hq => ?_
  · refine ⟨hlog ▸ h.nodup, ?_, ?_⟩
    · rw [hlog]
      exact h.lt
    · rw [hlog, hdisk]
      exact h.slot
  · exact Sys.used_congr hsb (fun _ _ => by rw [hdisk]) hx
  · exact ptr_congr (fun i hi r _ => by rw [hdin i hi]) (fun _ _ _ _ => by rw [hdisk]) hq

/-- The invariant is kept when the valid entries stay. -/
theorem Own.of_entries (h : Own s) (hdisk : t.disk = s.disk) (hlog : t.log = s.log)
    (huniq : t.Uniq) (he : SameEntries s t) : Own t := by
  have hsb : t.sb = s.sb := Sys.sb_eq_of_disk (by rw [hdisk])
  refine h.of_dinode hdisk hlog ⟨huniq, fun a ha => ?_, fun a ha => ?_⟩
    fun i _ => he.dinode h.uniq huniq hdisk i
  · rw [he.inum a ((he.held a).mp ha), hsb]
    exact h.inum_lt a ((he.held a).mp ha)
  · rw [he.din a ((he.held a).mp ha)]
    exact h.fits a ((he.held a).mp ha)

/-! ### Changing one entry -/

section SetInode

variable {v : Inode}

/-- The other entries are held as before. -/
theorem held_setInode_of_ne {a : ℕ} (hne : a ≠ ip) : (s.setInode ip v).Held a ↔ s.Held a := by
  constructor <;> rintro ⟨h1, h2, h3⟩
  · rw [setInode_icache, if_neg hne] at h2 h3
    exact ⟨h1, h2, h3⟩
  · refine ⟨h1, ?_, ?_⟩ <;> rw [setInode_icache, if_neg hne] <;> assumption

/-- The entry that has changed. -/
theorem held_setInode_self :
    (s.setInode ip v).Held ip ↔ ip < NINODE ∧ 0 < v.ref ∧ v.valid = true := by
  constructor
  · rintro ⟨h1, h2, h3⟩
    rw [setInode_icache, if_pos rfl] at h2 h3
    exact ⟨h1, h2, h3⟩
  · rintro ⟨h1, h2, h3⟩
    refine ⟨h1, ?_, ?_⟩ <;> rw [setInode_icache, if_pos rfl] <;> assumption

/-- An entry may change to an inode that no other entry in use has. -/
theorem Sys.Uniq.setInode (h : s.Uniq)
    (hv : 0 < v.ref → ∀ a < NINODE, a ≠ ip → 0 < (s.icache a).ref → (s.icache a).inum ≠ v.inum) :
    (s.setInode ip v).Uniq := by
  intro a ha b hb ra rb he
  rw [setInode_icache] at ra he
  rw [setInode_icache] at rb he
  split_ifs at ra rb he with h1 h2 h2
  · rw [h1, h2]
  · exact absurd he.symm (hv ra b hb h2 rb)
  · exact absurd he (hv rb a ha h1 ra)
  · exact h a ha b hb ra rb he

/-- One entry changes, and stays valid or not valid with the same contents. -/
theorem SameEntries.setInode
    (hvalid : (0 < v.ref ∧ v.valid = true) ↔ (0 < (s.icache ip).ref ∧ (s.icache ip).valid = true))
    (hsame : s.Held ip → v.inum = (s.icache ip).inum ∧ v.din = (s.icache ip).din) :
    SameEntries s (s.setInode ip v) := by
  have hheld : (s.setInode ip v).Held ip ↔ s.Held ip := by
    rw [held_setInode_self, hvalid]
    exact ⟨fun hh => ⟨hh.1, hh.2.1, hh.2.2⟩, fun hh => ⟨hh.lt, hh.ref, hh.valid⟩⟩
  refine ⟨fun a => ?_, fun a ha => ?_, fun a ha => ?_⟩
  · by_cases ha : a = ip
    · subst ha
      exact hheld
    · exact held_setInode_of_ne ha
  · rw [setInode_icache]
    split_ifs with he
    · subst he
      exact (hsame ha).1
    · rfl
  · rw [setInode_icache]
    split_ifs with he
    · subst he
      exact (hsame ha).2
    · rfl

/-- **Changing one entry** so that it stays unique, and stays valid or not valid with the same
contents. -/
theorem Own.setInode (h : Own s)
    (huniq : 0 < v.ref → ∀ a < NINODE, a ≠ ip → 0 < (s.icache a).ref →
      (s.icache a).inum ≠ v.inum)
    (hvalid : (0 < v.ref ∧ v.valid = true) ↔ (0 < (s.icache ip).ref ∧ (s.icache ip).valid = true))
    (hsame : s.Held ip → v.inum = (s.icache ip).inum ∧ v.din = (s.icache ip).din) :
    Own (s.setInode ip v) :=
  h.of_entries rfl rfl (h.uniq.setInode huniq) (SameEntries.setInode hvalid hsame)

/-- An entry in use is the only one of its inode. -/
theorem Sys.Uniq.inum_ne (h : s.Uniq) (hip : ip < NINODE) (href : 0 < (s.icache ip).ref) :
    ∀ a < NINODE, a ≠ ip → 0 < (s.icache a).ref → (s.icache a).inum ≠ (s.icache ip).inum :=
  fun a ha hne ra he => hne (h a ha ip hip ra href he)

end SetInode

/-- Locking and unlocking. -/
theorem Own.setBusy (h : Own s) (hip : ip < NINODE) (busy : Bool) :
    Own (s.setInode ip { s.icache ip with busy := busy }) :=
  h.setInode (fun href => h.uniq.inum_ne hip href) Iff.rfl fun _ => ⟨rfl, rfl⟩

/-- The reference is not the last one of a valid entry, so giving it back frees nothing. -/
def Sys.Spare (s : Sys) (ip : ℕ) : Prop :=
  ip < NINODE ∧ 0 < (s.icache ip).ref ∧ (1 < (s.icache ip).ref ∨ (s.icache ip).valid = false)

/-- A reference that is given back does not concern those that hold the inode. -/
theorem SameEntries.drop (hsp : s.Spare ip) :
    SameEntries s (s.setInode ip { s.icache ip with ref := (s.icache ip).ref - 1 }) := by
  obtain ⟨hip, href, hsp⟩ := hsp
  refine SameEntries.setInode ?_ fun _ => ⟨rfl, rfl⟩
  rcases hsp with h1 | h1
  · simp [href, h1]
  · simp [h1]

/-- One reference less. -/
theorem Own.drop (h : Own s) (hsp : s.Spare ip) :
    Own (s.setInode ip { s.icache ip with ref := (s.icache ip).ref - 1 }) :=
  h.of_entries rfl rfl (h.uniq.setInode fun _ => h.uniq.inum_ne hsp.1 hsp.2.1)
    (SameEntries.drop hsp)

/-- The critical section of `iget`: it returns an entry with a reference to spare, and changes no
valid entry otherwise. -/
theorem Own.iget {md : Mode} {p ip' : ℕ} (h : Own s)
    (hrun : exec md p (.iget inum) s = .ok (ip', t)) :
    Own t ∧ t.Spare ip' ∧ t.log = s.log ∧ t.disk = s.disk ∧ SameEntries s t := by
  simp only [exec] at hrun
  cases hc : s.findCached inum with
  | some a =>
    rw [hc] at hrun
    cases hrun
    have hlt := List.mem_range.mp (List.mem_of_find?_eq_some hc)
    have hp := List.find?_some hc
    simp only [decide_eq_true_eq] at hp
    have hpos : 0 < (s.icache ip').ref + 1 := by omega
    have he : SameEntries s
        (s.setInode ip' { s.icache ip' with ref := (s.icache ip').ref + 1 }) :=
      SameEntries.setInode (by simp [hp.1, hpos]) fun _ => ⟨rfl, rfl⟩
    refine ⟨h.of_entries rfl rfl (h.uniq.setInode fun _ => h.uniq.inum_ne hlt hp.1) he,
      ⟨hlt, ?_, .inl ?_⟩, rfl, rfl, he⟩
    · simpa [setInode_icache] using hpos
    · simpa [setInode_icache] using hp.1
  | none =>
    rw [hc] at hrun
    cases he : s.findEmpty with
    | none =>
      rw [he] at hrun
      cases hrun
    | some a =>
      rw [he] at hrun
      cases hrun
      have hlt := List.mem_range.mp (List.mem_of_find?_eq_some he)
      have hz : (s.icache ip').ref = 0 := by simpa using List.find?_some he
      have hnone := List.find?_eq_none.mp hc
      have he : SameEntries s (s.setInode ip' { s.icache ip' with
          inum := inum, ref := 1, busy := false, valid := false }) :=
        SameEntries.setInode (by simp [hz]) fun hh => absurd hh.ref (by omega)
      refine ⟨h.of_entries rfl rfl (h.uniq.setInode fun _ a ha _ ra hin => ?_) he,
        ⟨hlt, ?_, .inr ?_⟩, rfl, rfl, he⟩
      · have := hnone a (List.mem_range.mpr ha)
        simp [ra] at this
        exact this hin
      · simp [setInode_icache]
      · simp [setInode_icache]

/-! ### Reading an inode -/

theorem setInode_setInode {v w : Inode} : (s.setInode ip v).setInode ip w = s.setInode ip w := by
  simp only [Sys.setInode, Function.update_idem]

/-- The lock of an entry that nobody holds. -/
theorem run_lock {md : Mode} {p : ℕ} (href : 0 < (s.icache ip).ref)
    (hbusy : (s.icache ip).busy = false) :
    Prog.run (exec md p) (perform (.lock ip)) s =
      .ok ((), s.setInode ip { s.icache ip with busy := true }) := by
  rw [run_perform]
  simp only [exec, hbusy]
  rw [if_neg (by omega)]
  rfl

/-- `ilock` of an entry that is valid. -/
theorem run_ilock_valid {md : Mode} {p : ℕ} (href : 0 < (s.icache ip).ref)
    (hbusy : (s.icache ip).busy = false) (hvalid : (s.icache ip).valid = true) :
    Prog.run (exec md p) (ilock ip) s =
      .ok ((), s.setInode ip { s.icache ip with busy := true }) := by
  rw [ilock, Prog.run_bind, run_lock href hbusy, Prog.ok_bind, Prog.run_bind, run_getInode,
    Prog.ok_bind, setInode_icache, if_pos rfl, if_pos hvalid]
  rfl

/-- `ilock` of an entry that is not valid reads the inode from the disk. -/
theorem run_ilock_load {md : Mode} {p : ℕ} (href : 0 < (s.icache ip).ref)
    (hbusy : (s.icache ip).busy = false) (hvalid : (s.icache ip).valid = false) :
    Prog.run (exec md p) (ilock ip) s =
      if (s.diskInode (s.icache ip).inum).type = 0 then .error (.panic .ilockNoType)
      else .ok ((), s.setInode ip { s.icache ip with
        busy := true, valid := true, din := s.diskInode (s.icache ip).inum }) := by
  have hset : ∀ u : Sys, Prog.run (exec md p) (perform (.setValid ip)) u =
      .ok ((), u.setInode ip { u.icache ip with valid := true }) := fun _ => run_perform _
  rw [ilock, Prog.run_bind, run_lock href hbusy, Prog.ok_bind, Prog.run_bind, run_getInode,
    Prog.ok_bind, setInode_icache, if_pos rfl, if_neg (by simp [hvalid]), Prog.run_bind, run_bread,
    Prog.ok_bind, Prog.run_bind, run_setDinode, Prog.ok_bind, Prog.run_bind, hset, Prog.ok_bind]
  have hd : getDinode ((s.setInode ip { s.icache ip with busy := true }).disk
      (IBLOCK (s.icache ip).inum)) ((s.icache ip).inum % IPB) =
      s.diskInode (s.icache ip).inum := rfl
  rw [hd]
  split_ifs
  · rfl
  · rw [Prog.run_pure, Sys.setDin, setInode_setInode, setInode_setInode, setInode_icache,
      setInode_icache, if_pos rfl, if_pos rfl]

/-- `ilock` of an entry that is not valid yet: the inode is read into it. -/
theorem Own.load (h : Own s) (hip : ip < NINODE) (href : 0 < (s.icache ip).ref)
    (hvalid : (s.icache ip).valid = false) (hi : (s.icache ip).inum < s.sb.ninodes) :
    Own (s.setInode ip { s.icache ip with
      din := s.diskInode (s.icache ip).inum, valid := true }) := by
  have huniq : (s.setInode ip { s.icache ip with
      din := s.diskInode (s.icache ip).inum, valid := true }).Uniq :=
    h.uniq.setInode fun _ => h.uniq.inum_ne hip href
  have hself : (s.setInode ip { s.icache ip with
      din := s.diskInode (s.icache ip).inum, valid := true }).Held ip :=
    held_setInode_self.mpr ⟨hip, href, rfl⟩
  have hno : ∀ a, s.Held a → (s.icache a).inum ≠ (s.icache ip).inum := by
    intro a ha he
    have := h.uniq a ha.lt ip hip ha.ref href he
    subst this
    rw [ha.valid] at hvalid
    cases hvalid
  refine h.of_dinode rfl rfl ⟨huniq, fun a ha => ?_, fun a ha => ?_⟩ fun i _ => ?_
  · rw [setInode_icache]
    split_ifs with he
    · exact hi
    · exact h.inum_lt a ((held_setInode_of_ne he).mp ha)
  · rw [setInode_icache]
    split_ifs with he
    · exact fits_getDinode _ _
    · exact h.fits a ((held_setInode_of_ne he).mp ha)
  · by_cases hie : i = (s.icache ip).inum
    · subst hie
      have := Sys.dinode_of_held huniq hself
      rw [setInode_icache, if_pos rfl] at this
      exact this.trans (Sys.dinode_of_forall_ne hno).symm
    · by_cases hex : ∃ a, s.Held a ∧ (s.icache a).inum = i
      · obtain ⟨a, ha, rfl⟩ := hex
        have hne : a ≠ ip := fun he => hie (he ▸ rfl)
        have := Sys.dinode_of_held huniq ((held_setInode_of_ne hne).mpr ha)
        rw [setInode_icache, if_neg hne] at this
        rw [this, Sys.dinode_of_held h.uniq ha]
      · have hno' : ∀ a, s.Held a → (s.icache a).inum ≠ i := fun a ha he => hex ⟨a, ha, he⟩
        rw [Sys.dinode_of_forall_ne hno', Sys.dinode_of_forall_ne]
        · rfl
        · intro a ha
          rw [setInode_icache]
          split_ifs with he
          · exact Ne.symm hie
          · exact hno' a ((held_setInode_of_ne he).mp ha)

end Cache

end Xv6
