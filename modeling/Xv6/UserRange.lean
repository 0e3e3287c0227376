import Mathlib
import Xv6.Growproc
import Xv6.UserCopy

/-!
# Ranges of User Pages

What `allocuvm` and `deallocuvm` do to a range of user pages, in any directory and for all answers
of `kalloc`. `allocuvm` does not look at what `mappages` returns, so a page for which no page table
is to be had is left out, although the new size is returned. `deallocuvm` goes on 4 MB further where
a page table is missing; when it started in the middle of that table it jumps over the first pages
of the next one.

## Main results

* `allocuvm_complete_iff`: **`allocuvm` is complete or undone** unless a page table is lacking.
* `deallocuvm_unmaps_iff`: **`deallocuvm` unmaps the range** unless it jumps over a mapped page.
-/

namespace Xv6.Vmem

open Vm (PGSIZE KERNBASE pages USERPAGES)

/-! ### `allocuvm` -/

/-- **Complete or undone**: what is to hold of the result of `allocuvm`. The new pages are mapped
for the user to different pages that were free, filled with 0, or nothing has changed; what was
mapped is mapped as before. -/
def CompleteOrUndone (d : Pgdir) (m : Phys) (oldsz newsz : ℕ) : ℕ × Pgdir × Phys → Prop
  | (r, d', m') =>
    (r = newsz ∨ r = 0) ∧
    (r = newsz →
      (∀ j, pages oldsz ≤ j → j < pages newsz → ∃ p, d'.entry j = some p ∧ p.user = true ∧
        p.write = true ∧ p.frame ∈ m.free ∧ m'.byte p.frame = fun _ => 0) ∧
      ∀ i j p q, pages oldsz ≤ i → i < pages newsz → pages oldsz ≤ j → j < pages newsz →
        d'.entry i = some p → d'.entry j = some q → p.frame = q.frame → i = j) ∧
    (r = 0 → ∀ j < USERPAGES, d'.entry j = d.entry j) ∧
    (∀ j p, d.entry j = some p → d'.entry j = some p) ∧
    ∀ f, f ∉ m.free → m'.byte f = m.byte f

section Alloc

variable {K : Link} {d d' : Pgdir} {m m' : Phys} {oldsz newsz : ℕ} {A : Answers m.free}

/-- The directory maps exactly the pages of the first `sz` bytes of user memory. -/
def Pgdir.MapsSize (d : Pgdir) (sz : ℕ) : Prop :=
  ∀ j < USERPAGES, (d.entry j).isSome = true ↔ j < pages sz

theorem Pgdir.MapsSize.hasTable (h : d.MapsSize oldsz) (hsz : oldsz ≤ KERNBASE) {j : ℕ}
    (hj : j < pages oldsz) : d.hasTable j = true := by
  obtain ⟨p, hp⟩ := Option.isSome_iff_exists.mp ((h j (hj.trans_le (Vm.pages_le hsz))).mpr hj)
  exact hasTable_of_entry hp

theorem Pgdir.MapsSize.entry_none (h : d.MapsSize oldsz) {j : ℕ} (hj : pages oldsz ≤ j)
    (hjU : j < USERPAGES) : d.entry j = none := by
  rw [← Option.not_isSome_iff_eq_none, h j hjU]
  omega

/-- When there is a page for every new page, all depends on the page tables. -/
theorem Grown.completeOrUndone_iff (hmap : d.MapsSize oldsz) (hpos : 0 < newsz)
    (hnew : newsz < KERNBASE) (hg : Grown d m A (pages oldsz) (pages newsz) d' m') :
    CompleteOrUndone d m oldsz newsz (newsz, d', m') ↔
      ∀ j, pages oldsz ≤ j → j < pages newsz → Tabled d A.table (pages oldsz) (j + 1) j := by
  have hN : pages newsz ≤ USERPAGES := Vm.pages_le hnew.le
  constructor
  · rintro ⟨-, hall, -⟩ j hj hjN
    by_contra ht
    obtain ⟨p, hp, -⟩ := (hall rfl).1 j hj hjN
    obtain ⟨f, -, -, hnone⟩ := hg.new j hj hjN
    rw [hnone ht] at hp
    cases hp
  · intro htab
    have hentry : ∀ j, pages oldsz ≤ j → j < pages newsz → ∃ f, A.page (j * PGSIZE) = some f ∧
        d'.entry j = some (.new f (PTE_W ||| PTE_U)) := by
      intro j hj hjN
      obtain ⟨f, hf, hsome, -⟩ := hg.new j hj hjN
      exact ⟨f, hf, hsome (htab j hj hjN)⟩
    refine ⟨Or.inl rfl, fun _ => ⟨fun j hj hjN => ?_, ?_⟩, fun h => by omega, fun j p hp => ?_,
      hg.byte⟩
    · obtain ⟨f, hf, hd⟩ := hentry j hj hjN
      exact ⟨_, hd, Pte.user_new f, Pte.write_new f, A.page_mem hf, hg.zero j f hj hjN hf⟩
    · intro i j p q hi hiN hj hjN hp hq heq
      obtain ⟨f, hf, hd⟩ := hentry i hi hiN
      obtain ⟨g, hg', hd'⟩ := hentry j hj hjN
      rw [hd] at hp
      rw [hd'] at hq
      cases hp
      cases hq
      obtain rfl : f = g := heq
      exact Nat.eq_of_mul_eq_mul_right (by decide) (A.page_inj hf hg')
    · rw [hg.same j, hp]
      rintro ⟨hj, hjN⟩
      rw [hmap.entry_none hj (by omega)] at hp
      cases hp

/-- **`allocuvm` is complete or undone**, in every directory that maps the pages of the old size and
for all answers of `kalloc`, unless there is a page for every new page but none for one of the page
tables. -/
theorem allocuvm_complete_iff (A : Answers m.free) (hfree : ∀ f ∈ m.free, K.IsPage f)
    (hmap : d.MapsSize oldsz) (hle : oldsz ≤ newsz) (hpos : 0 < newsz) (hnew : newsz < KERNBASE) :
    (∃ r, allocuvm K A.page A.table d m oldsz newsz = .ok r ∧ CompleteOrUndone d m oldsz newsz r) ↔
      ¬ TableLacking d A (pages oldsz) (pages newsz) := by
  have hold : oldsz ≤ KERNBASE := hle.trans hnew.le
  have hN : pages newsz ≤ USERPAGES := Vm.pages_le hnew.le
  have hlow : ∀ j < pages oldsz, d.hasTable j = true := fun j hj => hmap.hasTable hold hj
  obtain ⟨hall, hnone⟩ := allocuvm_spec (K := K) (m := m) (A := A) hnew hle
    fun j hj hjN => hmap.entry_none hj (by omega)
  by_cases hp : ∀ j, pages oldsz ≤ j → j < pages newsz → (A.page (j * PGSIZE)).isSome = true
  · obtain ⟨d', m', hrun, hg⟩ := hall hp
    rw [← tabled_iff_not_lacking (first_or_hasTable hlow) hp,
      ← hg.completeOrUndone_iff hmap hpos hnew, hrun]
    constructor
    · rintro ⟨r, hr, h⟩
      exact Except.ok.inj hr ▸ h
    · exact fun h => ⟨_, rfl, h⟩
  · refine iff_of_true ?_ fun h => hp h.1
    push Not at hp
    obtain ⟨j, hj, hjN, hno⟩ := hp
    obtain ⟨d', m', hrun, hres⟩ := hnone hfree hlow ⟨j, hj, hjN, by simpa using hno⟩
    exact ⟨_, hrun, Or.inr rfl, fun h => by omega, fun _ j _ => hres.entry j,
      fun j p hp => by rw [hres.entry j, hp], hres.byte⟩

end Alloc

/-- A directory without page tables. -/
def emptyDir : Pgdir := ⟨1000, fun _ => none⟩

/-- Memory with two free pages. -/
def twoFree : Phys := ⟨[2000, 2001], fun _ _ => 0⟩

/-- The answers of `kalloc` for the page at address 0 and for its page table. -/
def firstPage (page table : Option ℕ) (hpage : ∀ f ∈ page, f = 2000)
    (htable : ∀ f ∈ table, f = 2001) :
    Answers twoFree.free where
  page a := if a = 0 then page else none
  table a := if a = 0 then table else none
  page_mem {a f} h := by
    split_ifs at h
    rw [hpage f h]
    exact List.mem_cons_self
  table_mem {a f} h := by
    split_ifs at h
    rw [htable f h]
    exact List.mem_cons_of_mem _ List.mem_cons_self
  page_inj {a b f} h h' := by
    split_ifs at h h' with ha hb
    rw [ha, hb]
  table_inj {a b f} h h' := by
    split_ifs at h h' with ha hb
    rw [ha, hb]
  apart {a b f} h h' := by
    split_ifs at h h'
    have h1 := hpage f h
    have h2 := htable f h'
    omega

theorem mapsSize_emptyDir : emptyDir.MapsSize 0 :=
  fun j _ => iff_of_false Bool.false_ne_true (Nat.not_lt_zero j)

theorem isPage_twoFree : ∀ f ∈ twoFree.free, smallLink.IsPage f := by
  simp only [twoFree, List.forall_mem_cons]
  exact ⟨⟨by decide, by decide⟩, ⟨by decide, by decide⟩, by simp⟩

/-- `allocuvm(pgdir, 0, 4096)` with a page for the page table. -/
theorem allocuvm_complete_first :
    ∃ r, allocuvm smallLink (fun a => if a = 0 then some 2000 else none)
      (fun a => if a = 0 then some 2001 else none) emptyDir twoFree 0 4096 = .ok r ∧
      CompleteOrUndone emptyDir twoFree 0 4096 r := by
  refine (allocuvm_complete_iff (firstPage (some 2000) (some 2001) (by simp) (by simp))
    isPage_twoFree
    mapsSize_emptyDir (by decide) (by decide) (by decide)).mpr ?_
  rintro ⟨-, j, -, hj, -, -, hno⟩
  have hpages : pages 4096 = 1 := rfl
  obtain rfl : j = 0 := by omega
  cases hno

/-- **`allocuvm(pgdir, 0, 4096)` without a page for the page table** returns 4096 and has mapped
nothing. -/
theorem allocuvm_no_table :
    (allocuvm smallLink (fun a => if a = 0 then some 2000 else none) (fun _ => none) emptyDir
      twoFree 0 4096).map (fun r => (r.1, r.2.1.entry 0)) = .ok (4096, none) ∧
    ¬ ∃ r, allocuvm smallLink (fun a => if a = 0 then some 2000 else none) (fun _ => none) emptyDir
      twoFree 0 4096 = .ok r ∧ CompleteOrUndone emptyDir twoFree 0 4096 r := by
  have hrun : (allocuvm smallLink (fun a => if a = 0 then some 2000 else none) (fun _ => none)
      emptyDir twoFree 0 4096).map (fun r => (r.1, r.2.1.entry 0)) = .ok (4096, none) := by
    decide +kernel
  refine ⟨hrun, ?_⟩
  rintro ⟨⟨r, d', m'⟩, hr, -, hall, -⟩
  rw [hr] at hrun
  obtain ⟨hr', hd'⟩ := Prod.mk.inj (Except.ok.inj hrun)
  obtain ⟨p, hp, -⟩ := (hall hr').1 0 (by decide) (by decide)
  dsimp only at hd'
  rw [hd'] at hp
  cases hp

/-! ### `deallocuvm` -/

/-- **The range is unmapped**: what is to hold of `deallocuvm(pgdir, oldsz, newsz)`. It returns, no
page of the range is mapped, those that were have each been given to `kfree` once, and every other
entry is what it was. -/
def UnmapsRange (K : Link) (d : Pgdir) (m : Phys) (oldsz newsz : ℕ) : Prop :=
  ∃ d' m' freed, deallocuvm K d m oldsz newsz = .ok (newsz, d', m') ∧
    (∀ j, pages newsz ≤ j → j < pages oldsz → d'.entry j = none) ∧
    (m'.free = freed ++ m.free ∧ freed.Nodup ∧ ∀ f, f ∈ freed ↔
      ∃ j p, pages newsz ≤ j ∧ j < pages oldsz ∧ d.entry j = some p ∧ p.frame = f) ∧
    (∀ j, ¬ (pages newsz ≤ j ∧ j < pages oldsz) → d'.entry j = d.entry j) ∧
    d'.frame = d.frame ∧ ∀ i, d'.tableFrame i = d.tableFrame i

section Dealloc

variable {K : Link} {d : Pgdir} {oldsz newsz : ℕ}

/-- **`deallocuvm` unmaps the range** exactly if it does not jump over a mapped page: a page of the
range with a smaller index in its page table than the first page of the range has in its own, when
the tables from that of the first page on are missing up to it. -/
theorem deallocuvm_unmaps_iff (m : Phys) (hlt : newsz < oldsz) (hold : oldsz ≤ KERNBASE)
    (hpage : ∀ j p, j < USERPAGES → d.entry j = some p → K.IsPage p.frame) (hinj : d.Inj) :
    UnmapsRange K d m oldsz newsz ↔
      ∀ j p, pages newsz ≤ j → j < pages oldsz → d.entry j = some p →
        ¬ d.Missed (pages newsz) j := by
  have hN : pages oldsz ≤ USERPAGES := Vm.pages_le hold
  have hrun : ∀ {d' m'}, deallocuvm K d m oldsz newsz = .ok (newsz, d', m') ↔
      deallocLoop K oldsz (pages oldsz) (pages newsz * PGSIZE) d m = .ok (d', m') := by
    intro d' m'
    rw [deallocuvm, if_neg (Nat.not_le.mpr hlt), Vm.pgroundup_eq (hlt.le.trans hold)]
    split <;> simp_all
  constructor
  · rintro ⟨d', m', freed, h, hnone, -⟩ j p hj hjN hp hmiss
    have hsame := deallocLoop_missed hold (hrun.mp h) (Or.inr hmiss)
    rw [hnone j hj hjN, hp] at hsame
    cases hsame
  · intro hseen
    obtain ⟨d', m', h, hun⟩ := deallocLoop_spec (m := m) hold rfl (Nat.sub_le _ (pages newsz)) hseen
      fun j p _ hjN hp => hpage j p (by omega) hp
    refine ⟨d', m', (d.frames (pages newsz) (pages oldsz)).reverse, hrun.mpr h, fun j hj hjN => ?_,
      ⟨hun.free, ?_, fun f => ?_⟩, fun j hj => ?_, hun.frame, hun.tables⟩
    · rw [hun.entry j, if_pos ⟨hj, hjN⟩]
    · rw [List.nodup_reverse]
      exact nodup_frames fun _ hiN _ hjN => hinj (by omega) (by omega)
    · rw [List.mem_reverse, mem_frames]
    · rw [hun.entry j, if_neg hj]

end Dealloc

/-- `deallocuvm(pgdir, 4096, 0)` for a directory with one page. -/
theorem deallocuvm_unmaps_one : UnmapsRange smallLink oneDir onePage.phys 4096 0 :=
  (deallocuvm_unmaps_iff onePage.phys (by decide) (by decide) (fun _ _ => onePage.isPage)
    onePage.inj).mpr fun _ _ hj _ _ => not_missed (Or.inl rfl) hj

/-- A directory without a first page table, whose second one maps the page at 4 MB. -/
def sparseDir : Pgdir :=
  ⟨1000, fun i => if i = 1 then some ⟨1001, fun j => if j = 0 then some onePte else none⟩ else none⟩

/-- **`deallocuvm(pgdir, 8 MB, 4096)`** starts at the second page, finds no page table, goes on to
the second page of the next one, and leaves the page at 4 MB mapped. -/
theorem deallocuvm_jumps :
    sparseDir.entry 1024 = some onePte ∧
    (∀ d' m', deallocuvm smallLink sparseDir onePage.phys 0x800000 4096 = .ok (4096, d', m') →
      d'.entry 1024 = some onePte) ∧
    ¬ UnmapsRange smallLink sparseDir onePage.phys 0x800000 4096 := by
  have hentry : sparseDir.entry 1024 = some onePte := rfl
  have hmiss : sparseDir.Missed 1 1024 := by
    refine ⟨by decide, fun i _ hi => ?_⟩
    obtain rfl : i = 0 := Nat.lt_one_iff.mp hi
    rfl
  have hstays : ∀ d' m', deallocuvm smallLink sparseDir onePage.phys 0x800000 4096 =
      .ok (4096, d', m') →
      d'.entry 1024 = some onePte := by
    intro d' m' h
    rw [deallocuvm, if_neg (by decide)] at h
    split at h
    · cases h
    · rename_i hrun
      cases h
      exact (deallocLoop_missed (k := 1) (by decide) hrun (Or.inr hmiss)).trans hentry
  refine ⟨hentry, hstays, ?_⟩
  rintro ⟨d', m', freed, h, hnone, -⟩
  have hsome := hstays d' m' h
  rw [hnone 1024 (by decide) (by decide)] at hsome
  cases hsome

end Xv6.Vmem
