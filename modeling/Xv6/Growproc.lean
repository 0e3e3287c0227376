import Xv6.Vmem

/-!
# `sbrk` All or Nothing

`growproc` either changes the size by `n`, maps exactly the pages below the new size and leaves the
pages below both sizes alone, or fails and changes nothing. There are three exceptions. It takes the
new size 0, which `deallocuvm` returns after it has unmapped everything, for a failure; a shrink by
more than the size wraps around to a size above the old one, which `deallocuvm` takes for nothing to
do; and `allocuvm` does not notice that `mappages` found no page for a page table.

## Main results

* `sbrk_by_size`: `sbrk(-sz)` unmaps everything and fails.
* `growproc_all_or_nothing`: **`growproc` is all or nothing exactly in the other cases.**
-/

namespace Xv6.Vmem

open Vm (PGSIZE KERNBASE NPTENTRIES pages USERPAGES)

/-- `growproc(n)`: whether it returns 0, and the size, the directory and the memory afterwards. -/
def growproc (K : Link) (page table : ℕ → Option ℕ) (d : Pgdir) (m : Phys) (sz : ℕ)
    (n : BitVec 32) :
    Except Panic (Bool × ℕ × Pgdir × Phys) :=
  let newsz := (((sz : ℤ) + n.toInt) % 2 ^ 32).toNat
  if n.toInt > 0 then
    match allocuvm K page table d m sz newsz with
    | .error e => .error e
    | .ok (sz', d, m) => if sz' = 0 then .ok (false, sz, d, m) else .ok (true, sz', d, m)
  else if n.toInt < 0 then
    match deallocuvm K d m sz newsz with
    | .error e => .error e
    | .ok (sz', d, m) => if sz' = 0 then .ok (false, sz, d, m) else .ok (true, sz', d, m)
  else .ok (true, sz, d, m)

/-- **The memory of a process**: the pages below its size, and no others, are mapped to different
physical pages that are in use. -/
structure Image (K : Link) where
  dir : Pgdir
  phys : Phys
  sz : ℕ
  sz_pos : 0 < sz
  sz_lt : sz < KERNBASE
  mapped : ∀ k < USERPAGES, (dir.entry k).isSome = true ↔ k < pages sz
  isPage : ∀ {k p}, k < USERPAGES → dir.entry k = some p → K.IsPage p.frame
  inUse : ∀ {k p}, k < USERPAGES → dir.entry k = some p → p.frame ∉ phys.free
  inj : ∀ {j k p q}, j < USERPAGES → k < USERPAGES → dir.entry j = some p → dir.entry k = some q →
    p.frame = q.frame → j = k
  free : ∀ f ∈ phys.free, K.IsPage f

/-- The bytes of page `k`, if it is mapped. -/
def content (d : Pgdir) (m : Phys) (k : ℕ) : Option (ℕ → UInt8) :=
  (d.entry k).map fun p => m.byte p.frame

/-- **All or nothing**: what is to hold after `growproc(n)`. -/
def AllOrNothing {K : Link} (I : Image K) (n : ℤ) : Bool × ℕ × Pgdir × Phys → Prop
  | (true, sz, d, m) =>
    (sz : ℤ) = I.sz + n ∧ sz < KERNBASE ∧
    (∀ k < USERPAGES, (d.entry k).isSome = true ↔ k < pages sz) ∧
    (∀ k, k < pages I.sz → k < pages sz → content d m k = content I.dir I.phys k) ∧
    ∀ k, pages I.sz ≤ k → k < pages sz → content d m k = some fun _ => 0
  | (false, sz, d, _) => sz = I.sz ∧ ∀ k < USERPAGES, d.entry k = I.dir.entry k

/-- Growing to `N` pages finds a page for each of them, but none for the page table of one that is
the first of its table. -/
def LacksTable {K : Link} (I : Image K) (A : Answers I.phys.free) (N : ℕ) : Prop :=
  TableLacking I.dir A (pages I.sz) N

section Growproc

variable {K : Link} (I : Image K) (A : Answers I.phys.free)

theorem Image.pages_le : pages I.sz ≤ USERPAGES := Vm.pages_le I.sz_lt.le

variable {j sz : ℕ}

theorem Image.hasTable (hj : j < pages I.sz) : I.dir.hasTable j = true := by
  obtain ⟨p, hp⟩ := Option.isSome_iff_exists.mp
    ((I.mapped j (hj.trans_le I.pages_le)).mpr hj)
  exact hasTable_of_entry hp

/-- Nothing is mapped behind the size. -/
theorem Image.entry_none (hj : pages I.sz ≤ j) (hj' : j < USERPAGES) : I.dir.entry j = none := by
  cases hp : I.dir.entry j with
  | none => rfl
  | some p =>
    have := (I.mapped j hj').mp (by rw [hp]; rfl)
    omega

theorem pages_pos (h : 0 < sz) : 0 < pages sz := by
  simp only [pages, PGSIZE]
  omega

/-- **Growing**, when there is a page for every new page. -/
theorem grow_all {d : Pgdir} {m : Phys} (hsz : sz < KERNBASE) (hle : I.sz ≤ sz)
    (hg : Grown I.dir I.phys A (pages I.sz) (pages sz) d m) :
    AllOrNothing I (sz - I.sz) (true, sz, d, m) ↔
      ∀ j, pages I.sz ≤ j → j < pages sz → Tabled I.dir A.table (pages I.sz) (j + 1) j := by
  have hN : pages sz ≤ USERPAGES := Vm.pages_le hsz.le
  have hpages := Vm.pages_mono hle
  constructor
  · rintro ⟨-, -, hmapped, -⟩ j hj hjN
    by_contra ht
    obtain ⟨f, -, -, hnone⟩ := hg.new j hj hjN
    have := (hmapped j (by omega)).mpr hjN
    rw [hnone ht] at this
    cases this
  · intro htab
    refine ⟨by omega, hsz, fun k hk => ?_, fun k hk _ => ?_, fun k hk hkN => ?_⟩
    · by_cases hnew : pages I.sz ≤ k ∧ k < pages sz
      · obtain ⟨f, -, hsome, -⟩ := hg.new k hnew.1 hnew.2
        rw [hsome (htab k hnew.1 hnew.2)]
        exact iff_of_true rfl hnew.2
      · rw [hg.same k hnew, I.mapped k hk]
        omega
    · have hkU := hk.trans_le I.pages_le
      rw [content, content, hg.same k (by omega)]
      cases hp : I.dir.entry k with
      | none => rfl
      | some p => exact congrArg some (hg.byte _ (I.inUse hkU hp))
    · obtain ⟨f, hf, hsome, -⟩ := hg.new k hk hkN
      rw [content, hsome (htab k hk hkN)]
      exact congrArg some (hg.zero k f hk hkN hf)

/-- **Shrinking** to a size above 0. -/
theorem shrink {d : Pgdir} {m : Phys} (hlt : sz < I.sz)
    (hun : Unmapped I.dir I.phys (pages sz) (pages I.sz) d m) :
    AllOrNothing I (sz - I.sz) (true, sz, d, m) := by
  have hpages := Vm.pages_mono hlt.le
  refine ⟨by omega, hlt.trans I.sz_lt, fun k hk => ?_, fun k hk hk' => ?_, fun k hk hk' => by omega⟩
  · rw [hun.entry k]
    split_ifs with h
    · exact iff_of_false (by simp) (by omega)
    · rw [I.mapped k hk]
      omega
  · have hkU := hk.trans_le I.pages_le
    rw [content, content, hun.entry k, if_neg (by omega)]
    cases hp : I.dir.entry k with
    | none => rfl
    | some p =>
      refine congrArg some (hun.byte _ fun hmem => ?_)
      obtain ⟨j, q, hj, hjN, hq, he⟩ := mem_frames.mp hmem
      have := I.inj (hjN.trans_le I.pages_le) hkU hq hp he
      omega

/-- The size that `growproc` computes. -/
theorem newsz_eq {n : BitVec 32} (h : 0 ≤ (sz : ℤ) + n.toInt) (hsz : sz < KERNBASE) :
    ((((sz : ℤ) + n.toInt) % 2 ^ 32).toNat : ℤ) = sz + n.toInt := by
  have hn := BitVec.toInt_lt (x := n)
  simp only [KERNBASE] at hsz
  simp only [Nat.reduceSub] at hn
  omega

/-- `deallocuvm` unmaps the pages above a smaller size. -/
theorem deallocuvm_image (hlt : sz < I.sz) :
    ∃ d m, deallocuvm K I.dir I.phys I.sz sz = .ok (sz, d, m) ∧
      Unmapped I.dir I.phys (pages sz) (pages I.sz) d m :=
  deallocuvm_spec I.sz_lt.le hlt (fun _ hj => I.hasTable (hj.trans_le (Vm.pages_mono hlt.le)))
    fun _ _ _ hjN hp => I.isPage (hjN.trans_le I.pages_le) hp

variable {n : BitVec 32}

/-- Shrinking by all of the size or more is neither done nor refused. -/
theorem growproc_shrink_all (hneg : n.toInt < 0) (hall : (I.sz : ℤ) + n.toInt ≤ 0) :
    ∃ r, growproc K A.page A.table I.dir I.phys I.sz n = .ok r ∧ ¬ AllOrNothing I n.toInt r := by
  have hlow := BitVec.le_toInt (x := n)
  have hsz := I.sz_lt
  have hpos := I.sz_pos
  simp only [KERNBASE] at hsz
  simp only [Nat.reduceSub] at hlow
  rw [growproc, if_neg (by omega), if_pos hneg]
  by_cases h0 : (I.sz : ℤ) + n.toInt = 0
  · -- everything is unmapped, and the size 0 is taken for an error
    obtain ⟨d, m, hrun, hun⟩ := deallocuvm_image I hpos
    refine ⟨(false, I.sz, d, m), ?_, fun h => ?_⟩
    · have hz : ((0 : ℤ) % 2 ^ 32).toNat = 0 := rfl
      rw [h0, hz, hrun]
      rfl
    · have hfirst := pages_pos hpos
      have hU := hfirst.trans_le I.pages_le
      have hsome := (I.mapped 0 hU).mpr hfirst
      rw [← h.2 0 hU, hun.entry 0, if_pos ⟨Nat.le_refl 0, hfirst⟩] at hsome
      cases hsome
  · -- the sum wraps around to a size above the old one
    refine ⟨(true, I.sz, I.dir, I.phys), ?_, fun h => ?_⟩
    · have hwrap : I.sz ≤ (((I.sz : ℤ) + n.toInt) % 2 ^ 32).toNat := by omega
      simp only [deallocuvm, if_pos hwrap, if_neg hpos.ne']
    · have := h.1
      omega

/-- A shrink that leaves something is all. -/
theorem growproc_shrink_some (hneg : n.toInt < 0) (hsome : 0 < (I.sz : ℤ) + n.toInt) :
    ∃ r, growproc K A.page A.table I.dir I.phys I.sz n = .ok r ∧ AllOrNothing I n.toInt r := by
  have hnew := newsz_eq hsome.le I.sz_lt
  obtain ⟨sz, hsz⟩ : ∃ sz, (((I.sz : ℤ) + n.toInt) % 2 ^ 32).toNat = sz := ⟨_, rfl⟩
  have hn : n.toInt = sz - I.sz := by omega
  obtain ⟨d, m, hrun, hun⟩ := deallocuvm_image I (show sz < I.sz by omega)
  refine ⟨(true, sz, d, m), ?_, hn ▸ shrink I (by omega) hun⟩
  rw [growproc, if_neg (by omega), if_pos hneg, hsz, hrun]
  exact if_neg (by omega)

/-- Growing is all or nothing unless a page table is lacking. -/
theorem growproc_grow (hgrow : 0 < n.toInt) (hlt : (I.sz : ℤ) + n.toInt < KERNBASE) :
    (∃ r, growproc K A.page A.table I.dir I.phys I.sz n = .ok r ∧ AllOrNothing I n.toInt r) ↔
      ¬ LacksTable I A (pages (I.sz + n.toInt).toNat) := by
  have hnew := newsz_eq (show 0 ≤ (I.sz : ℤ) + n.toInt by omega) I.sz_lt
  have heq : (((I.sz : ℤ) + n.toInt) % 2 ^ 32).toNat = ((I.sz : ℤ) + n.toInt).toNat := by omega
  obtain ⟨sz, hszeq⟩ : ∃ sz : ℕ, ((I.sz : ℤ) + n.toInt).toNat = sz := ⟨_, rfl⟩
  have hn : n.toInt = sz - I.sz := by omega
  have hsz : sz < KERNBASE := by omega
  have hle : I.sz ≤ sz := by omega
  obtain ⟨hall, hnone⟩ := allocuvm_spec (K := K) (A := A) hsz hle fun j hj hjN =>
    I.entry_none hj (hjN.trans_le (Vm.pages_le hsz.le))
  rw [growproc, heq, hszeq, if_pos hgrow]
  by_cases hp : ∀ j, pages I.sz ≤ j → j < pages sz → (A.page (j * PGSIZE)).isSome = true
  · obtain ⟨d, m, hrun, hg⟩ := hall hp
    have hres : AllOrNothing I n.toInt (true, sz, d, m) ↔ ¬ LacksTable I A (pages sz) := by
      rw [hn, grow_all I A hsz hle hg]
      exact tabled_iff_not_lacking (first_or_hasTable fun _ hj => I.hasTable hj) hp
    rw [← hres, hrun]
    dsimp only
    rw [if_neg (by omega)]
    constructor
    · rintro ⟨r, hr, h⟩
      exact Except.ok.inj hr ▸ h
    · exact fun h => ⟨_, rfl, h⟩
  · push Not at hp
    obtain ⟨j, hj, hjN, hno⟩ := hp
    obtain ⟨d, m, hrun, hres⟩ := hnone I.free (fun _ hj => I.hasTable hj)
      ⟨j, hj, hjN, by simpa using hno⟩
    refine iff_of_true ⟨(false, I.sz, d, m), ?_, rfl, fun k _ => hres.entry k⟩ fun h => ?_
    · rw [hrun]
      rfl
    · exact hno (h.1 j hj hjN)

/-- **`growproc` is all or nothing** unless it shrinks the process by all of its size or more, or
does not find a page for a page table. -/
theorem growproc_all_or_nothing (n : BitVec 32) :
    (∃ r, growproc K A.page A.table I.dir I.phys I.sz n = .ok r ∧ AllOrNothing I n.toInt r) ↔
      ¬ (n.toInt < 0 ∧ I.sz + n.toInt ≤ 0) ∧
      ¬ (0 < n.toInt ∧ I.sz + n.toInt < KERNBASE ∧
        LacksTable I A (pages (I.sz + n.toInt).toNat)) := by
  rcases Int.lt_trichotomy n.toInt 0 with hneg | hzero | hgrow
  · rw [and_iff_left fun h => absurd h.1 (by omega)]
    by_cases hall : (I.sz : ℤ) + n.toInt ≤ 0
    · obtain ⟨r, hrun, hnot⟩ := growproc_shrink_all I A hneg hall
      refine iff_of_false ?_ fun h => h ⟨hneg, hall⟩
      rintro ⟨r', hrun', hr'⟩
      rw [hrun] at hrun'
      exact hnot (Except.ok.inj hrun' ▸ hr')
    · exact iff_of_true (growproc_shrink_some I A hneg (by omega)) fun h => hall h.2
  · refine iff_of_true ⟨(true, I.sz, I.dir, I.phys), ?_, ?_⟩ ⟨fun h => by omega, fun h => by omega⟩
    · rw [growproc, if_neg (by omega), if_neg (by omega)]
    · exact ⟨by omega, I.sz_lt, I.mapped, fun _ _ _ => rfl, fun k h1 h2 => by omega⟩
  · rw [and_iff_right fun h => absurd h.1 (by omega)]
    by_cases hlt : (I.sz : ℤ) + n.toInt < KERNBASE
    · rw [growproc_grow I A hgrow hlt]
      tauto
    · refine iff_of_true ⟨(false, I.sz, I.dir, I.phys), ?_, rfl, fun _ _ => rfl⟩ fun h => hlt h.2.1
      have hnew := newsz_eq (show 0 ≤ (I.sz : ℤ) + n.toInt by omega) I.sz_lt
      rw [growproc, if_pos hgrow]
      simp only [allocuvm,
        if_pos (show (((I.sz : ℤ) + n.toInt) % 2 ^ 32).toNat ≥ KERNBASE by omega),
        if_pos]

end Growproc

/-! ### A process of one page -/

/-- A kernel of 744 pages. -/
def smallLink : Link := ⟨1000, by decide, by decide⟩

/-- An entry of a page that the user may use. -/
def onePte : Pte := .new 1002 (PTE_W ||| PTE_U)

/-- A directory with one page. -/
def oneDir : Pgdir :=
  ⟨1000, fun i => if i = 0 then some ⟨1001, fun j => if j = 0 then some onePte else none⟩
    else none⟩

/-- A directory that maps the first page. -/
theorem entry_oneDir (k : ℕ) : oneDir.entry k = if k = 0 then some onePte else none := by
  rw [Pgdir.entry, oneDir]
  by_cases hk : k = 0
  · subst hk
    rfl
  · rw [if_neg hk]
    by_cases hdiv : k / NPTENTRIES = 0
    · have hmod : k % NPTENTRIES ≠ 0 := by
        simp only [NPTENTRIES] at *
        omega
      simp [hdiv, hmod]
    · simp [hdiv]

/-- A process of one page. -/
def onePage : Image smallLink where
  dir := oneDir
  phys := ⟨[], fun _ _ => 0⟩
  sz := 4096
  sz_pos := by decide
  sz_lt := by decide
  mapped k _ := by
    have hpages : pages 4096 = 1 := rfl
    rw [entry_oneDir, hpages]
    split_ifs with hk
    · exact iff_of_true rfl (by omega)
    · exact iff_of_false (by decide) (by omega)
  isPage {k p} _ hp := by
    rw [entry_oneDir] at hp
    split_ifs at hp
    cases hp
    exact ⟨by decide, by decide⟩
  inUse _ _ := by simp
  inj {j k p q} _ _ hp hq _ := by
    rw [entry_oneDir] at hp hq
    split_ifs at hp hq with hj hk
    omega
  free f hf := by simp at hf

/-- **`sbrk(-sz)`** unmaps the only page, and fails. -/
theorem sbrk_by_size :
    (growproc smallLink (fun _ => none) (fun _ => none) onePage.dir onePage.phys onePage.sz
      (-4096)).map (fun r => (r.1, r.2.1, r.2.2.1.entry 0)) = .ok (false, 4096, none) ∧
    onePage.dir.entry 0 = some onePte := by
  decide +kernel

end Xv6.Vmem
