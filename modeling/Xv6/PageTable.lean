import Mathlib.Tactic.Ring

/-!
# User Page Tables

The two-level page table of a process, below `KERNBASE`, and the functions of `vm.c` that map and
unmap user pages: `walkpgdir`, `mappages`, `allocuvm`, `deallocuvm` and `copyuvm`. Of an entry only
the bit `PTE_P` is modelled. Whether `kalloc` has a page is an argument: `page a` and `table a`
answer the calls for the page at address `a` and for the page table that covers it.

All addresses are below `KERNBASE`, up to one step of a loop past it, so that the sums of the
source do not wrap around.

## Main results

* `mappages_page`: what `mappages` does with one page; it panics exactly when the page is mapped.
* `deallocuvm_maps`, `allocuvm_maps`, `copyuvm_maps`: on a directory that maps the first pages of
  user memory and no others, the three loops leave such a directory.
-/

namespace Xv6.Vm

/-- Bytes mapped by a page. -/
def PGSIZE : ℕ := 4096

/-- Entries of a page table. -/
def NPTENTRIES : ℕ := 1024

/-- The first kernel address. -/
def KERNBASE : ℕ := 0x80000000

/-- `PGROUNDUP(sz)`. -/
def pgroundup (sz : ℕ) : ℕ := (sz + PGSIZE - 1) % 2 ^ 32 / PGSIZE * PGSIZE

/-- `PGROUNDDOWN(a)`. -/
def pgrounddown (a : ℕ) : ℕ := a / PGSIZE * PGSIZE

/-- `PDX(va)`: the index in the page directory. -/
def pdx (va : ℕ) : ℕ := va / 2 ^ 22 % NPTENTRIES

/-- `PTX(va)`: the index in the page table. -/
def ptx (va : ℕ) : ℕ := va / 2 ^ 12 % NPTENTRIES

/-- The calls of `panic` in the functions below. -/
inductive Panic
  /-- `mappages`: "remap" -/
  | remap
  /-- `copyuvm`: "copyuvm: pte should exist" -/
  | pteShouldExist
  /-- `copyuvm`: "copyuvm: page not present" -/
  | pageNotPresent
  deriving DecidableEq, Repr

/-- The user part of a page directory: the page tables that are there, with the bit `PTE_P` of
their entries. -/
structure Pgdir where
  pde : ℕ → Option (ℕ → Bool)

/-- The user part of the directory that `setupkvm` makes. -/
def Pgdir.empty : Pgdir := ⟨fun _ => none⟩

/-- `*pte = …`, for the entry of address `va`. -/
def Pgdir.setPte (d : Pgdir) (va : ℕ) (v : Bool) : Pgdir :=
  ⟨Function.update d.pde (pdx va)
    ((d.pde (pdx va)).map fun pgtab => Function.update pgtab (ptx va) v)⟩

/-- `walkpgdir(pgdir, va, alloc)`: the entry of address `va`, and the directory with the page table
that covers it. -/
def walkpgdir (d : Pgdir) (va : ℕ) (alloc table : Bool) : Option (Bool × Pgdir) :=
  match d.pde (pdx va) with
  | some pgtab => some (pgtab (ptx va), d)
  | none =>
    if !alloc || !table then none
    else some (false, ⟨Function.update d.pde (pdx va) (some fun _ => false)⟩)

/-- The loop of `mappages`, with `k` more pages to map after the one at `a`. The answer is `false`
when it returns -1. -/
def mapLoop (table : ℕ → Bool) : ℕ → Pgdir → ℕ → Except Panic (Bool × Pgdir)
  | k, d, a =>
    match walkpgdir d a true (table a) with
    | none => .ok (false, d)
    | some (pte, d) =>
      if pte then .error .remap
      else
        match k with
        | 0 => .ok (true, d.setPte a true)
        | k + 1 => mapLoop table k (d.setPte a true) (a + PGSIZE)

/-- `mappages(pgdir, va, size, ..)`. -/
def mappages (d : Pgdir) (va size : ℕ) (table : ℕ → Bool) : Except Panic (Bool × Pgdir) :=
  mapLoop table ((pgrounddown (va + size - 1) - pgrounddown va) / PGSIZE) d (pgrounddown va)

/-- The loop of `deallocuvm`. -/
def deallocLoop (oldsz : ℕ) (d : Pgdir) (a : ℕ) : Pgdir :=
  if a < oldsz then
    match walkpgdir d a false false with
    | none => deallocLoop oldsz d (a + (NPTENTRIES - 1) * PGSIZE + PGSIZE)
    | some (pte, _) => deallocLoop oldsz (if pte then d.setPte a false else d) (a + PGSIZE)
  else d
termination_by oldsz - a
decreasing_by all_goals simp only [PGSIZE, NPTENTRIES]; omega

/-- `deallocuvm(pgdir, oldsz, newsz)`. -/
def deallocuvm (d : Pgdir) (oldsz newsz : ℕ) : ℕ × Pgdir :=
  if newsz ≥ oldsz then (oldsz, d) else (newsz, deallocLoop oldsz d (pgroundup newsz))

/-- The loop of `allocuvm`. What `mappages` returns is not looked at. -/
def allocLoop (page table : ℕ → Bool) (oldsz newsz : ℕ) (d : Pgdir) (a : ℕ) :
    Except Panic (ℕ × Pgdir) :=
  if a < newsz then
    if page a then
      match mappages d a PGSIZE table with
      | .error e => .error e
      | .ok (_, d) => allocLoop page table oldsz newsz d (a + PGSIZE)
    else .ok (0, (deallocuvm d newsz oldsz).2)
  else .ok (newsz, d)
termination_by newsz - a
decreasing_by simp only [PGSIZE]; omega

/-- `allocuvm(pgdir, oldsz, newsz)`. -/
def allocuvm (page table : ℕ → Bool) (d : Pgdir) (oldsz newsz : ℕ) : Except Panic (ℕ × Pgdir) :=
  if newsz ≥ KERNBASE then .ok (0, d)
  else if newsz < oldsz then .ok (oldsz, d)
  else allocLoop page table oldsz newsz d (pgroundup oldsz)

/-- The loop of `copyuvm`, which copies the pages of `pgdir` into `d`. -/
def copyLoop (page table : ℕ → Bool) (pgdir : Pgdir) (sz : ℕ) (d : Pgdir) (i : ℕ) :
    Except Panic (Option Pgdir) :=
  if i < sz then
    match walkpgdir pgdir i false false with
    | none => .error .pteShouldExist
    | some (pte, _) =>
      if !pte then .error .pageNotPresent
      else if !page i then .ok none
      else
        match mappages d i PGSIZE table with
        | .error e => .error e
        | .ok (false, _) => .ok none
        | .ok (true, d) => copyLoop page table pgdir sz d (i + PGSIZE)
  else .ok (some d)
termination_by sz - i
decreasing_by simp only [PGSIZE]; omega

/-- `copyuvm(pgdir, sz)`; `kvm` says whether `setupkvm` succeeds. -/
def copyuvm (kvm : Bool) (page table : ℕ → Bool) (pgdir : Pgdir) (sz : ℕ) :
    Except Panic (Option Pgdir) :=
  if kvm then copyLoop page table pgdir sz .empty 0 else .ok none

/-! ### Pages -/

/-- The pages of a region of `sz` bytes. -/
def pages (sz : ℕ) : ℕ := (sz + PGSIZE - 1) / PGSIZE

/-- The pages of user memory. -/
def USERPAGES : ℕ := KERNBASE / PGSIZE

/-- Page `k` is mapped. -/
def Pgdir.present (d : Pgdir) (k : ℕ) : Bool :=
  match d.pde (pdx (k * PGSIZE)) with
  | some pgtab => pgtab (ptx (k * PGSIZE))
  | none => false

/-- The page table that covers page `k` is there. -/
def Pgdir.hasTable (d : Pgdir) (k : ℕ) : Bool := (d.pde (pdx (k * PGSIZE))).isSome

/-- **The directory maps the first `N` pages** of user memory and no others. -/
def Maps (d : Pgdir) (N : ℕ) : Prop := ∀ k < USERPAGES, d.present k = decide (k < N)

variable {d d' : Pgdir} {j k N : ℕ} {page table : ℕ → Bool}

variable {sz oldsz newsz : ℕ}

theorem pgroundup_eq (h : sz ≤ KERNBASE) : pgroundup sz = pages sz * PGSIZE := by
  rw [pgroundup, pages, Nat.mod_eq_of_lt]
  simp only [PGSIZE, KERNBASE] at h ⊢
  omega

theorem mul_lt_iff : k * PGSIZE < sz ↔ k < pages sz := by
  simp only [pages, PGSIZE]
  omega

theorem pages_le (h : sz ≤ KERNBASE) : pages sz ≤ USERPAGES := by
  simp only [pages, USERPAGES, PGSIZE, KERNBASE] at h ⊢
  omega

theorem pages_mono {a b : ℕ} (h : a ≤ b) : pages a ≤ pages b :=
  Nat.div_le_div_right (by omega)

/-- The two indices determine a page. -/
theorem idx_inj (hj : j < USERPAGES) (hk : k < USERPAGES)
    (h1 : pdx (j * PGSIZE) = pdx (k * PGSIZE)) (h2 : ptx (j * PGSIZE) = ptx (k * PGSIZE)) :
    j = k := by
  simp only [pdx, ptx, USERPAGES, KERNBASE, PGSIZE, NPTENTRIES] at *
  omega

/-- A page that is mapped has a page table. -/
theorem hasTable_of_present (h : d.present k = true) : d.hasTable k = true := by
  rw [Pgdir.present] at h
  rw [Pgdir.hasTable]
  split at h
  · rename_i hd
    rw [hd]
    rfl
  · cases h

/-- An assignment to an entry changes this entry only. -/
theorem present_setPte (hj : j < USERPAGES) (hk : k < USERPAGES) (ht : d.hasTable k = true)
    (v : Bool) : (d.setPte (k * PGSIZE) v).present j = if j = k then v else d.present j := by
  obtain ⟨pgtab, hpg⟩ := Option.isSome_iff_exists.mp ht
  by_cases hx : pdx (j * PGSIZE) = pdx (k * PGSIZE)
  · by_cases hjk : j = k
    · subst hjk
      simp [Pgdir.present, Pgdir.setPte, hpg]
    · have hy : ptx (j * PGSIZE) ≠ ptx (k * PGSIZE) := fun h => hjk (idx_inj hj hk hx h)
      simp [Pgdir.present, Pgdir.setPte, hx, hpg, hjk, Function.update_of_ne hy]
  · have hjk : j ≠ k := fun h => hx (by rw [h])
    simp [Pgdir.present, Pgdir.setPte, Function.update_of_ne hx, hjk]

/-- A look at an entry. -/
theorem walkpgdir_look (d : Pgdir) (k : ℕ) :
    walkpgdir d (k * PGSIZE) false false =
      if d.hasTable k then some (d.present k, d) else none := by
  rw [walkpgdir, Pgdir.hasTable, Pgdir.present]
  cases d.pde (pdx (k * PGSIZE)) <;> rfl

/-- `walkpgdir` with allocation finds the entry in a directory with the same pages, or there is no
page for a new page table. -/
theorem walkpgdir_alloc (d : Pgdir) (k : ℕ) (ok : Bool) :
    (d.hasTable k = false ∧ ok = false ∧ walkpgdir d (k * PGSIZE) true ok = none) ∨
      ((d.hasTable k = true ∨ ok = true) ∧ ∃ d', walkpgdir d (k * PGSIZE) true ok =
        some (d.present k, d') ∧ d'.hasTable k = true ∧ ∀ j, d'.present j = d.present j) := by
  rw [walkpgdir]
  cases hd : d.pde (pdx (k * PGSIZE)) with
  | some pgtab =>
    refine Or.inr ⟨Or.inl (by rw [Pgdir.hasTable, hd]; rfl), d, ?_, ?_, fun _ => rfl⟩
    · rw [Pgdir.present, hd]
    · rw [Pgdir.hasTable, hd]; rfl
  | none =>
    cases ok with
    | false => exact Or.inl ⟨by rw [Pgdir.hasTable, hd]; rfl, rfl, rfl⟩
    | true =>
      refine Or.inr ⟨Or.inr rfl, ⟨Function.update d.pde (pdx (k * PGSIZE)) (some fun _ => false)⟩,
        ?_, ?_, fun j => ?_⟩
      · rw [Pgdir.present, hd]
        rfl
      · simp [Pgdir.hasTable]
      · by_cases hx : pdx (j * PGSIZE) = pdx (k * PGSIZE)
        · simp [Pgdir.present, hx, hd]
        · simp [Pgdir.present, Function.update_of_ne hx]

theorem pgrounddown_page (k : ℕ) : pgrounddown (k * PGSIZE) = k * PGSIZE := by
  simp only [pgrounddown, PGSIZE]
  omega

/-- One page is the last one. -/
theorem last_page (k : ℕ) :
    (pgrounddown (k * PGSIZE + PGSIZE - 1) - pgrounddown (k * PGSIZE)) / PGSIZE = 0 := by
  simp only [pgrounddown, PGSIZE]
  omega

/-- **`mappages` for one page**: it panics if the page is mapped, and else it maps it, unless there
is no page for its page table. -/
theorem mappages_page (hk : k < USERPAGES) (table : ℕ → Bool) (d : Pgdir) :
    (d.present k = true ∧ mappages d (k * PGSIZE) PGSIZE table = .error .remap) ∨
      (d.present k = false ∧ table (k * PGSIZE) = false ∧ d.hasTable k = false ∧
        mappages d (k * PGSIZE) PGSIZE table = .ok (false, d)) ∨
      (d.present k = false ∧ (d.hasTable k = true ∨ table (k * PGSIZE) = true) ∧
        ∃ d', mappages d (k * PGSIZE) PGSIZE table = .ok (true, d') ∧
          ∀ j < USERPAGES, d'.present j = if j = k then true else d.present j) := by
  rw [mappages, last_page, pgrounddown_page, mapLoop]
  rcases walkpgdir_alloc d k (table (k * PGSIZE)) with ⟨h1, h2, hw⟩ | ⟨h1, u, hw, hu, hpres⟩
  · have hno : d.present k = false := by
      by_contra hp
      rw [hasTable_of_present (by simpa using hp)] at h1
      cases h1
    rw [hw]
    exact Or.inr (Or.inl ⟨hno, h2, h1, rfl⟩)
  · rw [hw]
    cases hp : d.present k with
    | true => exact Or.inl ⟨rfl, rfl⟩
    | false =>
      refine Or.inr (Or.inr ⟨rfl, h1, u.setPte (k * PGSIZE) true, rfl, fun j hj => ?_⟩)
      rw [present_setPte hj hk hu, hpres]

/-! ### Ranges of pages -/

theorem maps_empty : Maps .empty 0 := by
  intro k _
  simp [Pgdir.present, Pgdir.empty]

/-- `mappages` for a page that is not mapped returns, and maps it or does nothing. -/
theorem mappages_unmapped (hk : k < USERPAGES) (hno : d.present k = false) (table : ℕ → Bool) :
    ∃ b d', mappages d (k * PGSIZE) PGSIZE table = .ok (b, d') ∧
      (table (k * PGSIZE) = true → b = true) ∧
      ∀ j < USERPAGES, d'.present j = if b = true ∧ j = k then true else d.present j := by
  rcases mappages_page hk table d with ⟨h1, -⟩ | ⟨-, h2, -, hrun⟩ | ⟨-, -, d', hrun, hd'⟩
  · rw [hno] at h1
    cases h1
  · exact ⟨false, d, hrun, fun h => absurd (h2.symm.trans h) (by simp), by simp⟩
  · exact ⟨true, d', hrun, fun _ => rfl, by simpa using hd'⟩

/-- `mappages` for the next page. -/
theorem Maps.mappages (hm : Maps d k) (hk : k < USERPAGES) (table : ℕ → Bool) :
    ∃ b d', Vm.mappages d (k * PGSIZE) PGSIZE table = .ok (b, d') ∧
      (table (k * PGSIZE) = true → b = true) ∧ (b = true → Maps d' (k + 1)) := by
  obtain ⟨b, d', hrun, hb, hd'⟩ := mappages_unmapped hk (by simpa using hm k hk) table
  refine ⟨b, d', hrun, hb, fun hb j hj => ?_⟩
  rw [hd' j hj, hm j hj]
  split_ifs with hjk
  · simp [hjk.2]
  · exact decide_eq_decide.mpr (by grind)

/-- The loop of `deallocuvm` at page `k`, having unmapped the pages from `lo` on. Where a page table
is missing it goes on 1024 pages further, and leaves out nothing, as no page from there on is
mapped. -/
theorem deallocLoop_present {lo : ℕ} (hold : oldsz ≤ KERNBASE) (d : Pgdir) (a : ℕ)
    (ha : a = k * PGSIZE) (hlo : lo ≤ k) (hk : k ≤ pages oldsz ∨ (N ≤ pages oldsz ∧ N ≤ k))
    (h : ∀ j < USERPAGES, d.present j = decide (j < N ∧ (j < lo ∨ k ≤ j))) :
    ∀ j < USERPAGES, (deallocLoop oldsz d a).present j =
      decide (j < N ∧ (j < lo ∨ pages oldsz ≤ j)) := by
  fun_induction deallocLoop oldsz d a generalizing k with
  | case1 d a hlt hw ih =>
    subst ha
    have hkp := mul_lt_iff.mp hlt
    have hku := hkp.trans_le (pages_le hold)
    rw [walkpgdir_look] at hw
    have hno : d.present k = false := by
      by_contra hp
      rw [hasTable_of_present (by simpa using hp)] at hw
      cases hw
    rw [h k hku] at hno
    have hN : N ≤ k := by simpa using hno
    refine ih (k := k + NPTENTRIES) ?_ (by omega) (Or.inr ⟨by omega, by omega⟩) fun j hj => ?_
    · simp only [NPTENTRIES, PGSIZE]
      omega
    · rw [h j hj]
      exact decide_eq_decide.mpr (by omega)
  | case2 d a hlt pte d' hw ih =>
    subst ha
    have hkp := mul_lt_iff.mp hlt
    have hku := hkp.trans_le (pages_le hold)
    rw [walkpgdir_look] at hw
    split_ifs at hw with ht
    obtain ⟨rfl, -⟩ := Prod.mk.inj (Option.some.inj hw)
    have hpk := h k hku
    refine ih (k := k + 1) (by ring) (by omega) (by omega) fun j hj => ?_
    cases hp : d.present k with
    | true =>
      simp only [dite_true]
      rw [present_setPte hj hku ht]
      split_ifs with hjk
      · subst hjk
        symm
        rw [decide_eq_false_iff_not]
        omega
      · rw [h j hj]
        exact decide_eq_decide.mpr (by omega)
    | false =>
      rw [hp] at hpk
      have hN : N ≤ k := by simpa using hpk.symm
      simp only [Bool.false_eq_true, dite_false]
      rw [h j hj]
      exact decide_eq_decide.mpr (by omega)
  | case3 d a hge =>
    subst ha
    have hkp : pages oldsz ≤ k := not_lt.mp fun hlt => hge (mul_lt_iff.mpr hlt)
    intro j hj
    rw [h j hj]
    exact decide_eq_decide.mpr (by omega)

/-- **`deallocuvm`** cuts the mapped pages down to the new size. -/
theorem deallocuvm_maps (hold : oldsz ≤ KERNBASE) (hlt : newsz < oldsz) (hm : Maps d N)
    (hN : N ≤ pages oldsz) :
    ∃ d', deallocuvm d oldsz newsz = (newsz, d') ∧ Maps d' (min N (pages newsz)) := by
  refine ⟨_, by rw [deallocuvm, if_neg (by omega)], fun j hj => ?_⟩
  have hle := pages_mono hlt.le
  rw [deallocLoop_present (N := N) hold d _ (pgroundup_eq (hlt.le.trans hold)) le_rfl (Or.inl hle)
    (fun i hi => ?_) j hj]
  · exact decide_eq_decide.mpr (by omega)
  · rw [hm i hi]
    exact decide_eq_decide.mpr (by omega)

/-- The loop of `allocuvm` at page `k`, when no page table is missing. -/
theorem allocLoop_maps (hnew : newsz ≤ KERNBASE) (htab : ∀ a, table a = true) (d : Pgdir) (a : ℕ)
    (ha : a = k * PGSIZE) (hk : pages oldsz ≤ k) (hm : Maps d k) :
    ∃ sz d', allocLoop page table oldsz newsz d a = .ok (sz, d') ∧
      ((sz = newsz ∧ Maps d' (max k (pages newsz))) ∨ (sz = 0 ∧ Maps d' (pages oldsz))) := by
  fun_induction allocLoop page table oldsz newsz d a generalizing k with
  | case1 d a hlt hpage e he =>
    subst ha
    have hku := (mul_lt_iff.mp hlt).trans_le (pages_le hnew)
    obtain ⟨b, d', hrun, -⟩ := hm.mappages hku table
    rw [he] at hrun
    cases hrun
  | case2 d a hlt hpage b d' he ih =>
    subst ha
    have hkp := mul_lt_iff.mp hlt
    have hku := hkp.trans_le (pages_le hnew)
    obtain ⟨b', u, hmap, hb, hmaps⟩ := hm.mappages hku table
    rw [he] at hmap
    cases hmap
    obtain ⟨sz, u, hrun, hres⟩ := ih (k := k + 1) (by ring) (by omega) (hmaps (hb (htab _)))
    rw [show max (k + 1) (pages newsz) = max k (pages newsz) by omega] at hres
    exact ⟨sz, u, hrun, hres⟩
  | case3 d a hlt hpage =>
    subst ha
    have hkp := mul_lt_iff.mp hlt
    have hold : oldsz < newsz := by
      by_contra hge
      have := pages_mono (not_lt.mp hge)
      omega
    obtain ⟨d', hd', hm'⟩ := deallocuvm_maps hnew hold hm hkp.le
    rw [hd']
    rw [Nat.min_eq_right hk] at hm'
    exact ⟨0, d', rfl, Or.inr ⟨rfl, hm'⟩⟩
  | case4 d a hge =>
    subst ha
    have hkp : pages newsz ≤ k := not_lt.mp fun hlt => hge (mul_lt_iff.mpr hlt)
    rw [Nat.max_eq_left hkp]
    exact ⟨newsz, d, rfl, Or.inl ⟨rfl, hm⟩⟩

/-- The loop of `allocuvm` does not panic where no page from page `k` on is mapped. -/
theorem allocLoop_ok (hnew : newsz ≤ KERNBASE) (d : Pgdir) (a : ℕ) (ha : a = k * PGSIZE)
    (hno : ∀ j < USERPAGES, k ≤ j → d.present j = false) :
    ∃ r, allocLoop page table oldsz newsz d a = .ok r := by
  fun_induction allocLoop page table oldsz newsz d a generalizing k with
  | case1 d a hlt hpage e he =>
    subst ha
    have hku := (mul_lt_iff.mp hlt).trans_le (pages_le hnew)
    obtain ⟨b, d', hrun, -⟩ := mappages_unmapped hku (hno k hku le_rfl) table
    rw [he] at hrun
    cases hrun
  | case2 d a hlt hpage b d' he ih =>
    subst ha
    have hku := (mul_lt_iff.mp hlt).trans_le (pages_le hnew)
    refine ih (k := k + 1) (by ring) fun j hj hjk => ?_
    obtain ⟨b', u, hrun, -, hu⟩ := mappages_unmapped hku (hno k hku le_rfl) table
    rw [he] at hrun
    cases hrun
    rw [hu j hj, if_neg (by omega)]
    exact hno j hj (by omega)
  | case3 d a hlt hpage => exact ⟨_, rfl⟩
  | case4 d a hge => exact ⟨_, rfl⟩

/-- **`allocuvm`** maps the pages up to the new size, or leaves the pages as they were. -/
theorem allocuvm_maps (hold : oldsz < KERNBASE) (hle : oldsz ≤ newsz) (htab : ∀ a, table a = true)
    (hm : Maps d (pages oldsz)) : ∃ sz d', allocuvm page table d oldsz newsz = .ok (sz, d') ∧
      ((sz = newsz ∧ newsz < KERNBASE ∧ Maps d' (pages newsz)) ∨
        (sz = 0 ∧ Maps d' (pages oldsz))) := by
  rw [allocuvm]
  split_ifs with hbig hlt
  · exact ⟨0, d, rfl, Or.inr ⟨rfl, hm⟩⟩
  · omega
  · have hnew : newsz ≤ KERNBASE := by omega
    obtain ⟨sz, d', hrun, hres⟩ : ∃ sz d', allocLoop page table oldsz newsz d (pgroundup oldsz) =
        .ok (sz, d') ∧ _ := allocLoop_maps hnew htab d _ (pgroundup_eq hold.le) le_rfl hm
    refine ⟨sz, d', hrun, hres.imp_left fun ⟨h1, h2⟩ => ⟨h1, by omega, ?_⟩⟩
    rwa [Nat.max_eq_right (pages_mono hle)] at h2

/-- `allocuvm` does not panic on a directory that maps the pages of the old size and no others. -/
theorem allocuvm_ok (hold : oldsz < KERNBASE) (hm : Maps d (pages oldsz)) :
    ∃ r, allocuvm page table d oldsz newsz = .ok r := by
  rw [allocuvm]
  split_ifs with hbig hlt
  · exact ⟨_, rfl⟩
  · exact ⟨_, rfl⟩
  · refine allocLoop_ok (by omega) d _ (pgroundup_eq hold.le) fun j hj hjk => ?_
    rw [hm j hj]
    simpa using hjk

/-- `allocuvm` for a growth by one page is a call of `mappages` whose result counts for nothing. -/
theorem allocuvm_one (hold : oldsz < KERNBASE) (hnew : newsz < KERNBASE)
    (hone : pages newsz = pages oldsz + 1) (hpage : page (pages oldsz * PGSIZE) = true) :
    allocuvm page table d oldsz newsz =
      (mappages d (pages oldsz * PGSIZE) PGSIZE table).map fun r => (newsz, r.2) := by
  have hlt : ¬ newsz < oldsz := fun hlt => by
    have := pages_mono hlt.le
    omega
  have hmore : pages oldsz * PGSIZE < newsz := mul_lt_iff.mpr (by omega)
  have hlast : ¬ pages oldsz * PGSIZE + PGSIZE < newsz := by
    rw [← Nat.succ_mul, mul_lt_iff]
    omega
  rw [allocuvm, if_neg (by omega), if_neg hlt, pgroundup_eq hold.le, allocLoop, if_pos hmore,
    if_pos hpage]
  cases mappages d (pages oldsz * PGSIZE) PGSIZE table with
  | error e => rfl
  | ok r =>
    simp only
    rw [allocLoop, if_neg hlast]
    rfl

/-- The loop of `copyuvm`: it fails, or has mapped the same pages. -/
theorem copyLoop_maps {pgdir : Pgdir} (hsz : sz ≤ KERNBASE)
    (hall : ∀ j < pages sz, pgdir.present j = true) (d : Pgdir) (i : ℕ) (hi : i = k * PGSIZE)
    (hk : k ≤ pages sz) (hm : Maps d k) :
    ∃ r, copyLoop page table pgdir sz d i = .ok r ∧ ∀ d', r = some d' → Maps d' (pages sz) := by
  have hlook (d : Pgdir) (j : ℕ) (hj : j < pages sz) :
      walkpgdir pgdir (j * PGSIZE) false false = some (true, pgdir) := by
    rw [walkpgdir_look, if_pos (hasTable_of_present (hall j hj)), hall j hj]
  fun_induction copyLoop page table pgdir sz d i generalizing k with
  | case1 d i hlt hw =>
    subst hi
    rw [hlook d k (mul_lt_iff.mp hlt)] at hw
    cases hw
  | case2 d i hlt pte d' hw hpte =>
    subst hi
    rw [hlook d k (mul_lt_iff.mp hlt)] at hw
    obtain ⟨rfl, -⟩ := Prod.mk.inj (Option.some.inj hw)
    cases hpte
  | case3 d i hlt pte d' hw hpte hpage => exact ⟨none, rfl, fun _ h => by cases h⟩
  | case4 d i hlt pte d' hw hpte hpage e he =>
    subst hi
    have hku := (mul_lt_iff.mp hlt).trans_le (pages_le hsz)
    obtain ⟨b, u, hrun, -⟩ := hm.mappages hku table
    rw [he] at hrun
    cases hrun
  | case5 d i hlt pte d' hw hpte hpage d'' he => exact ⟨none, rfl, fun _ h => by cases h⟩
  | case6 d i hlt pte d' hw hpte hpage d'' he ih =>
    subst hi
    have hkp := mul_lt_iff.mp hlt
    have hku := hkp.trans_le (pages_le hsz)
    obtain ⟨b, u, hrun, -, hmaps⟩ := hm.mappages hku table
    rw [he] at hrun
    cases hrun
    exact ih (k := k + 1) (by ring) (by omega) (hmaps rfl)
  | case7 d i hge =>
    subst hi
    have hkp : pages sz ≤ k := not_lt.mp fun hlt => hge (mul_lt_iff.mpr hlt)
    obtain rfl : k = pages sz := by omega
    refine ⟨some d, rfl, fun d' hd' => ?_⟩
    cases hd'
    exact hm

/-- **`copyuvm`** does not panic on a directory that maps the pages of the process, and makes one
that maps them. -/
theorem copyuvm_maps {kvm : Bool} (hsz : sz ≤ KERNBASE) (hm : Maps d (pages sz)) :
    ∃ r, copyuvm kvm page table d sz = .ok r ∧ ∀ d', r = some d' → Maps d' (pages sz) := by
  rw [copyuvm]
  split_ifs
  · refine copyLoop_maps hsz (fun j hj => ?_) .empty 0 (by simp) (Nat.zero_le _) maps_empty
    simpa [hj] using hm j (hj.trans_le (pages_le hsz))
  · exact ⟨none, rfl, fun _ h => by cases h⟩

end Xv6.Vm
