import Mathlib.Data.List.Range
import Xv6.PageTable

/-!
# Page Directories and Physical Pages

The functions of `vm.c` again, now with the physical pages: an entry of a page table names a page of
memory and has flags, `kalloc` takes a page out of the list of free pages and `kfree` puts one in,
filled with junk. `Xv6.PageTable` has the same loops for the bit `PTE_P` alone; they do to it what
the ones here do.

The answers of `kalloc` are arguments: `page a` and `table a` are the pages that it returns for the
page at address `a` and for the page table that covers it, `none` if there is none.

## Main results

* `deallocLoop_spec`, `deallocuvm_spec`: the pages of a range are unmapped and freed.
* `allocLoop_spec`: the pages of a range are mapped to zeroed pages, where a page table was to be
  had; when `kalloc` has no page the range is unmapped again.
* `deallocuvm_bits`, `allocuvm_bits`: the bits `PTE_P` are those of the loops of `Xv6.PageTable`.
-/

open Function (update update_of_ne update_self)

namespace Xv6.Vmem

open Vm (PGSIZE KERNBASE NPTENTRIES pgroundup pgrounddown pdx ptx pages USERPAGES)

/-- `EXTMEM` (`memlayout.h`). -/
def EXTMEM : ℕ := 0x100000

/-- `PHYSTOP` (`memlayout.h`). -/
def PHYSTOP : ℕ := 0xE000000

/-- What the linker says about the kernel: the physical page at which the memory behind its `end`
starts. -/
structure Link where
  kend : ℕ
  lt_kend : EXTMEM / PGSIZE < kend
  kend_lt : kend < PHYSTOP / PGSIZE

/-- The calls of `panic` in the functions below. -/
inductive Panic
  /-- `mappages`: "remap" -/
  | remap
  /-- `deallocuvm` and `kfree`: "kfree" -/
  | kfree
  deriving DecidableEq, Repr

/-- `PTE_P` (`mmu.h`). -/
def PTE_P : BitVec 12 := 0x001

/-- `PTE_W` (`mmu.h`). -/
def PTE_W : BitVec 12 := 0x002

/-- `PTE_U` (`mmu.h`). -/
def PTE_U : BitVec 12 := 0x004

/-- An entry with `PTE_P`: the physical page, and the flags. -/
structure Pte where
  frame : ℕ
  flags : BitVec 12
  present : flags &&& PTE_P ≠ 0
  deriving DecidableEq, Repr

theorem or_present (perm : BitVec 12) : (perm ||| PTE_P) &&& PTE_P ≠ 0 := by
  intro h
  have hbit := congrArg (fun v => v.getLsbD 0) h
  simp [PTE_P] at hbit

/-- `pa | perm | PTE_P`. -/
def Pte.new (f : ℕ) (perm : BitVec 12) : Pte := ⟨f, perm ||| PTE_P, or_present perm⟩

/-- The user may use the page. -/
def Pte.user (p : Pte) : Bool := p.flags &&& PTE_U != 0

/-- The page may be written to. -/
def Pte.write (p : Pte) : Bool := p.flags &&& PTE_W != 0

theorem Pte.user_new (f : ℕ) : (Pte.new f (PTE_W ||| PTE_U)).user = true := by
  simp [Pte.user, Pte.new, PTE_P, PTE_W, PTE_U]

theorem Pte.write_new (f : ℕ) : (Pte.new f (PTE_W ||| PTE_U)).write = true := by
  simp [Pte.write, Pte.new, PTE_P, PTE_W, PTE_U]

/-- A page table, in the page `frame`. -/
structure Table where
  frame : ℕ
  pte : ℕ → Option Pte

/-- A page directory, in the page `frame`. -/
structure Pgdir where
  frame : ℕ
  pde : ℕ → Option Table

/-- Physical memory: the free pages, and the bytes of all pages. -/
structure Phys where
  free : List ℕ
  byte : ℕ → ℕ → UInt8

/-! ### The allocator -/

/-- A page that `kalloc` can return. -/
def Link.IsPage (K : Link) (f : ℕ) : Prop := K.kend ≤ f ∧ f < PHYSTOP / PGSIZE

/-- `memset(p2v(f), c, PGSIZE)`. -/
def Phys.memset (m : Phys) (f : ℕ) (c : UInt8) : Phys :=
  { m with byte := update m.byte f fun _ => c }

/-- `kalloc()`, with the page it returns. -/
def Phys.kalloc (m : Phys) (answer : Option ℕ) : Option (ℕ × Phys) :=
  answer.map fun f => (f, { m with free := m.free.erase f })

/-- `kfree(p2v(f))`. -/
def Phys.kfree (K : Link) (m : Phys) (f : ℕ) : Except Panic Phys :=
  if f < K.kend ∨ PHYSTOP / PGSIZE ≤ f then .error .kfree
  else .ok { m.memset f 1 with free := f :: m.free }

/-! ### Directories -/

/-- `*pte = …`, for the entry of address `va`. -/
def Pgdir.setPte (d : Pgdir) (va : ℕ) (v : Option Pte) : Pgdir :=
  ⟨d.frame, update d.pde (pdx va)
    ((d.pde (pdx va)).map fun t => ⟨t.frame, update t.pte (ptx va) v⟩)⟩

/-- `walkpgdir(pgdir, va, 0)`: the entry of address `va`, if there is a page table for it. -/
def walkpgdir (d : Pgdir) (va : ℕ) : Option (Option Pte) :=
  (d.pde (pdx va)).map fun t => t.pte (ptx va)

/-- `walkpgdir(pgdir, va, 1)`, and the directory with the page table that covers `va`. -/
def walkpgdirAlloc (d : Pgdir) (m : Phys) (va : ℕ) (table : Option ℕ) :
    Option (Option Pte × Pgdir × Phys) :=
  match d.pde (pdx va) with
  | some t => some (t.pte (ptx va), d, m)
  | none =>
    match m.kalloc table with
    | none => none
    | some (f, m) =>
      some (none, ⟨d.frame, update d.pde (pdx va) (some ⟨f, fun _ => none⟩)⟩,
        m.memset f 0)

/-- The loop of `mappages`, with `k` more pages to map after the one at `a`. The answer is `false`
when it returns -1. -/
def mapLoop (table : ℕ → Option ℕ) (perm : BitVec 12) :
    ℕ → ℕ → ℕ → Pgdir → Phys → Except Panic (Bool × Pgdir × Phys)
  | k, a, f, d, m =>
    match walkpgdirAlloc d m a (table a) with
    | none => .ok (false, d, m)
    | some (some _, _, _) => .error .remap
    | some (none, d, m) =>
      match k with
      | 0 => .ok (true, d.setPte a (some (.new f perm)), m)
      | k + 1 => mapLoop table perm k (a + PGSIZE) (f + 1) (d.setPte a (some (.new f perm))) m

/-- `mappages(pgdir, va, size, pa, perm)` for the physical pages from `f` on. -/
def mappages (d : Pgdir) (m : Phys) (va size f : ℕ) (perm : BitVec 12)
    (table : ℕ → Option ℕ) : Except Panic (Bool × Pgdir × Phys) :=
  mapLoop table perm ((pgrounddown (va + size - 1) - pgrounddown va) / PGSIZE)
    (pgrounddown va) f d m

/-- The loop of `deallocuvm`. -/
def deallocLoop (K : Link) (oldsz : ℕ) : ℕ → ℕ → Pgdir → Phys → Except Panic (Pgdir × Phys)
  | 0, _, d, m => .ok (d, m)
  | fuel + 1, a, d, m =>
    if a < oldsz then
      match walkpgdir d a with
      | none => deallocLoop K oldsz fuel (a + (NPTENTRIES - 1) * PGSIZE + PGSIZE) d m
      | some none => deallocLoop K oldsz fuel (a + PGSIZE) d m
      | some (some pte) =>
        if pte.frame = 0 then .error .kfree
        else
          match m.kfree K pte.frame with
          | .error e => .error e
          | .ok m => deallocLoop K oldsz fuel (a + PGSIZE) (d.setPte a none) m
    else .ok (d, m)

/-- `deallocuvm(pgdir, oldsz, newsz)`. Every round of the loop goes at least one page further. -/
def deallocuvm (K : Link) (d : Pgdir) (m : Phys) (oldsz newsz : ℕ) :
    Except Panic (ℕ × Pgdir × Phys) :=
  if newsz ≥ oldsz then .ok (oldsz, d, m)
  else
    match deallocLoop K oldsz (pages oldsz) (pgroundup newsz) d m with
    | .error e => .error e
    | .ok (d, m) => .ok (newsz, d, m)

/-- The loop of `allocuvm`. What `mappages` returns is not looked at. -/
def allocLoop (K : Link) (page table : ℕ → Option ℕ) (oldsz newsz : ℕ) :
    ℕ → ℕ → Pgdir → Phys → Except Panic (ℕ × Pgdir × Phys)
  | 0, _, d, m => .ok (newsz, d, m)
  | fuel + 1, a, d, m =>
    if a < newsz then
      match m.kalloc (page a) with
      | none =>
        match deallocuvm K d m newsz oldsz with
        | .error e => .error e
        | .ok (_, d, m) => .ok (0, d, m)
      | some (f, m) =>
        match mappages d (m.memset f 0) a PGSIZE f (PTE_W ||| PTE_U) table with
        | .error e => .error e
        | .ok (_, d, m) => allocLoop K page table oldsz newsz fuel (a + PGSIZE) d m
    else .ok (newsz, d, m)

/-- `allocuvm(pgdir, oldsz, newsz)`: 0 if it fails. -/
def allocuvm (K : Link) (page table : ℕ → Option ℕ) (d : Pgdir) (m : Phys) (oldsz newsz : ℕ) :
    Except Panic (ℕ × Pgdir × Phys) :=
  if newsz ≥ KERNBASE then .ok (0, d, m)
  else if newsz < oldsz then .ok (oldsz, d, m)
  else allocLoop K page table oldsz newsz (pages newsz) (pgroundup oldsz) d m

/-! ### Entries by page number -/

/-- The pages of the address space. -/
def NPAGES : ℕ := 2 ^ 20

/-- The entry of page `k`. -/
def Pgdir.entry (d : Pgdir) (k : ℕ) : Option Pte :=
  (d.pde (k / NPTENTRIES)).bind fun t => t.pte (k % NPTENTRIES)

/-- There is a page table for page `k`. -/
def Pgdir.hasTable (d : Pgdir) (k : ℕ) : Bool := (d.pde (k / NPTENTRIES)).isSome

section Entries

variable {K : Link} {d : Pgdir} {m : Phys} {j k f f' : ℕ} {v : Option Pte} {perm : BitVec 12}
  {table : Option ℕ}

theorem pdx_mul (hk : k < NPAGES) : pdx (k * PGSIZE) = k / NPTENTRIES := by
  simp only [pdx, PGSIZE, NPTENTRIES, NPAGES] at *
  omega

theorem ptx_mul (k : ℕ) : ptx (k * PGSIZE) = k % NPTENTRIES := by
  simp only [ptx, PGSIZE, NPTENTRIES]
  omega

theorem hasTable_congr (h : j / NPTENTRIES = k / NPTENTRIES) : d.hasTable j = d.hasTable k := by
  rw [Pgdir.hasTable, Pgdir.hasTable, h]

/-- A page that is mapped has a page table. -/
theorem hasTable_of_entry {p : Pte} (h : d.entry k = some p) : d.hasTable k = true := by
  rw [Pgdir.entry] at h
  obtain ⟨t, ht, -⟩ := Option.bind_eq_some_iff.mp h
  rw [Pgdir.hasTable, ht]
  rfl

/-- The page behind pages that have page tables is the first of its table, or the table is there. -/
theorem first_or_hasTable (h : ∀ j < k, d.hasTable j = true) :
    k % NPTENTRIES = 0 ∨ d.hasTable k = true := by
  by_cases h0 : k % NPTENTRIES = 0
  · exact Or.inl h0
  · refine Or.inr ?_
    have hpos : 0 < k := Nat.pos_of_ne_zero fun h => h0 (by rw [h]; rfl)
    rw [← h (k - 1) (by omega)]
    refine hasTable_congr ?_
    simp only [NPTENTRIES] at *
    omega

/-- Without a page table the page is not mapped. -/
theorem entry_of_not_hasTable (h : d.hasTable k = false) : d.entry k = none := by
  cases hd : d.entry k with
  | none => rfl
  | some p =>
    rw [hasTable_of_entry hd] at h
    cases h

/-- A look at an entry. -/
theorem walkpgdir_page (hk : k < NPAGES) :
    walkpgdir d (k * PGSIZE) = if d.hasTable k then some (d.entry k) else none := by
  rw [walkpgdir, pdx_mul hk, ptx_mul, Pgdir.hasTable, Pgdir.entry]
  cases d.pde (k / NPTENTRIES) <;> rfl

/-- An assignment to an entry changes one page table. -/
theorem pde_setPte (hk : k < NPAGES) (i : ℕ) : (d.setPte (k * PGSIZE) v).pde i =
    if i = k / NPTENTRIES then
      (d.pde i).map fun t => ⟨t.frame, update t.pte (k % NPTENTRIES) v⟩
    else d.pde i := by
  rw [Pgdir.setPte, pdx_mul hk, ptx_mul]
  dsimp only
  split_ifs with hi
  · rw [hi, update_self]
  · exact update_of_ne hi _ _

/-- An assignment to an entry leaves the page tables where they are. -/
theorem hasTable_setPte (hk : k < NPAGES) :
    (d.setPte (k * PGSIZE) v).hasTable j = d.hasTable j := by
  rw [Pgdir.hasTable, Pgdir.hasTable, pde_setPte hk]
  split_ifs
  · exact Option.isSome_map
  · rfl

/-- An assignment to an entry changes this entry only. -/
theorem entry_setPte (hk : k < NPAGES) (ht : d.hasTable k = true) :
    (d.setPte (k * PGSIZE) v).entry j = if j = k then v else d.entry j := by
  obtain ⟨t, hd⟩ := Option.isSome_iff_exists.mp ht
  rw [Pgdir.entry, Pgdir.entry, pde_setPte hk]
  by_cases hj : j / NPTENTRIES = k / NPTENTRIES
  · rw [if_pos hj, hj, hd, Option.map_some, Option.bind_some, Option.bind_some]
    by_cases hjk : j = k
    · rw [if_pos hjk, hjk]
      exact update_self ..
    · rw [if_neg hjk]
      refine update_of_ne (fun hmod => hjk ?_) _ _
      rw [← Nat.div_add_mod j NPTENTRIES, hj, hmod, Nat.div_add_mod]
  · rw [if_neg hj, if_neg fun h => hj (by rw [h])]

/-- The directory with a new, empty page table for page `k`. -/
def Pgdir.addTable (d : Pgdir) (k f : ℕ) : Pgdir :=
  ⟨d.frame, update d.pde (k / NPTENTRIES) (some ⟨f, fun _ => none⟩)⟩

/-- The new page table is the only change. -/
theorem pde_addTable (i : ℕ) : (d.addTable k f).pde i =
    if i = k / NPTENTRIES then some ⟨f, fun _ => none⟩ else d.pde i := by
  rw [Pgdir.addTable]
  dsimp only
  split_ifs with hi
  · rw [hi, update_self]
  · exact update_of_ne hi _ _

/-- The pages that the new table covers have a page table. -/
theorem hasTable_addTable :
    (d.addTable k f).hasTable j = (d.hasTable j || decide (j / NPTENTRIES = k / NPTENTRIES)) := by
  rw [Pgdir.hasTable, Pgdir.hasTable, pde_addTable]
  split_ifs with hj
  · simp [hj]
  · simp [hj]

/-- A new page table maps nothing. -/
theorem entry_addTable (hk : d.hasTable k = false) : (d.addTable k f).entry j = d.entry j := by
  by_cases hj : j / NPTENTRIES = k / NPTENTRIES
  · have hno : d.hasTable j = false := by rw [hasTable_congr hj, hk]
    rw [entry_of_not_hasTable hno, Pgdir.entry, pde_addTable, if_pos hj]
    rfl
  · rw [Pgdir.entry, Pgdir.entry, pde_addTable, if_neg hj]

/-- `walkpgdir` with allocation: there is no page for a page table, or the directory has one for
page `k` and is the same otherwise. -/
theorem walkpgdirAlloc_page (hk : k < NPAGES) (d : Pgdir) (m : Phys) (table : Option ℕ) :
    walkpgdirAlloc d m (k * PGSIZE) table =
      if d.hasTable k then some (d.entry k, d, m)
      else (m.kalloc table).map fun x => (none, d.addTable k x.1, x.2.memset x.1 0) := by
  rw [walkpgdirAlloc, pdx_mul hk, ptx_mul, Pgdir.hasTable, Pgdir.entry]
  cases d.pde (k / NPTENTRIES) with
  | some t => rfl
  | none => cases m.kalloc table <;> rfl

/-- Map page `k` to the physical page `f`, with a new page table if there is none. -/
def mapPage (d : Pgdir) (m : Phys) (k f : ℕ) (perm : BitVec 12) (table : Option ℕ) :
    Bool × Pgdir × Phys :=
  if d.hasTable k then (true, d.setPte (k * PGSIZE) (some (.new f perm)), m)
  else
    match m.kalloc table with
    | none => (false, d, m)
    | some (t, m) => (true, (d.addTable k t).setPte (k * PGSIZE) (some (.new f perm)), m.memset t 0)

/-- **`mappages` for one page** that is not mapped. -/
theorem mappages_page (hk : k < NPAGES) (hno : d.entry k = none) (f : ℕ) (perm : BitVec 12)
    (table : ℕ → Option ℕ) :
    mappages d m (k * PGSIZE) PGSIZE f perm table =
      .ok (mapPage d m k f perm (table (k * PGSIZE))) := by
  rw [mappages, Vm.last_page, Vm.pgrounddown_page, mapLoop, walkpgdirAlloc_page hk, mapPage, hno]
  by_cases ht : d.hasTable k = true
  · rw [if_pos ht, if_pos ht]
  · rw [if_neg ht, if_neg ht]
    cases m.kalloc (table (k * PGSIZE)) <;> rfl

/-- What `mapPage` does to the entries and the page tables. -/
theorem mapPage_entry (hk : k < NPAGES) (f : ℕ) (perm : BitVec 12)
    (table : Option ℕ) (j : ℕ) :
    (mapPage d m k f perm table).2.1.entry j =
        (if j = k ∧ (d.hasTable k || table.isSome) then some (.new f perm) else d.entry j) ∧
      (mapPage d m k f perm table).2.1.hasTable j =
        (d.hasTable j || (table.isSome && decide (j / NPTENTRIES = k / NPTENTRIES))) := by
  rw [mapPage]
  by_cases ht : d.hasTable k = true
  · rw [if_pos ht]
    refine ⟨?_, ?_⟩
    · rw [entry_setPte hk ht]
      simp [ht]
    · rw [hasTable_setPte hk]
      by_cases hj : j / NPTENTRIES = k / NPTENTRIES
      · rw [hasTable_congr hj, ht, Bool.true_or]
      · simp [hj]
  · rw [if_neg ht]
    cases table with
    | none => simp [Phys.kalloc, ht]
    | some t =>
      have hnew : (d.addTable k t).hasTable k = true := by simp [hasTable_addTable]
      simp only [Phys.kalloc, Option.map_some, Option.isSome_some, Bool.or_true, and_true,
        Bool.true_and]
      refine ⟨?_, ?_⟩
      · rw [entry_setPte hk hnew, entry_addTable (by simpa using ht)]
      · rw [hasTable_setPte hk, hasTable_addTable]

/-- `mapPage` writes to the new page table only. -/
theorem mapPage_byte (hf : table ≠ some f') :
    (mapPage d m k f perm table).2.2.byte f' = m.byte f' := by
  rw [mapPage]
  split_ifs
  · rfl
  · cases table with
    | none => rfl
    | some t => exact update_of_ne (fun h => hf (by rw [h])) _ _

/-- The directory stays in its page. -/
theorem mapPage_frame : (mapPage d m k f perm table).2.1.frame = d.frame := by
  rw [mapPage]
  split_ifs
  · rfl
  · cases table <;> rfl

/-- The page that the page table with index `i` is in. -/
def Pgdir.tableFrame (d : Pgdir) (i : ℕ) : Option ℕ := (d.pde i).map Table.frame

/-- The page tables stay in their pages. -/
theorem tableFrame_setPte (hk : k < NPAGES) (i : ℕ) :
    (d.setPte (k * PGSIZE) v).tableFrame i = d.tableFrame i := by
  rw [Pgdir.tableFrame, Pgdir.tableFrame, pde_setPte hk]
  split_ifs
  · exact Option.map_map ..
  · rfl

/-- `kfree` of a page in range. -/
theorem kfree_ok (hf : K.IsPage f) :
    m.kfree K f = .ok { m.memset f 1 with free := f :: m.free } := by
  rw [Phys.kfree, if_neg]
  rintro (h | h)
  · exact absurd hf.1 (Nat.not_le.mpr h)
  · exact absurd hf.2 (Nat.not_lt.mpr h)

theorem Link.IsPage.ne_zero (hf : K.IsPage f) : f ≠ 0 :=
  ((Nat.zero_lt_of_lt K.lt_kend).trans_le hf.1).ne'

end Entries

/-! ### Unmapping a range of pages -/

/-- The physical pages that the pages of `[k, N)` are mapped to. -/
def Pgdir.frames (d : Pgdir) (k N : ℕ) : List ℕ :=
  (List.range' k (N - k)).filterMap fun j => (d.entry j).map Pte.frame

/-- The loop of `deallocuvm`, started at page `k`, jumps over page `j`: all page tables before that
of `j` are missing, so that it comes to the table of `j` at a page behind `j`. -/
def Pgdir.Missed (d : Pgdir) (k j : ℕ) : Prop :=
  j % NPTENTRIES < k % NPTENTRIES ∧ ∀ i, k / NPTENTRIES ≤ i → i < j / NPTENTRIES → d.pde i = none

section Frames

variable {d d' : Pgdir} {j k l f N : ℕ}

/-- The pages of a range, by their entries. -/
theorem mem_frames :
    f ∈ d.frames k N ↔ ∃ j p, k ≤ j ∧ j < N ∧ d.entry j = some p ∧ p.frame = f := by
  simp only [Pgdir.frames, List.mem_filterMap, List.mem_range'_1, Option.map_eq_some_iff]
  constructor
  · rintro ⟨j, ⟨h1, h2⟩, p, hp, hf⟩
    exact ⟨j, p, h1, by omega, hp, hf⟩
  · rintro ⟨j, p, h1, h2, hp, hf⟩
    exact ⟨j, ⟨h1, by omega⟩, p, hp, hf⟩

theorem frames_of_le (h : N ≤ k) : d.frames k N = [] := by
  rw [Pgdir.frames, Nat.sub_eq_zero_of_le h]
  rfl

/-- The pages of a range, the first one apart. -/
theorem frames_succ (h : k < N) :
    d.frames k N = ((d.entry k).map Pte.frame).toList ++ d.frames (k + 1) N := by
  have hlen : N - k = N - (k + 1) + 1 := by omega
  rw [Pgdir.frames, hlen, List.range'_succ, List.filterMap_cons]
  cases d.entry k <;> rfl

/-- The pages of a range depend on its entries only. -/
theorem frames_congr (h : ∀ j, k ≤ j → j < N → d.entry j = d'.entry j) :
    d.frames k N = d'.frames k N := by
  refine List.filterMap_congr fun j hj => ?_
  obtain ⟨h1, h2⟩ := List.mem_range'_1.mp hj
  rw [h j h1 (by omega)]

/-- Pages that are not mapped can be left out. -/
theorem frames_skip (hkl : k ≤ l) (h : ∀ j, k ≤ j → j < l → j < N → d.entry j = none) :
    d.frames k N = d.frames l N := by
  induction l, hkl using Nat.le_induction with
  | base => rfl
  | succ l hkl ih =>
    rw [ih fun j h1 h2 => h j h1 (by omega)]
    by_cases hl : l < N
    · rw [frames_succ hl, h l hkl (Nat.lt_succ_self l) hl]
      rfl
    · rw [frames_of_le (by omega), frames_of_le (by omega)]

/-- Different pages are mapped to different pages. -/
theorem nodup_frames (hinj : ∀ {i j p q}, k ≤ i → i < N → k ≤ j → j < N → d.entry i = some p →
    d.entry j = some q → p.frame = q.frame → i = j) : (d.frames k N).Nodup := by
  refine List.pairwise_filterMap.mpr (List.Pairwise.imp_of_mem ?_ (List.nodup_range' ..))
  intro i j hi hj hne f hf g hg he
  obtain ⟨p, hp, rfl⟩ := Option.map_eq_some_iff.mp hf
  obtain ⟨q, hq, rfl⟩ := Option.map_eq_some_iff.mp hg
  obtain ⟨h1, h2⟩ := List.mem_range'_1.mp hi
  obtain ⟨h3, h4⟩ := List.mem_range'_1.mp hj
  exact hne (hinj h1 (by omega) h3 (by omega) hp hq he)

/-- From the first page of a table, or one that has a table, nothing is jumped over. -/
theorem not_missed (h : k % NPTENTRIES = 0 ∨ d.hasTable k = true) (hkj : k ≤ j) :
    ¬ d.Missed k j := by
  rintro ⟨hmod, hnone⟩
  rcases h with h | h
  · omega
  · have hdiv : k / NPTENTRIES < j / NPTENTRIES := by
      simp only [NPTENTRIES] at *
      omega
    rw [Pgdir.hasTable, hnone _ (Nat.le_refl _) hdiv] at h
    cases h

/-- The page behind one that has a table is the first of a table, or has the same table. -/
theorem next_first_or_hasTable (h : d.hasTable k = true) :
    (k + 1) % NPTENTRIES = 0 ∨ d.hasTable (k + 1) = true := by
  by_cases h0 : (k + 1) % NPTENTRIES = 0
  · exact Or.inl h0
  · refine Or.inr ?_
    rwa [hasTable_congr (show (k + 1) / NPTENTRIES = k / NPTENTRIES from ?_)]
    simp only [NPTENTRIES] at *
    omega

theorem div_add_table (k : ℕ) : (k + NPTENTRIES) / NPTENTRIES = k / NPTENTRIES + 1 :=
  Nat.add_div_right k (by decide)

/-- What is jumped over from the next table on is jumped over from here, if there is no table. -/
theorem Pgdir.Missed.of_next (hno : d.hasTable k = false) (h : d.Missed (k + NPTENTRIES) j) :
    d.Missed k j := by
  refine ⟨by simpa using h.1, fun i hi hij => ?_⟩
  by_cases hik : i = k / NPTENTRIES
  · rw [hik]
    simpa [Pgdir.hasTable] using hno
  · exact h.2 i (by rw [div_add_table]; omega) hij

/-- Without a table, the pages up to the one at which the loop goes on are not mapped or jumped
over. -/
theorem missed_of_entry {p : Pte} (hno : d.hasTable k = false) (hkj : k ≤ j)
    (hjk : j < k + NPTENTRIES)
    (hp : d.entry j = some p) : d.Missed k j := by
  have hdiv : j / NPTENTRIES ≠ k / NPTENTRIES := by
    intro h
    rw [← hasTable_congr h, hasTable_of_entry hp] at hno
    cases hno
  have hnext : j / NPTENTRIES = k / NPTENTRIES + 1 ∧ j % NPTENTRIES < k % NPTENTRIES := by
    simp only [NPTENTRIES] at *
    omega
  refine ⟨hnext.2, fun i hi hij => ?_⟩
  obtain rfl : i = k / NPTENTRIES := by omega
  simpa [Pgdir.hasTable] using hno

end Frames

section Dealloc

variable {K : Link} {d : Pgdir} {m : Phys} {k N : ℕ}

/-- **The pages of `[k, N)` have been unmapped and freed**, and nothing else has changed. -/
structure Unmapped (d : Pgdir) (m : Phys) (k N : ℕ) (d' : Pgdir) (m' : Phys) : Prop where
  frame : d'.frame = d.frame
  tables : ∀ i, d'.tableFrame i = d.tableFrame i
  entry : ∀ j, d'.entry j = if k ≤ j ∧ j < N then none else d.entry j
  free : m'.free = (d.frames k N).reverse ++ m.free
  byte : ∀ f, f ∉ d.frames k N → m'.byte f = m.byte f

/-- An empty range. -/
theorem unmapped_refl (h : N ≤ k) : Unmapped d m k N d m where
  frame := rfl
  tables _ := rfl
  entry j := by rw [if_neg (by omega)]
  free := by rw [frames_of_le h]; rfl
  byte _ _ := rfl

/-- The pages of `[k, l)` were not mapped. -/
theorem Unmapped.skip {d' : Pgdir} {m' : Phys} {l : ℕ} (h : Unmapped d m l N d' m') (hkl : k ≤ l)
    (hnone : ∀ j, k ≤ j → j < l → j < N → d.entry j = none) : Unmapped d m k N d' m' where
  frame := h.frame
  tables := h.tables
  entry j := by
    rw [h.entry j]
    by_cases hj : k ≤ j ∧ j < l ∧ j < N
    · rw [hnone j hj.1 hj.2.1 hj.2.2]
      simp
    · exact if_congr (by omega) rfl rfl
  free := by rw [frames_skip hkl hnone, h.free]
  byte f hf := h.byte f (by rwa [← frames_skip hkl hnone])

/-- Unmapping the first page, then the others. -/
theorem Unmapped.cons {d' : Pgdir} {m' : Phys} {p : Pte} (hk : k < NPAGES) (hkN : k < N)
    (hp : d.entry k = some p)
    (h : Unmapped (d.setPte (k * PGSIZE) none) { m.memset p.frame 1 with free := p.frame :: m.free }
      (k + 1) N d' m') : Unmapped d m k N d' m' := by
  have hentry : ∀ j, (d.setPte (k * PGSIZE) none).entry j = if j = k then none else d.entry j :=
    fun j => entry_setPte hk (hasTable_of_entry hp)
  have hframes : d.frames k N = p.frame :: (d.setPte (k * PGSIZE) none).frames (k + 1) N := by
    rw [frames_succ hkN, hp]
    refine congrArg (p.frame :: ·) (frames_congr fun j hj _ => ?_)
    rw [hentry j, if_neg (by omega)]
  constructor
  case frame => exact h.frame
  case tables => exact fun i => (h.tables i).trans (tableFrame_setPte hk i)
  case entry =>
    intro j
    rw [h.entry j, hentry j]
    by_cases hjk : j = k
    · rw [if_pos (show k ≤ j ∧ j < N by omega), if_pos hjk, ite_self]
    · rw [if_neg hjk]
      exact if_congr (by omega) rfl rfl
  case free => rw [h.free, hframes, List.reverse_cons, List.append_assoc, List.singleton_append]
  case byte =>
    intro f hf
    rw [hframes, List.mem_cons, not_or] at hf
    rw [h.byte f hf.2]
    exact update_of_ne hf.1 _ _

theorem mul_add_tables (k : ℕ) :
    k * PGSIZE + (NPTENTRIES - 1) * PGSIZE + PGSIZE = (k + NPTENTRIES) * PGSIZE := by
  simp only [NPTENTRIES, PGSIZE]
  omega

/-- **The loop of `deallocuvm`**, from page `k` on. Where a page table is missing it goes on 1024
pages further; it leaves out nothing as long as it does not jump over a mapped page. -/
theorem deallocLoop_spec {oldsz fuel : ℕ} (hold : oldsz ≤ KERNBASE) (hN : N = pages oldsz)
    (hfuel : N - k ≤ fuel)
    (hseen : ∀ j p, k ≤ j → j < N → d.entry j = some p → ¬ d.Missed k j)
    (hpage : ∀ j p, k ≤ j → j < N → d.entry j = some p → K.IsPage p.frame) :
    ∃ d' m', deallocLoop K oldsz fuel (k * PGSIZE) d m = .ok (d', m') ∧ Unmapped d m k N d' m' := by
  induction fuel generalizing k d m with
  | zero => exact ⟨d, m, rfl, unmapped_refl (by omega)⟩
  | succ fuel ih =>
    rw [deallocLoop]
    by_cases hlt : k * PGSIZE < oldsz
    · have hkN : k < N := hN ▸ Vm.mul_lt_iff.mp hlt
      have hk : k < NPAGES := by
        have := Vm.pages_le hold
        simp only [NPAGES, USERPAGES, KERNBASE, PGSIZE] at *
        omega
      rw [if_pos hlt, walkpgdir_page hk]
      have haddr : k * PGSIZE + PGSIZE = (k + 1) * PGSIZE := (Nat.succ_mul k PGSIZE).symm
      by_cases ht : d.hasTable k = true
      · rw [if_pos ht]
        cases hp : d.entry k with
        | none =>
          obtain ⟨d', m', hrun, hun⟩ := ih (k := k + 1) (d := d) (m := m) (by omega)
            (fun j _ hkj _ _ => not_missed (next_first_or_hasTable ht) hkj)
            fun j p hkj => hpage j p (by omega)
          refine ⟨d', m', by rw [haddr]; exact hrun, hun.skip (Nat.le_succ k) fun j h1 h2 _ => ?_⟩
          obtain rfl : j = k := by omega
          exact hp
        | some p =>
          have hpg := hpage k p (Nat.le_refl k) hkN hp
          have ht' : (d.setPte (k * PGSIZE) none).hasTable k = true := by rwa [hasTable_setPte hk]
          obtain ⟨d', m', hrun, hun⟩ := ih (k := k + 1) (d := d.setPte (k * PGSIZE) none)
            (m := { m.memset p.frame 1 with free := p.frame :: m.free }) (by omega)
            (fun j _ hkj _ _ => not_missed (next_first_or_hasTable ht') hkj)
            fun j q hkj hjN hq => by
              rw [entry_setPte hk ht, if_neg (by omega)] at hq
              exact hpage j q (by omega) hjN hq
          refine ⟨d', m', ?_, hun.cons hk hkN hp⟩
          dsimp only
          rw [if_neg hpg.ne_zero, kfree_ok hpg, haddr]
          exact hrun
      · rw [if_neg ht, mul_add_tables]
        rw [Bool.not_eq_true] at ht
        have hent : 0 < NPTENTRIES := by decide
        obtain ⟨d', m', hrun, hun⟩ := ih (k := k + NPTENTRIES) (d := d) (m := m) (by omega)
          (fun j p hkj hjN hp hmiss => hseen j p (by omega) hjN hp (hmiss.of_next ht))
          fun j p hkj => hpage j p (by omega)
        refine ⟨d', m', hrun, hun.skip (Nat.le_add_right _ _) fun j h1 h2 h3 => ?_⟩
        cases hp : d.entry j with
        | none => rfl
        | some p => exact absurd (missed_of_entry ht h1 h2 hp) (hseen j p h1 h3 hp)
    · rw [if_neg hlt]
      have hkN : N ≤ k := by
        rw [hN]
        exact Nat.not_lt.mp fun h => hlt (Vm.mul_lt_iff.mpr h)
      exact ⟨d, m, rfl, unmapped_refl hkN⟩

/-- The loop leaves the pages below the one at which it starts alone, and those that it jumps
over. -/
theorem deallocLoop_missed {oldsz fuel j : ℕ} {d' : Pgdir} {m' : Phys} (hold : oldsz ≤ KERNBASE)
    (hrun : deallocLoop K oldsz fuel (k * PGSIZE) d m = .ok (d', m')) (hj : j < k ∨ d.Missed k j) :
    d'.entry j = d.entry j := by
  induction fuel generalizing k d m with
  | zero =>
    cases hrun
    rfl
  | succ fuel ih =>
    rw [deallocLoop] at hrun
    by_cases hlt : k * PGSIZE < oldsz
    · have hk : k < NPAGES := by
        simp only [NPAGES, KERNBASE, PGSIZE] at *
        omega
      have haddr : k * PGSIZE + PGSIZE = (k + 1) * PGSIZE := (Nat.succ_mul k PGSIZE).symm
      rw [if_pos hlt, walkpgdir_page hk] at hrun
      by_cases ht : d.hasTable k = true
      · have hjk : j < k := hj.elim id fun h => by
          by_contra hkj
          exact not_missed (Or.inr ht) (Nat.not_lt.mp hkj) h
        rw [if_pos ht] at hrun
        cases hp : d.entry k with
        | none =>
          rw [hp, haddr] at hrun
          exact ih hrun (Or.inl (by omega))
        | some p =>
          rw [hp] at hrun
          dsimp only at hrun
          split_ifs at hrun
          split at hrun
          · cases hrun
          · rw [haddr] at hrun
            rw [ih hrun (Or.inl (by omega)), entry_setPte hk ht, if_neg (by omega)]
      · rw [if_neg ht, mul_add_tables] at hrun
        refine ih hrun ?_
        by_cases hnear : j < k + NPTENTRIES
        · exact Or.inl hnear
        · refine Or.inr ?_
          obtain ⟨hmod, hnone⟩ := hj.resolve_left (by omega)
          refine ⟨by simpa using hmod, fun i hi hij => hnone i ?_ hij⟩
          rw [div_add_table] at hi
          omega
    · rw [if_neg hlt] at hrun
      cases hrun
      rfl

/-- **`deallocuvm`** to a smaller size, in a directory in which all pages below that size are
mapped. -/
theorem deallocuvm_spec {oldsz newsz : ℕ} (hold : oldsz ≤ KERNBASE) (hlt : newsz < oldsz)
    (hmapped : ∀ j < pages newsz, d.hasTable j = true)
    (hpage : ∀ j p, pages newsz ≤ j → j < pages oldsz → d.entry j = some p → K.IsPage p.frame) :
    ∃ d' m', deallocuvm K d m oldsz newsz = .ok (newsz, d', m') ∧
      Unmapped d m (pages newsz) (pages oldsz) d' m' := by
  obtain ⟨d', m', hrun, hun⟩ := deallocLoop_spec (m := m) hold rfl (Nat.sub_le _ (pages newsz))
    (fun _ _ hkj _ _ => not_missed (first_or_hasTable hmapped) hkj) hpage
  refine ⟨d', m', ?_, hun⟩
  rw [deallocuvm, if_neg (Nat.not_le.mpr hlt), Vm.pgroundup_eq (hlt.le.trans hold), hrun]

end Dealloc

/-! ### Mapping a range of pages -/

/-- **Pages that `kalloc` can return** for the page at an address and for the page table that covers
it: different free pages. -/
structure Answers (free : List ℕ) where
  page : ℕ → Option ℕ
  table : ℕ → Option ℕ
  page_mem : ∀ {a f}, page a = some f → f ∈ free
  table_mem : ∀ {a f}, table a = some f → f ∈ free
  page_inj : ∀ {a b f}, page a = some f → page b = some f → a = b
  table_inj : ∀ {a b f}, table a = some f → table b = some f → a = b
  apart : ∀ {a b f}, page a = some f → table b ≠ some f

section Alloc

variable {K : Link} {d d' : Pgdir} {m m' : Phys} {F : List ℕ} {A : Answers F} {j k k₀ N : ℕ}

/-- There is a page table for page `j` once the pages of `[k₀, k)` have been mapped. -/
def Tabled (d : Pgdir) (table : ℕ → Option ℕ) (k₀ k j : ℕ) : Prop :=
  d.hasTable j = true ∨
    ∃ i, k₀ ≤ i ∧ i < k ∧ i / NPTENTRIES = j / NPTENTRIES ∧ (table (i * PGSIZE)).isSome = true

/-- **The pages of `[k₀, k)` have been mapped to new pages**, where there was a page table. -/
structure Grown (d : Pgdir) (m : Phys) (A : Answers F) (k₀ k : ℕ) (d' : Pgdir) (m' : Phys) :
    Prop where
  frame : d'.frame = d.frame
  hasTable : ∀ j, d'.hasTable j = true ↔ Tabled d A.table k₀ k j
  same : ∀ j, ¬ (k₀ ≤ j ∧ j < k) → d'.entry j = d.entry j
  new : ∀ j, k₀ ≤ j → j < k → ∃ f, A.page (j * PGSIZE) = some f ∧
    (Tabled d A.table k₀ (j + 1) j → d'.entry j = some (.new f (PTE_W ||| PTE_U))) ∧
    (¬ Tabled d A.table k₀ (j + 1) j → d'.entry j = none)
  byte : ∀ f, f ∉ F → m'.byte f = m.byte f
  zero : ∀ j f, k₀ ≤ j → j < k → A.page (j * PGSIZE) = some f → m'.byte f = fun _ => 0

/-- An empty range. -/
theorem grown_refl : Grown d m A k k d m where
  frame := rfl
  hasTable j := ⟨Or.inl, by rintro (h | ⟨i, h1, h2, -⟩); exacts [h, by omega]⟩
  same _ _ := rfl
  new j h1 h2 := by omega
  byte _ _ := rfl
  zero j f h1 h2 := by omega

/-- The page tables after one page more. -/
theorem tabled_succ : Tabled d A.table k₀ (k + 1) j ↔ Tabled d A.table k₀ k j ∨
    (k₀ ≤ k ∧ k / NPTENTRIES = j / NPTENTRIES ∧ (A.table (k * PGSIZE)).isSome = true) := by
  constructor
  · rintro (h | ⟨i, h1, h2, h3, h4⟩)
    · exact Or.inl (Or.inl h)
    · rcases Nat.lt_succ_iff_lt_or_eq.mp h2 with h2 | rfl
      · exact Or.inl (Or.inr ⟨i, h1, h2, h3, h4⟩)
      · exact Or.inr ⟨h1, h3, h4⟩
  · rintro ((h | ⟨i, h1, h2, h3, h4⟩) | ⟨h1, h3, h4⟩)
    · exact Or.inl h
    · exact Or.inr ⟨i, h1, by omega, h3, h4⟩
    · exact Or.inr ⟨k, h1, Nat.lt_succ_self k, h3, h4⟩

/-- One more page. -/
theorem Grown.step {f : ℕ} (hg : Grown d m A k₀ k d' m') (hk₀ : k₀ ≤ k) (hk : k < NPAGES)
    (hnone : d.entry k = none) (hf : A.page (k * PGSIZE) = some f) :
    let r := mapPage d' ({ m' with free := m'.free.erase f }.memset f 0) k f
      (PTE_W ||| PTE_U) (A.table (k * PGSIZE))
    Grown d m A k₀ (k + 1) r.2.1 r.2.2 := by
  intro r
  have hno : d'.entry k = none := by rw [hg.same k (by omega), hnone]
  have hr (j : ℕ) := mapPage_entry (d := d') (m := { m' with free := m'.free.erase f }.memset f 0)
    hk f (PTE_W ||| PTE_U) (A.table (k * PGSIZE)) j
  have hself : Tabled d A.table k₀ (k + 1) k ↔
      (d'.hasTable k || (A.table (k * PGSIZE)).isSome) = true := by
    rw [tabled_succ, Bool.or_eq_true, hg.hasTable]
    simp [hk₀]
  constructor
  case frame => exact mapPage_frame.trans hg.frame
  case hasTable =>
    intro j
    rw [(hr j).2, tabled_succ, Bool.or_eq_true, hg.hasTable j, Bool.and_eq_true, decide_eq_true_eq]
    exact or_congr_right ⟨fun ⟨h1, h2⟩ => ⟨hk₀, h2.symm, h1⟩, fun ⟨_, h2, h1⟩ => ⟨h1, h2.symm⟩⟩
  case same =>
    intro j hj
    rw [(hr j).1, if_neg (by omega), hg.same j (by omega)]
  case new =>
    intro j hj hjk
    by_cases hjk' : j = k
    · subst hjk'
      refine ⟨f, hf, fun ht => ?_, fun ht => ?_⟩
      · rw [(hr j).1, if_pos ⟨rfl, hself.mp ht⟩]
      · rw [(hr j).1, if_neg (fun h => ht (hself.mpr h.2)), hno]
    · obtain ⟨f', hf', h1, h2⟩ := hg.new j hj (by omega)
      rw [(hr j).1, if_neg (fun h => hjk' h.1)]
      exact ⟨f', hf', h1, h2⟩
  case byte =>
    intro g hfree
    rw [mapPage_byte fun h => hfree (A.table_mem h)]
    have hne : g ≠ f := fun h => hfree (h ▸ A.page_mem hf)
    exact (update_of_ne hne _ _).trans (hg.byte g hfree)
  case zero =>
    intro j g hj hjk hgj
    rw [mapPage_byte (A.apart hgj)]
    by_cases hjk' : j = k
    · rw [hjk', hf] at hgj
      rw [← Option.some.inj hgj]
      exact update_self ..
    · have hne : g ≠ f := by
        rintro rfl
        exact hjk' (Nat.eq_of_mul_eq_mul_right (by decide) (A.page_inj hgj hf))
      exact (update_of_ne hne _ _).trans (hg.zero j g hj (by omega) hgj)

/-- **The mapping is what it was**, and so is every page but those of `F`. -/
structure Restored (F : List ℕ) (d : Pgdir) (m : Phys) (d' : Pgdir) (m' : Phys) : Prop where
  entry : ∀ j, d'.entry j = d.entry j
  byte : ∀ f, f ∉ F → m'.byte f = m.byte f

/-- `deallocuvm` takes back what the loop of `allocuvm` has done. -/
theorem Grown.undo {oldsz newsz : ℕ} (hg : Grown d m A (pages oldsz) k d' m')
    (hnew : newsz < KERNBASE) (hlt : oldsz < newsz) (hfree : ∀ f ∈ F, K.IsPage f)
    (hlow : ∀ j < pages oldsz, d.hasTable j = true)
    (hhigh : ∀ j, pages oldsz ≤ j → j < pages newsz → d.entry j = none) (hkN : k ≤ pages newsz) :
    ∃ e n, deallocuvm K d' m' newsz oldsz = .ok (oldsz, e, n) ∧ Restored F d m e n := by
  -- what is mapped in the range is new
  have hnewPage : ∀ j p, pages oldsz ≤ j → j < pages newsz → d'.entry j = some p →
      p.frame ∈ F := by
    intro j p hj hjN hp
    by_cases hjk : j < k
    · obtain ⟨f, hf, h1, h2⟩ := hg.new j hj hjk
      by_cases ht : Tabled d A.table (pages oldsz) (j + 1) j
      · rw [h1 ht] at hp
        rw [← Option.some.inj hp]
        exact A.page_mem hf
      · rw [h2 ht] at hp
        cases hp
    · rw [hg.same j (by omega), hhigh j hj hjN] at hp
      cases hp
  obtain ⟨e, n, hrun, hun⟩ := deallocuvm_spec (m := m') hnew.le hlt
    (fun j hj => (hg.hasTable j).mpr (Or.inl (hlow j hj)))
    fun j p hj hjN hp => hfree _ (hnewPage j p hj hjN hp)
  refine ⟨e, n, hrun, fun j => ?_, fun f hf => ?_⟩
  · rw [hun.entry j]
    split_ifs with hj
    · exact (hhigh j hj.1 hj.2).symm
    · exact hg.same j (by omega)
  · rw [hun.byte f, hg.byte f hf]
    intro hmem
    obtain ⟨j, p, hj, hjN, hp, rfl⟩ := mem_frames.mp hmem
    exact hf (hnewPage j p hj hjN hp)

/-- **The loop of `allocuvm`** at page `k`: it maps all pages, if there is a page for each of them,
and takes back what it did if not. -/
theorem allocLoop_spec {oldsz newsz fuel : ℕ} (hnew : newsz < KERNBASE)
    (hhigh : ∀ j, pages oldsz ≤ j → j < pages newsz → d.entry j = none) (hk₀ : pages oldsz ≤ k)
    (hkN : k ≤ pages newsz) (hfuel : pages newsz - k ≤ fuel)
    (hg : Grown d m A (pages oldsz) k d' m') :
    ((∀ j, k ≤ j → j < pages newsz → (A.page (j * PGSIZE)).isSome = true) →
      ∃ e n, allocLoop K A.page A.table oldsz newsz fuel (k * PGSIZE) d' m' = .ok (newsz, e, n) ∧
        Grown d m A (pages oldsz) (pages newsz) e n) ∧
    ((∀ f ∈ F, K.IsPage f) → (∀ j < pages oldsz, d.hasTable j = true) →
      (∃ j, k ≤ j ∧ j < pages newsz ∧ A.page (j * PGSIZE) = none) →
      ∃ e n, allocLoop K A.page A.table oldsz newsz fuel (k * PGSIZE) d' m' = .ok (0, e, n) ∧
        Restored F d m e n) := by
  induction fuel generalizing k d' m' with
  | zero =>
    obtain rfl : k = pages newsz := by omega
    refine ⟨fun _ => ⟨d', m', rfl, hg⟩, ?_⟩
    rintro - - ⟨j, h1, h2, -⟩
    omega
  | succ fuel ih =>
    rw [allocLoop]
    by_cases hlt : k * PGSIZE < newsz
    · have hkN : k < pages newsz := Vm.mul_lt_iff.mp hlt
      have hk : k < NPAGES := by
        have := Vm.pages_le hnew.le
        simp only [NPAGES, USERPAGES, KERNBASE, PGSIZE] at *
        omega
      rw [if_pos hlt]
      cases hp : A.page (k * PGSIZE) with
      | none =>
        refine ⟨fun h => ?_, fun hfree hlow _ => ?_⟩
        · have := h k (Nat.le_refl k) hkN
          rw [hp] at this
          cases this
        · have hsz : oldsz < newsz := by
            have : oldsz ≤ pages oldsz * PGSIZE := by
              simp only [pages, PGSIZE]
              omega
            exact (this.trans (Nat.mul_le_mul_right _ hk₀)).trans_lt hlt
          obtain ⟨e, n, hrun, hres⟩ := hg.undo hnew hsz hfree hlow hhigh hkN.le
          refine ⟨e, n, ?_, hres⟩
          simp only [Phys.kalloc, Option.map_none, hrun]
      | some f =>
        have hno : d'.entry k = none := by rw [hg.same k (by omega), hhigh k hk₀ hkN]
        have hstep := hg.step hk₀ hk (hhigh k hk₀ hkN) hp
        obtain ⟨hall, hsome⟩ := ih (k := k + 1) (by omega) hkN (by omega) hstep
        simp only [Phys.kalloc, Option.map_some, mappages_page hk hno]
        rw [← Nat.succ_mul]
        constructor
        · intro h
          obtain ⟨e, n, hrun, hgrown⟩ := hall fun j hj => h j (by omega)
          exact ⟨e, n, hrun, hgrown⟩
        · rintro hfree hlow ⟨j, h1, h2, h3⟩
          refine hsome hfree hlow ⟨j, ?_, h2, h3⟩
          by_contra hjk
          obtain rfl : j = k := by omega
          rw [hp] at h3
          cases h3
    · rw [if_neg hlt]
      have hend : pages newsz ≤ k := Nat.not_lt.mp fun h => hlt (Vm.mul_lt_iff.mpr h)
      obtain rfl : k = pages newsz := by omega
      refine ⟨fun _ => ⟨d', m', rfl, hg⟩, ?_⟩
      rintro - - ⟨j, h1, h2, -⟩
      omega

/-- **`allocuvm`** to a size below `KERNBASE`: all pages are mapped, where there was a page table,
or there was no page for one of them and the mapping is what it was. -/
theorem allocuvm_spec {oldsz newsz : ℕ} (hnew : newsz < KERNBASE) (hle : oldsz ≤ newsz)
    (hhigh : ∀ j, pages oldsz ≤ j → j < pages newsz → d.entry j = none) :
    ((∀ j, pages oldsz ≤ j → j < pages newsz → (A.page (j * PGSIZE)).isSome = true) →
      ∃ e n, allocuvm K A.page A.table d m oldsz newsz = .ok (newsz, e, n) ∧
        Grown d m A (pages oldsz) (pages newsz) e n) ∧
    ((∀ f ∈ F, K.IsPage f) → (∀ j < pages oldsz, d.hasTable j = true) →
      (∃ j, pages oldsz ≤ j ∧ j < pages newsz ∧ A.page (j * PGSIZE) = none) →
      ∃ e n, allocuvm K A.page A.table d m oldsz newsz = .ok (0, e, n) ∧ Restored F d m e n) := by
  have hrun : allocuvm K A.page A.table d m oldsz newsz =
      allocLoop K A.page A.table oldsz newsz (pages newsz) (pages oldsz * PGSIZE) d m := by
    rw [allocuvm, if_neg (Nat.not_le.mpr hnew), if_neg (Nat.not_lt.mpr hle),
      Vm.pgroundup_eq (hle.trans hnew.le)]
  rw [hrun]
  exact allocLoop_spec hnew hhigh (Nat.le_refl _) (Vm.pages_mono hle) (Nat.sub_le _ _)
    grown_refl

/-- The pages of `[k, N)` are to be mapped: there is a page for each of them, but none for the page
table of one that is the first of its table. -/
def TableLacking (d : Pgdir) (A : Answers F) (k N : ℕ) : Prop :=
  (∀ j, k ≤ j → j < N → (A.page (j * PGSIZE)).isSome = true) ∧
  ∃ j, k ≤ j ∧ j < N ∧ j % NPTENTRIES = 0 ∧ d.hasTable j = false ∧ A.table (j * PGSIZE) = none

/-- Every new page gets a page table exactly if the first page of each table does. -/
theorem tabled_iff {table : ℕ → Option ℕ} (hk : k % NPTENTRIES = 0 ∨ d.hasTable k = true) :
    (∀ j, k ≤ j → j < N → Tabled d table k (j + 1) j) ↔
      ∀ j, k ≤ j → j < N → j % NPTENTRIES = 0 → d.hasTable j = true ∨
        (table (j * PGSIZE)).isSome = true := by
  constructor
  · intro h j hj hjN h0
    rcases h j hj hjN with ht | ⟨i, hki, hij, hdiv, ht⟩
    · exact Or.inl ht
    · obtain rfl : i = j := by
        simp only [NPTENTRIES] at *
        omega
      exact Or.inr ht
  · intro h j hj hjN
    by_cases hs : k ≤ j / NPTENTRIES * NPTENTRIES
    · have hdiv : j / NPTENTRIES * NPTENTRIES / NPTENTRIES = j / NPTENTRIES :=
        Nat.mul_div_cancel _ (by decide)
      have hle : j / NPTENTRIES * NPTENTRIES ≤ j := Nat.div_mul_le_self _ _
      rcases h _ hs (by omega) (Nat.mul_mod_left _ _) with ht | ht
      · exact Or.inl (by rwa [hasTable_congr hdiv] at ht)
      · exact Or.inr ⟨_, hs, by omega, hdiv, ht⟩
    · -- the first page of the table is below `k`, so that `k` is not a first page
      refine Or.inl ?_
      have hsame : k / NPTENTRIES = j / NPTENTRIES := by
        simp only [NPTENTRIES] at *
        omega
      rw [← hasTable_congr hsame]
      refine hk.resolve_left fun h0 => hs ?_
      simp only [NPTENTRIES] at *
      omega

/-- All pages have page tables exactly if none was missing. -/
theorem tabled_iff_not_lacking (hk : k % NPTENTRIES = 0 ∨ d.hasTable k = true)
    (hp : ∀ j, k ≤ j → j < N → (A.page (j * PGSIZE)).isSome = true) :
    (∀ j, k ≤ j → j < N → Tabled d A.table k (j + 1) j) ↔ ¬ TableLacking d A k N := by
  rw [tabled_iff hk, TableLacking, and_iff_right hp]
  push Not
  refine forall_congr' fun j => forall_congr' fun _ => forall_congr' fun _ =>
    forall_congr' fun _ => ?_
  rw [Option.ne_none_iff_isSome]
  cases d.hasTable j <;> simp

end Alloc

/-! ### The bits `PTE_P`

The loops do with the bits `PTE_P` what those of `Xv6.PageTable` do. -/

/-- The directory of `Xv6.PageTable`. -/
def Pgdir.bits (d : Pgdir) : Vm.Pgdir := ⟨fun i => (d.pde i).map fun t k => (t.pte k).isSome⟩

section Bits

variable {K : Link} {d d' : Pgdir} {m m' : Phys} {page table : ℕ → Option ℕ} {perm : BitVec 12}
  {k a f fuel oldsz newsz sz : ℕ} {ok : Bool}

/-- An assignment to an entry, on the bits. -/
theorem bits_setPte (va : ℕ) (v : Option Pte) :
    (d.setPte va v).bits = d.bits.setPte va v.isSome := by
  rw [Pgdir.bits, Vm.Pgdir.setPte, Vm.Pgdir.mk.injEq]
  funext i
  by_cases hi : i = pdx va
  · subst hi
    simp only [Pgdir.setPte, Pgdir.bits, update_self, Option.map_map]
    congr 1
    funext t k
    by_cases hk : k = ptx va
    · subst hk
      simp
    · simp [hk]
  · simp [Pgdir.setPte, Pgdir.bits, hi]

/-- A look at an entry, on the bits. -/
theorem walkpgdir_bits (va : ℕ) : Vm.walkpgdir d.bits va false false =
    (walkpgdir d va).map fun pte => (pte.isSome, d.bits) := by
  rw [walkpgdir, Vm.walkpgdir]
  simp only [Pgdir.bits]
  cases d.pde (pdx va) <;> rfl

/-- `walkpgdir` with allocation, on the bits. -/
theorem walkpgdirAlloc_bits (va : ℕ) (table : Option ℕ) :
    Vm.walkpgdir d.bits va true table.isSome =
      (walkpgdirAlloc d m va table).map fun x => (x.1.isSome, x.2.1.bits) := by
  have hpde : d.bits.pde (pdx va) = (d.pde (pdx va)).map fun t k => (t.pte k).isSome := rfl
  rw [walkpgdirAlloc, Vm.walkpgdir, hpde]
  cases d.pde (pdx va) with
  | some t => rfl
  | none =>
    cases table with
    | none => rfl
    | some f =>
      simp only [Option.map_none, Option.isSome_some, Bool.not_true, Bool.or_self,
        Bool.false_eq_true, if_false, Phys.kalloc, Option.map_some, Option.some.injEq,
        Prod.mk.injEq, Option.isSome_none, true_and, Pgdir.bits, Vm.Pgdir.mk.injEq]
      funext i
      by_cases hi : i = pdx va
      · subst hi
        simp
      · simp [hi]

/-- What `mappages` returns, less the physical page and the memory. -/
def mapBits : Except Panic (Bool × Pgdir × Phys) → Except Vm.Panic (Bool × Vm.Pgdir)
  | .error _ => .error .remap
  | .ok (ok, d, _) => .ok (ok, d.bits)

/-- The loop of `mappages`, on the bits. -/
theorem mapLoop_bits : Vm.mapLoop (fun a => (table a).isSome) k d.bits a =
    mapBits (mapLoop table perm k a f d m) := by
  induction k generalizing a f d m with
  | zero =>
    rw [Vm.mapLoop, mapLoop, walkpgdirAlloc_bits (m := m)]
    rcases walkpgdirAlloc d m a (table a) with _ | ⟨_ | pte, d', m'⟩
    · rfl
    · simp [mapBits, bits_setPte]
    · rfl
  | succ k ih =>
    rw [Vm.mapLoop, mapLoop, walkpgdirAlloc_bits (m := m)]
    rcases walkpgdirAlloc d m a (table a) with _ | ⟨_ | pte, d', m'⟩
    · rfl
    · simp only [Option.map_some, Option.isSome_none, Bool.false_eq_true, if_false]
      rw [← ih, bits_setPte, Option.isSome_some]
    · rfl

theorem mappages_bits (va size : ℕ) : Vm.mappages d.bits va size (fun a => (table a).isSome) =
    mapBits (mappages d m va size f perm table) :=
  mapLoop_bits

/-- The loop of `deallocuvm`, on the bits. -/
theorem deallocLoop_bits (hfuel : oldsz ≤ a + fuel * PGSIZE)
    (hrun : deallocLoop K oldsz fuel a d m = .ok (d', m')) :
    Vm.deallocLoop oldsz d.bits a = d'.bits := by
  -- induction on the fuel, which is enough for the pages up to the old size
  induction fuel generalizing a d m with
  | zero =>
    cases hrun
    rw [Vm.deallocLoop, if_neg (by omega)]
  | succ fuel ih =>
    have hpage : oldsz ≤ a + PGSIZE + fuel * PGSIZE := by rw [Nat.succ_mul] at hfuel; omega
    rw [deallocLoop] at hrun
    rw [Vm.deallocLoop]
    split_ifs at hrun ⊢ with ha
    · rw [walkpgdir_bits]
      rcases hwalk : walkpgdir d a with _ | _ | pte
      · rw [hwalk] at hrun
        exact ih (by omega) hrun
      · rw [hwalk] at hrun
        exact ih hpage hrun
      · rw [hwalk] at hrun
        simp only at hrun
        split_ifs at hrun
        cases hfree : m.kfree K pte.frame with
        | error e =>
          rw [hfree] at hrun
          cases hrun
        | ok u =>
          rw [hfree] at hrun
          have := ih hpage hrun
          rwa [bits_setPte] at this
    · cases hrun
      rfl

/-- **`deallocuvm` with physical pages** unmaps the pages that `Vm.deallocuvm` does. -/
theorem deallocuvm_bits (hrun : deallocuvm K d m oldsz newsz = .ok (sz, d', m')) :
    Vm.deallocuvm d.bits oldsz newsz = (sz, d'.bits) := by
  rw [deallocuvm] at hrun
  rw [Vm.deallocuvm]
  split_ifs at hrun ⊢
  · cases hrun
    rfl
  · cases hloop : deallocLoop K oldsz (pages oldsz) (pgroundup newsz) d m with
    | error e =>
      rw [hloop] at hrun
      cases hrun
    | ok x =>
      rw [hloop] at hrun
      cases hrun
      have hfuel : oldsz ≤ pgroundup newsz + pages oldsz * PGSIZE := by
        simp only [pages, PGSIZE]
        omega
      rw [deallocLoop_bits hfuel hloop]

/-- The loop of `allocuvm`, on the bits. -/
theorem allocLoop_bits (hfuel : newsz ≤ a + fuel * PGSIZE)
    (hrun : allocLoop K page table oldsz newsz fuel a d m = .ok (sz, d', m')) :
    Vm.allocLoop (fun a => (page a).isSome) (fun a => (table a).isSome) oldsz newsz d.bits a =
      .ok (sz, d'.bits) := by
  induction fuel generalizing a d m with
  | zero =>
    cases hrun
    rw [Vm.allocLoop, if_neg (by omega)]
  | succ fuel ih =>
    have hpage : newsz ≤ a + PGSIZE + fuel * PGSIZE := by rw [Nat.succ_mul] at hfuel; omega
    rw [allocLoop] at hrun
    rw [Vm.allocLoop]
    split_ifs at hrun ⊢ with ha hsome
    · obtain ⟨f, hf⟩ := Option.isSome_iff_exists.mp hsome
      rw [hf, Phys.kalloc, Option.map_some] at hrun
      simp only at hrun
      rw [mappages_bits]
      cases hmap : mappages d _ a PGSIZE f (PTE_W ||| PTE_U) table with
      | error e =>
        rw [hmap] at hrun
        cases hrun
      | ok x =>
        rw [hmap] at hrun
        exact ih hpage hrun
    · rw [Option.not_isSome_iff_eq_none.mp hsome, Phys.kalloc, Option.map_none] at hrun
      simp only at hrun
      cases hundo : deallocuvm K d m newsz oldsz with
      | error e =>
        rw [hundo] at hrun
        cases hrun
      | ok x =>
        rw [hundo] at hrun
        cases hrun
        rw [deallocuvm_bits hundo]
    · cases hrun
      rfl

/-- **`allocuvm` with physical pages** maps the pages that `Vm.allocuvm` does. -/
theorem allocuvm_bits (hrun : allocuvm K page table d m oldsz newsz = .ok (sz, d', m')) :
    Vm.allocuvm (fun a => (page a).isSome) (fun a => (table a).isSome) d.bits oldsz newsz =
      .ok (sz, d'.bits) := by
  rw [allocuvm] at hrun
  rw [Vm.allocuvm]
  split_ifs at hrun ⊢
  · cases hrun
    rfl
  · cases hrun
    rfl
  · refine allocLoop_bits ?_ hrun
    simp only [pages, PGSIZE]
    omega

end Bits

end Xv6.Vmem
