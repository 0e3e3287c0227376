import Xv6.Vmem

/-!
# Copying to User Memory

`uva2ka` and `copyout` (`vm.c`). `uva2ka` does not test whether `walkpgdir` found a page table:
where there is none it reads the entry at address 0, which is a word of the running program.

## Main results

* `copyout_spec`: copying to addresses that are mapped for the user changes these bytes and no
  others.
-/

namespace Xv6.Vmem

open Vm (PGSIZE KERNBASE pgrounddown USERPAGES)

/-- How a kernel path can end without returning. -/
inductive Fault
  | panic (p : Panic)
  /-- the kernel uses an address that is not mapped, and `trap` panics -/
  | trap
  /-- the kernel writes to an address of its own part; what it does afterwards is not defined -/
  | stray
  deriving DecidableEq, Repr

/-- The byte at address `va`, if it is mapped. -/
def load (d : Pgdir) (m : Phys) (va : ℕ) : Option UInt8 :=
  (d.entry (va / PGSIZE)).map fun p => m.byte p.frame (va % PGSIZE)

/-- The word at address `va`. -/
def loadWord (d : Pgdir) (m : Phys) (va : ℕ) : Option ℕ :=
  match load d m va, load d m (va + 1), load d m (va + 2), load d m (va + 3) with
  | some a, some b, some c, some e =>
    some (a.toNat + 2 ^ 8 * b.toNat + 2 ^ 16 * c.toNat + 2 ^ 24 * e.toNat)
  | _, _, _, _ => none

/-- Byte `i` of a word. -/
def wordByte (w i : ℕ) : UInt8 := UInt8.ofNat (w / 2 ^ (8 * i))

/-- `memmove` of `n` bytes to offset `off` of the page `f`. -/
def Phys.write (m : Phys) (f off n : ℕ) (src : ℕ → UInt8) : Phys :=
  { m with byte := Function.update m.byte f fun o =>
      if off ≤ o ∧ o < off + n then src (o - off) else m.byte f o }

/-- The page that a write to `p2v(PTE_ADDR(w))` goes to, on the directory `cur`. A sum that wraps
around is an address of user memory. -/
def strayPage (cur : Pgdir) (w : ℕ) : Except Fault (Option ℕ) :=
  let v := (w / PGSIZE + KERNBASE / PGSIZE) % NPAGES
  if v = 0 then .ok none
  else if v < USERPAGES then
    match cur.entry v with
    | some p => if p.write then .ok (some p.frame) else .error .trap
    | none => .error .trap
  else .error .stray

/-- `uva2ka(pgdir, va)`: the page that `va` is mapped to, `none` if it returns 0. The kernel runs on
the directory `cur`. -/
def uva2ka (cur d : Pgdir) (m : Phys) (va : ℕ) : Except Fault (Option ℕ) :=
  match walkpgdir d va with
  | none =>
    -- the pointer to the entry is 0: the word there is taken for the entry
    match loadWord cur m 0 with
    | none => .error .trap
    | some w => if w % 2 = 1 ∧ w / 4 % 2 = 1 then strayPage cur w else .ok none
  | some none => .ok none
  | some (some p) => .ok (if p.user then some p.frame else none)

/-- The loop of `copyout`, with `len` bytes to go from byte `i` of the buffer on. A byte of the
buffer is `none` if it is at an address that is not mapped. The bytes are taken as they are
before the call: a buffer that overlaps the destination is not modelled. -/
def copyLoop (cur d : Pgdir) (buf : ℕ → Option UInt8) :
    ℕ → ℕ → ℕ → ℕ → Phys → Except Fault (Bool × Phys)
  | 0, _, _, _, m => .ok (true, m)
  | fuel + 1, i, va, len, m =>
    if len = 0 then .ok (true, m)
    else
      let va0 := pgrounddown va
      match uva2ka cur d m va0 with
      | .error e => .error e
      | .ok none => .ok (false, m)
      | .ok (some f) =>
        let n := min (PGSIZE - (va - va0)) len
        if (List.range n).all fun j => (buf (i + j)).isSome then
          copyLoop cur d buf fuel (i + n) ((va0 + PGSIZE) % 2 ^ 32) (len - n)
            (m.write f (va - va0) n fun j => (buf (i + j)).getD 0)
        else .error .trap

/-- `copyout(pgdir, va, buf, len)`: `false` if it returns -1. Every round copies at least one
byte. -/
def copyout (cur d : Pgdir) (m : Phys) (va : ℕ) (buf : ℕ → Option UInt8) (len : ℕ) :
    Except Fault (Bool × Phys) :=
  copyLoop cur d buf len 0 va len m

section Copy

variable {cur d : Pgdir} {m : Phys} {buf : ℕ → Option UInt8}

/-- The bytes after a write to a page. -/
theorem byte_write {f off n f' o : ℕ} {src : ℕ → UInt8} : (m.write f off n src).byte f' o =
    if f' = f ∧ off ≤ o ∧ o < off + n then src (o - off) else m.byte f' o := by
  rw [Phys.write]
  dsimp only
  by_cases hf : f' = f
  · subst hf
    rw [Function.update_self]
    exact if_congr (by simp) rfl rfl
  · rw [Function.update_of_ne hf, if_neg fun h => hf h.1]

/-- **Different pages of user memory are mapped to different pages.** -/
def Pgdir.Inj (d : Pgdir) : Prop :=
  ∀ {j k p q}, j < USERPAGES → k < USERPAGES → d.entry j = some p → d.entry k = some q →
    p.frame = q.frame → j = k

/-- The address is mapped for the user. -/
def Pgdir.UserAt (d : Pgdir) (va : ℕ) : Prop :=
  ∃ p, d.entry (va / PGSIZE) = some p ∧ p.user = true

theorem page_lt {a : ℕ} (h : a < KERNBASE) : a / PGSIZE < USERPAGES := by
  simp only [USERPAGES, KERNBASE, PGSIZE] at *
  omega

/-- `uva2ka` of an address that is mapped for the user. -/
theorem uva2ka_user {va : ℕ} {p : Pte} (hva : va < KERNBASE) (hp : d.entry (va / PGSIZE) = some p)
    (hu : p.user = true) : uva2ka cur d m (pgrounddown va) = .ok (some p.frame) := by
  have hk : va / PGSIZE < NPAGES := by
    simp only [NPAGES, KERNBASE, PGSIZE] at *
    omega
  rw [uva2ka, pgrounddown, walkpgdir_page hk, if_pos (hasTable_of_entry hp), hp]
  simp only [hu, if_true]

/-- A write to a page, seen at an address of this page. -/
theorem load_write_page {a b n : ℕ} {p : Pte} (m : Phys) (src : ℕ → UInt8)
    (hpage : a / PGSIZE = b / PGSIZE) (hp : d.entry (b / PGSIZE) = some p) :
    load d (m.write p.frame (b % PGSIZE) n src) a =
      if b ≤ a ∧ a < b + n then some (src (a - b)) else load d m a := by
  have hda := Nat.div_add_mod a PGSIZE
  have hdb := Nat.div_add_mod b PGSIZE
  rw [load, load, hpage, hp, Option.map_some, Option.map_some, byte_write]
  rw [hpage] at hda
  have hcond : (p.frame = p.frame ∧ b % PGSIZE ≤ a % PGSIZE ∧ a % PGSIZE < b % PGSIZE + n) ↔
      b ≤ a ∧ a < b + n := by omega
  rw [if_congr hcond rfl rfl]
  split_ifs with h
  · congr 2
    omega
  · rfl

/-- A write to one page, seen through the directory. -/
theorem load_write {a b n : ℕ} {p : Pte} (m : Phys) (src : ℕ → UInt8) (hinj : d.Inj)
    (ha : a < KERNBASE) (hb : b < KERNBASE) (hp : d.entry (b / PGSIZE) = some p)
    (hn : b % PGSIZE + n ≤ PGSIZE) :
    load d (m.write p.frame (b % PGSIZE) n src) a =
      if b ≤ a ∧ a < b + n then some (src (a - b)) else load d m a := by
  by_cases hpage : a / PGSIZE = b / PGSIZE
  · exact load_write_page m src hpage hp
  · have hcond : ¬ (b ≤ a ∧ a < b + n) := by
      rintro ⟨h1, h2⟩
      refine hpage ?_
      have hpos : 0 < PGSIZE := by decide
      rw [Nat.div_eq_iff hpos]
      simp only [PGSIZE] at *
      omega
    rw [if_neg hcond, load, load]
    cases hq : d.entry (a / PGSIZE) with
    | none => rfl
    | some q =>
      rw [Option.map_some, Option.map_some, byte_write, if_neg]
      exact fun h => hpage (hinj (page_lt ha) (page_lt hb) hq hp h.1)

theorem copyLoop_nil (fuel i va : ℕ) : copyLoop cur d buf fuel i va 0 m = .ok (true, m) := by
  cases fuel <;> rfl

/-- **The loop of `copyout`** over addresses that are mapped for the user. -/
theorem copyLoop_spec (cur : Pgdir) (m : Phys) (fuel i va len : ℕ) (hinj : d.Inj)
    (hfuel : len ≤ fuel) (hend : va + len ≤ KERNBASE)
    (huser : ∀ a, va ≤ a → a < va + len → d.UserAt a)
    (hbuf : ∀ j < len, (buf (i + j)).isSome = true) :
    ∃ m', copyLoop cur d buf fuel i va len m = .ok (true, m') ∧ m'.free = m.free ∧
      ∀ a < KERNBASE, load d m' a =
        if va ≤ a ∧ a < va + len then buf (i + (a - va)) else load d m a := by
  induction fuel generalizing i va len m with
  | zero => exact ⟨m, rfl, rfl, fun a _ => by rw [if_neg (by omega)]⟩
  | succ fuel ih =>
    rw [copyLoop]
    by_cases h0 : len = 0
    · exact ⟨m, if_pos h0, rfl, fun a _ => by rw [if_neg (by omega)]⟩
    · obtain ⟨p, hp, hu⟩ := huser va (Nat.le_refl va) (by omega)
      have hva : va < KERNBASE := by omega
      have hmod : va - pgrounddown va = va % PGSIZE := by
        simp only [pgrounddown, PGSIZE]
        omega
      have hn : min (PGSIZE - va % PGSIZE) len ≤ len ∧ 0 < min (PGSIZE - va % PGSIZE) len ∧
          va % PGSIZE + min (PGSIZE - va % PGSIZE) len ≤ PGSIZE ∧
          (min (PGSIZE - va % PGSIZE) len < len →
            (pgrounddown va + PGSIZE) % 2 ^ 32 = va + min (PGSIZE - va % PGSIZE) len) := by
        simp only [PGSIZE, pgrounddown, KERNBASE] at *
        omega
      obtain ⟨hle, hpos, hpg, hnext⟩ := hn
      rw [if_neg h0]
      simp only [uva2ka_user hva hp hu, hmod]
      have hall : ((List.range (min (PGSIZE - va % PGSIZE) len)).all fun j =>
          (buf (i + j)).isSome) = true := by
        rw [List.all_eq_true]
        exact fun j hj => hbuf j ((List.mem_range.mp hj).trans_le hle)
      rw [if_pos hall]
      -- what the write of this round does
      have hload := fun a ha => load_write (a := a) m (fun j => (buf (i + j)).getD 0) hinj ha hva
        hp hpg
      have hget : ∀ j < len, some ((buf (i + j)).getD 0) = buf (i + j) := by
        intro j hj
        obtain ⟨b, hb⟩ := Option.isSome_iff_exists.mp (hbuf j hj)
        rw [hb, Option.getD_some]
      by_cases hlast : min (PGSIZE - va % PGSIZE) len = len
      · rw [hlast, Nat.sub_self, copyLoop_nil]
        refine ⟨_, rfl, rfl, fun a ha => ?_⟩
        rw [hlast] at hload
        rw [hload a ha]
        split_ifs with h
        · exact hget _ (by omega)
        · rfl
      · rw [hnext (by omega)]
        obtain ⟨m', hrun, hfree, hm'⟩ := ih (m.write p.frame (va % PGSIZE)
            (min (PGSIZE - va % PGSIZE) len) fun j => (buf (i + j)).getD 0)
          (i + min (PGSIZE - va % PGSIZE) len) (va + min (PGSIZE - va % PGSIZE) len)
          (len - min (PGSIZE - va % PGSIZE) len)
          (by omega) (by omega) (fun a h1 h2 => huser a (by omega) (by omega)) fun j hj => by
            rw [Nat.add_assoc]
            exact hbuf _ (by omega)
        refine ⟨m', hrun, hfree, fun a ha => ?_⟩
        rw [hm' a ha, hload a ha]
        by_cases h1 : va ≤ a ∧ a < va + min (PGSIZE - va % PGSIZE) len
        · rw [if_neg (by omega), if_pos h1, if_pos (by omega)]
          exact hget _ (by omega)
        · by_cases h2 : va ≤ a ∧ a < va + len
          · rw [if_pos (by omega), if_pos h2]
            congr 1
            omega
          · rw [if_neg (by omega), if_neg h1, if_neg h2]

/-- **`copyout`** to addresses that are mapped for the user: these bytes become those of the buffer
and no others change. -/
theorem copyout_spec (cur : Pgdir) (m : Phys) (va : ℕ) (buf : ℕ → Option UInt8) (len : ℕ)
    (hinj : d.Inj) (hend : va + len ≤ KERNBASE)
    (huser : ∀ a, va ≤ a → a < va + len → d.UserAt a) (hbuf : ∀ j < len, (buf j).isSome = true) :
    ∃ m', copyout cur d m va buf len = .ok (true, m') ∧ m'.free = m.free ∧
      ∀ a < KERNBASE, load d m' a = if va ≤ a ∧ a < va + len then buf (a - va) else load d m a := by
  have := copyLoop_spec cur m len 0 va len hinj (Nat.le_refl len) hend huser
    fun j hj => by rw [Nat.zero_add]; exact hbuf j hj
  simp only [Nat.zero_add] at this
  exact this

/-- The word that four bytes make. -/
theorem loadWord_eq {va w : ℕ} (hw : w < 2 ^ 32)
    (h : ∀ i < 4, load d m (va + i) = some (wordByte w i)) : loadWord d m va = some w := by
  have h0 := h 0 (by decide)
  rw [Nat.add_zero] at h0
  rw [loadWord, h0, h 1 (by decide), h 2 (by decide), h 3 (by decide)]
  simp only [wordByte, UInt8.toNat_ofNat', Nat.reduceMul, Nat.reducePow, Nat.div_one,
    Option.some.injEq]
  omega

end Copy

end Xv6.Vmem
