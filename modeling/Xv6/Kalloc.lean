import Xv6.LinkedQueue
import Xv6.Transition

/-!
# The Page Allocator

`kalloc` and `kfree` (`kalloc.c`). The free pages are linked through their own first words, and
the others are written to at any time. `kfree` fills the page before it acquires the lock, so that
other calls come in between. At first `freerange` has all the pages.

`kfree` takes any page between `end` and `PHYSTOP`, and does not notice one that is free already.
That only who has a page writes to it and frees it is up to the rest of the kernel (`OwnPages`).

## Main results

* `kalloc_fresh`: **`kalloc` returns a page that nobody has**, as long as the others keep to that.
* `kalloc_used`: after two calls of `kfree` for one page it returns a page that somebody has.
-/

open Transition
open Function (update update_apply update_self)

namespace Xv6.Kalloc

/-- The test of `kfree`: a page between `end` and `PHYSTOP`. -/
def isPage (fin v : ℕ) : Bool :=
  v % 4096 = 0 ∧ fin ≤ v ∧ (v + (2 ^ 32 - 0x80000000)) % 2 ^ 32 < 0xE000000

/-- Ghost: what becomes of a page. -/
inductive Status
  | free
  | used
  /-- `kfree` has filled it -/
  | filled

/-- The allocator and the memory. -/
structure State where
  freelist : Option ℕ
  /-- the first words of the pages, as pointers -/
  next : ℕ → Option ℕ
  /-- the pages of the calls of `kfree` that are about to acquire the lock -/
  calls : List ℕ
  /-- ghost: the pages of the allocator -/
  status : ℕ → Option Status

namespace State

variable (s : State)

/-- `kfree(v)` up to its critical section; `none` if it panics. -/
def fill (fin v : ℕ) : Option State :=
  if isPage fin v then
    some ⟨s.freelist, update s.next v (some 0x01010101), v :: s.calls,
      update s.status v (some .filled)⟩
  else none

/-- The critical section of `kfree(v)`. -/
def link (v : ℕ) : State :=
  ⟨some v, update s.next v s.freelist, s.calls.erase v, update s.status v (some .free)⟩

/-- `kalloc()`. -/
def kalloc : Option ℕ × State :=
  match s.freelist with
  | none => (none, s)
  | some r => (some r, ⟨s.next r, s.next, s.calls, update s.status r (some .used)⟩)

end State

/-- The steps: the first word of a page is assigned, and the two parts of `kfree`, and `kalloc`. -/
inductive Act
  | write (v : ℕ) (w : Option ℕ)
  | fill (v : ℕ)
  | link (v : ℕ)
  | kalloc

/-- The runs, from a state in which `freerange` has all pages. -/
def system (fin : ℕ) : System State Act where
  init s := s.freelist = none ∧ s.calls = [] ∧
    ∀ v st, s.status v = some st → st = .used ∧ isPage fin v
  step s l t :=
    match l with
    | .write v w => t = { s with next := update s.next v w }
    | .fill v => s.fill fin v = some t
    | .link v => v ∈ s.calls ∧ t = s.link v
    | .kalloc => t = s.kalloc.2

/-- A page that is written to, or freed, is in use. -/
def OwnPages (s : State) : Act → Prop
  | .write v _ => s.status v = some .used
  | .fill v => s.status v = some .used
  | _ => True

/-- **The invariant**: the free pages are in the list, and each call of `kfree` has its own page. -/
structure Inv (fin : ℕ) (s : State) (xs : List ℕ) : Prop where
  holds : LinkedQueue.Holds ⟨s.freelist, s.next⟩ xs
  free : ∀ v, v ∈ xs ↔ s.status v = some .free
  page : ∀ v st, s.status v = some st → isPage fin v
  nodup : s.calls.Nodup
  filled : ∀ v, v ∈ s.calls ↔ s.status v = some .filled

variable {fin : ℕ} {s t : State} {xs : List ℕ}

/-- **One step keeps the invariant.** -/
theorem Inv.step {l : Act} (h : Inv fin s xs) (hstep : (system fin).step s l t)
    (hown : OwnPages s l) : ∃ ys, Inv fin t ys := by
  obtain ⟨⟨hnodup, hpath⟩, hfree, hpage, hcalls, hfilled⟩ := h
  cases l with
  | write v w =>
    obtain rfl := hstep
    refine ⟨xs, ⟨hnodup, hpath.congr fun x hx => ?_⟩, hfree, hpage, hcalls, hfilled⟩
    simp only [update_apply]
    grind [OwnPages]
  | fill v =>
    simp only [system, State.fill] at hstep
    split_ifs at hstep
    cases hstep
    refine ⟨xs, ⟨hnodup, hpath.congr fun x hx => ?_⟩, ?_, ?_, ?_, ?_⟩ <;>
      simp only [update_apply] <;> grind [OwnPages]
  | link v =>
    obtain ⟨hmem, rfl⟩ := hstep
    refine ⟨v :: xs, ⟨by grind, rfl, ?_⟩, ?_, ?_, hcalls.erase v, ?_⟩ <;>
      simp only [State.link, update_self]
    · refine hpath.congr fun x hx => ?_
      simp only [update_apply]
      grind
    all_goals simp only [update_apply]; grind [List.Nodup.mem_erase_iff]
  | kalloc =>
    obtain rfl := hstep
    rw [State.kalloc]
    split
    case h_1 => exact ⟨xs, ⟨hnodup, hpath⟩, hfree, hpage, hcalls, hfilled⟩
    case h_2 r hr =>
      cases xs with
      | nil => exact absurd (hr.symm.trans hpath) nofun
      | cons x xs =>
        obtain rfl : r = x := Option.some.inj (hr.symm.trans hpath.1)
        refine ⟨xs, LinkedQueue.Holds.pop ⟨hnodup, hpath⟩, ?_, ?_, hcalls, ?_⟩ <;>
          simp only [update_apply] <;> grind

/-- **`kalloc` returns a page that nobody has.** In every state of every run in which pages are
written to and freed while they are in use, it fails exactly when no page is free, and otherwise
returns a free page. `kfree` does not panic for a page in use. -/
theorem kalloc_fresh (h : ((system fin).restrict OwnPages).Reachable s) :
    (s.kalloc.1 = none ↔ ∀ v, s.status v ≠ some .free) ∧
      (∀ v, s.kalloc.1 = some v → s.status v = some .free) ∧
      ∀ v, s.status v = some .used → (s.fill fin v).isSome := by
  obtain ⟨xs, hi⟩ : ∃ xs, Inv fin s xs := by
    refine h.invariant (I := fun s => ∃ xs, Inv fin s xs) ?_ ?_
    · rintro s ⟨hlist, hcalls, hused⟩
      refine ⟨[], LinkedQueue.holds_nil hlist, fun v => ⟨nofun, fun hv => ?_⟩,
        fun v st hv => (hused v st hv).2, hcalls ▸ List.nodup_nil, fun v => ?_⟩
      · cases (hused v _ hv).1
      · rw [hcalls]
        exact ⟨nofun, fun hv => by cases (hused v _ hv).1⟩
    · rintro _ _ _ ⟨_, hs⟩ ⟨hstep, hown⟩
      exact hs.step hstep hown
  have hhead : s.kalloc.1 = xs.head? := by
    rw [← hi.holds.head_eq, State.kalloc]
    cases s.freelist <;> rfl
  rw [hhead]
  refine ⟨?_, fun v hv => (hi.free v).mp (List.mem_of_mem_head? hv), fun v hv => ?_⟩
  · rw [List.head?_eq_none_iff, List.eq_nil_iff_forall_not_mem]
    exact forall_congr' fun v => not_congr (hi.free v)
  · rw [State.fill, if_pos (hi.page v _ hv)]
    rfl

/-- One page, which `freerange` has. -/
def onePage : State := ⟨none, some, [], fun v => if v = 0x80400000 then some .used else none⟩

theorem init_onePage : (system 0x80100000).init onePage := by
  refine ⟨rfl, rfl, fun v st hv => ?_⟩
  obtain ⟨rfl, rfl⟩ : v = 0x80400000 ∧ .used = st := by simpa [onePage] using hv
  exact ⟨rfl, rfl⟩

/-- A page that has been freed is returned again. -/
theorem kalloc_fresh_reused : ∃ s, ((system 0x80100000).restrict OwnPages).Reachable s ∧
    s.kalloc.1 = some 0x80400000 ∧ s.status 0x80400000 = some .free := by
  have h₀ : ((system 0x80100000).restrict OwnPages).Reachable onePage := .init init_onePage
  have h₁ := h₀.step (l := Act.fill 0x80400000) ⟨rfl, rfl⟩
  have h₂ := h₁.step (l := Act.link 0x80400000) ⟨⟨List.mem_cons_self, rfl⟩, trivial⟩
  exact ⟨_, h₂, rfl, (kalloc_fresh h₂).2.1 _ rfl⟩

/-- **A page that is freed twice is handed out twice**: nothing in `kfree` prevents it. -/
theorem kalloc_used : ∃ s, (system 0x80100000).Reachable s ∧
    s.kalloc.1 = some 0x80400000 ∧ s.status 0x80400000 = some .used := by
  have h₀ : (system 0x80100000).Reachable onePage := .init init_onePage
  have h₁ := h₀.step (l := Act.fill 0x80400000) rfl
  have h₂ := h₁.step (l := Act.link 0x80400000) ⟨List.mem_cons_self, rfl⟩
  have h₃ := h₂.step (l := Act.fill 0x80400000) rfl
  have h₄ := h₃.step (l := Act.link 0x80400000) ⟨List.mem_cons_self, rfl⟩
  exact ⟨_, h₄.step (l := Act.kalloc) rfl, rfl, rfl⟩

end Xv6.Kalloc
