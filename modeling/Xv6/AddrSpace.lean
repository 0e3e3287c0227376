import Xv6.Growproc
import Xv6.Ptable

/-!
# Sizes of Address Spaces

`thread_create` gives the new process the page directory of its maker and a copy of its size. From
then on `growproc` maps and unmaps pages in the shared directory but changes the size of the caller
only. So after a call of `sbrk` by one of them the other works with a size that is not that of the
directory: it maps pages that are mapped (`sbrk_remap`) or copies pages that are not there.

Two more cases leave a directory that does not fit the size of the process, also without threads:
`growproc` takes the new size 0 for a failure after it has unmapped everything, and `allocuvm` does
not look at the result of `mappages`.

Every call is one step. The first process has any size, as `userinit` or an earlier `exec` left it.

## Main results

* `sbrk_remap`: a thread calls `sbrk` after another one did, and `mappages` panics.
* `sbrk_to_zero`, `sbrk_no_table`: the two other cases.
* `growproc_bits`: `growproc` is that of `Xv6.Growproc`, less the physical pages.
* `sizes_agree`: **in every run in which a process changes its size only while it shares its
  directory with nobody, does not give up all of it, and gets the page tables it needs, the
  directories fit the sizes** and no call panics.
-/

open Transition Transition.System
open Function (update update_of_ne update_self)

namespace Xv6.AddrSpace

open Ptable (ProcState)
open Vm

/-- `struct proc`, less the fields that do not concern the address space. -/
structure Proc where
  state : ProcState
  sz : ℕ
  /-- the page of the page directory -/
  pgdir : ℕ

/-- The process exists and has not exited. -/
def Proc.Live (v : Proc) : Prop := v.state ≠ .unused ∧ v.state ≠ .zombie

instance (v : Proc) : Decidable v.Live := inferInstanceAs (Decidable (_ ∧ _))

/-- The process table and the page directories. -/
structure State (n : ℕ) where
  proc : Fin n → Proc
  dir : ℕ → Pgdir
  initproc : Fin n

/-- The system calls. The answers of `kalloc` are arguments: for the kernel stack, for `setupkvm`,
for each page and each page table, and the page `d` that it returns for a new directory. -/
inductive Call
  | sbrk (k : ℤ) (page table : ℕ → Bool)
  | fork (kstack kvm : Bool) (page table : ℕ → Bool) (d : ℕ)
  | threadCreate (kstack : Bool)
  | exit

section Model

variable {n : ℕ}

namespace State

/-- Change a slot. -/
def setProc (s : State n) (p : Fin n) (v : Proc) : State n :=
  { s with proc := update s.proc p v }

/-- Change a page directory. -/
def setDir (s : State n) (i : ℕ) (d : Pgdir) : State n :=
  { s with dir := update s.dir i d }

/-- `allocproc()`: the first free slot. -/
def allocproc (s : State n) (kstack : Bool) : Option (Fin n) :=
  match (List.finRange n).find? fun q => (s.proc q).state = .unused with
  | some np => if kstack then some np else none
  | none => none

/-- The end of `growproc`, with what `allocuvm` or `deallocuvm` returned. -/
def setSize (s : State n) (p : Fin n) (sz : ℕ) (d : Pgdir) : State n :=
  let s := s.setDir (s.proc p).pgdir d
  if sz = 0 then s else s.setProc p { s.proc p with sz := sz }

/-- `growproc(k)`, called by `sbrk`. The new size is a sum of unsigned integers. -/
def growproc (s : State n) (p : Fin n) (k : ℤ) (page table : ℕ → Bool) :
    Except Vm.Panic (State n) :=
  let sz := (s.proc p).sz
  let d := s.dir (s.proc p).pgdir
  let newsz := ((sz + k) % 2 ^ 32).toNat
  if k > 0 then
    match allocuvm page table d sz newsz with
    | .error e => .error e
    | .ok (sz, d) => .ok (s.setSize p sz d)
  else if k < 0 then
    let (sz, d) := deallocuvm d sz newsz
    .ok (s.setSize p sz d)
  else .ok s

/-- `fork()`. -/
def fork (s : State n) (p : Fin n) (kstack kvm : Bool) (page table : ℕ → Bool) (d : ℕ) :
    Except Vm.Panic (State n) :=
  match s.allocproc kstack with
  | none => .ok s
  | some np =>
    match copyuvm kvm page table (s.dir (s.proc p).pgdir) (s.proc p).sz with
    | .error e => .error e
    | .ok none => .ok (s.setProc np { s.proc np with pgdir := 0 })
    | .ok (some pgdir) => .ok ((s.setDir d pgdir).setProc np ⟨.runnable, (s.proc p).sz, d⟩)

/-- `thread_create()`. -/
def threadCreate (s : State n) (p : Fin n) (kstack : Bool) : State n :=
  match s.allocproc kstack with
  | none => s
  | some np => s.setProc np ⟨.runnable, (s.proc p).sz, (s.proc p).pgdir⟩

/-- A call by process `p`. -/
def run (s : State n) (p : Fin n) : Call → Except Vm.Panic (State n)
  | .sbrk k page table => s.growproc p k page table
  | .fork kstack kvm page table d => s.fork p kstack kvm page table d
  | .threadCreate kstack => .ok (s.threadCreate p kstack)
  | .exit => .ok (s.setProc p { s.proc p with state := .zombie })

/-- The calls that can happen: a live process calls, the argument of `sbrk` is an `int`, `kalloc`
returns a page that no process uses, and `init` does not exit. -/
def Enabled (s : State n) (p : Fin n) (c : Call) : Prop :=
  (s.proc p).Live ∧
    match c with
    | .sbrk k _ _ => -2 ^ 31 ≤ k ∧ k < 2 ^ 31
    | .fork _ _ _ _ d => ∀ q, (s.proc q).state ≠ .unused → (s.proc q).pgdir ≠ d
    | .threadCreate _ => True
    | .exit => p ≠ s.initproc

end State

/-- The runs, from a first process that has exactly its pages. -/
def system (n : ℕ) : System (State n) (Fin n × Call) where
  init s := (∀ q, q ≠ s.initproc → (s.proc q).state = .unused) ∧ (s.proc s.initproc).Live ∧
    0 < (s.proc s.initproc).sz ∧ (s.proc s.initproc).sz < KERNBASE ∧
    Maps (s.dir (s.proc s.initproc).pgdir) (pages (s.proc s.initproc).sz)
  step s a t := s.Enabled a.1 a.2 ∧ s.run a.1 a.2 = .ok t

/-- **The directories fit the sizes**: live processes with one page directory have the same size,
and the directory of a live process maps the pages below its size, rounded up, and no others. -/
def State.Agree (s : State n) : Prop :=
  (∀ p q, (s.proc p).Live → (s.proc q).Live → (s.proc p).pgdir = (s.proc q).pgdir →
    (s.proc p).sz = (s.proc q).sz) ∧
  ∀ p, (s.proc p).Live → ∀ k < USERPAGES,
    ((s.dir (s.proc p).pgdir).present k = true ↔ k * PGSIZE < pgroundup (s.proc p).sz)

/-- No other live process has the directory of `p`. -/
def State.Alone (s : State n) (p : Fin n) : Prop :=
  ∀ q, q ≠ p → (s.proc q).Live → (s.proc q).pgdir ≠ (s.proc p).pgdir

/-- A call of `sbrk` that changes the size is by a process that is alone, leaves it something, and
finds the page tables it needs. -/
def Ordered (s : State n) : Fin n × Call → Prop
  | (p, .sbrk k _ table) =>
    k ≠ 0 → s.Alone p ∧ (s.proc p).sz + k ≠ 0 ∧ ∀ a, table a = true
  | _ => True

/-! ### Physical pages -/

section Bits

variable {s : State n} {p : Fin n}

theorem setProc_self (s : State n) (p : Fin n) : s.setProc p (s.proc p) = s := by
  rw [State.setProc, Function.update_eq_self]

/-- **`sbrk` with physical pages** does to the size and the bits `PTE_P` what `sbrk` does here. -/
theorem growproc_bits {K : Vmem.Link} {page table : ℕ → Option ℕ} {d d' : Vmem.Pgdir}
    {m m' : Vmem.Phys} {v : BitVec 32} {ok : Bool} {sz : ℕ}
    (hd : s.dir (s.proc p).pgdir = d.bits)
    (hrun : Vmem.growproc K page table d m (s.proc p).sz v = .ok (ok, sz, d', m')) :
    s.growproc p v.toInt (fun a => (page a).isSome) (fun a => (table a).isSome) =
      .ok ((s.setDir (s.proc p).pgdir d'.bits).setProc p { s.proc p with sz := sz }) := by
  have hend (sz' : ℕ) (d'' : Vmem.Pgdir) (m'' : Vmem.Phys)
      (hok : (if sz' = 0 then .ok (false, (s.proc p).sz, d'', m'') else .ok (true, sz', d'', m'')) =
        (Except.ok (ok, sz, d', m') : Except Vmem.Panic _)) :
      s.setSize p sz' d''.bits =
        (s.setDir (s.proc p).pgdir d'.bits).setProc p { s.proc p with sz := sz } := by
    rw [State.setSize]
    split_ifs at hok ⊢
    · cases hok
      exact (setProc_self (s.setDir (s.proc p).pgdir d'.bits) p).symm
    · cases hok
      rfl
  rw [Vmem.growproc] at hrun
  rw [State.growproc]
  simp only at hrun ⊢
  split_ifs at hrun ⊢
  · cases halloc : Vmem.allocuvm K page table d m (s.proc p).sz
      ((((s.proc p).sz : ℤ) + v.toInt) % 2 ^ 32).toNat with
    | error e =>
      rw [halloc] at hrun
      cases hrun
    | ok x =>
      rw [halloc] at hrun
      rw [hd, Vmem.allocuvm_bits halloc]
      exact congrArg _ (hend _ _ _ hrun)
  · cases hdealloc : Vmem.deallocuvm K d m (s.proc p).sz
      ((((s.proc p).sz : ℤ) + v.toInt) % 2 ^ 32).toNat with
    | error e =>
      rw [hdealloc] at hrun
      cases hrun
    | ok x =>
      rw [hdealloc] at hrun
      rw [hd, Vmem.deallocuvm_bits hdealloc]
      exact congrArg _ (hend _ _ _ hrun)
  · cases hrun
    rw [State.setDir, ← hd, Function.update_eq_self]
    exact congrArg _ (setProc_self s p).symm

end Bits

/-! ### The invariant -/

/-- **The invariant** of the runs that keep the condition. -/
structure Inv (s : State n) : Prop where
  same : ∀ p q, (s.proc p).Live → (s.proc q).Live → (s.proc p).pgdir = (s.proc q).pgdir →
    (s.proc p).sz = (s.proc q).sz
  pos : ∀ p, (s.proc p).Live → 0 < (s.proc p).sz
  lt : ∀ p, (s.proc p).Live → (s.proc p).sz < KERNBASE
  maps : ∀ p, (s.proc p).Live → Maps (s.dir (s.proc p).pgdir) (pages (s.proc p).sz)

variable {s t : State n} {p q : Fin n} {v : Proc} {page table : ℕ → Bool}

theorem Inv.agree (h : Inv s) : s.Agree := by
  refine ⟨h.same, fun p hp k hk => ?_⟩
  rw [pgroundup_eq (h.lt p hp).le, h.maps p hp k hk, decide_eq_true_eq]
  exact ⟨fun hlt => Nat.mul_lt_mul_of_pos_right hlt (by decide), lt_of_mul_lt_mul_right'⟩

/-- A new or changed slot whose size fits its directory, and agrees with those that share it. -/
theorem Inv.setProc (h : Inv s) (hproc : t.proc = update s.proc p v)
    (hdir : ∀ q, q ≠ p → (s.proc q).Live → t.dir (s.proc q).pgdir = s.dir (s.proc q).pgdir)
    (hsame : v.Live → ∀ q, q ≠ p → (s.proc q).Live → (s.proc q).pgdir = v.pgdir →
      (s.proc q).sz = v.sz)
    (hpos : v.Live → 0 < v.sz) (hlt : v.Live → v.sz < KERNBASE)
    (hmaps : v.Live → Maps (t.dir v.pgdir) (pages v.sz)) : Inv t := by
  have hself : t.proc p = v := by rw [hproc, update_self]
  have hother (q : Fin n) (hq : q ≠ p) : t.proc q = s.proc q := by
    rw [hproc, update_of_ne hq]
  constructor
  case same =>
    intro q r hq hr hpg
    by_cases hqp : q = p <;> by_cases hrp : r = p
    · rw [hqp, hrp]
    · rw [hqp, hself] at hq hpg ⊢
      rw [hother r hrp] at hr hpg ⊢
      exact (hsame hq r hrp hr hpg.symm).symm
    · rw [hrp, hself] at hr hpg ⊢
      rw [hother q hqp] at hq hpg ⊢
      exact hsame hr q hqp hq hpg
    · rw [hother q hqp] at hq hpg ⊢
      rw [hother r hrp] at hr hpg ⊢
      exact h.same q r hq hr hpg
  case pos =>
    intro q hq
    by_cases hqp : q = p
    · rw [hqp, hself] at hq ⊢
      exact hpos hq
    · rw [hother q hqp] at hq ⊢
      exact h.pos q hq
  case lt =>
    intro q hq
    by_cases hqp : q = p
    · rw [hqp, hself] at hq ⊢
      exact hlt hq
    · rw [hother q hqp] at hq ⊢
      exact h.lt q hq
  case maps =>
    intro q hq
    by_cases hqp : q = p
    · rw [hqp, hself] at hq ⊢
      exact hmaps hq
    · rw [hother q hqp] at hq ⊢
      rw [hdir q hqp hq]
      exact h.maps q hq

/-! ### The calls -/

/-- `allocproc` returns a free slot. -/
theorem allocproc_unused {kstack : Bool} {np : Fin n} (h : s.allocproc kstack = some np) :
    (s.proc np).state = .unused := by
  rw [State.allocproc] at h
  split at h
  · rename_i np' hfind
    split_ifs at h
    cases h
    simpa using List.find?_some hfind
  · cases h

/-- A slot that is not live may hold anything. -/
theorem Inv.drop (h : Inv s) (hproc : t.proc = update s.proc p v) (hdir : t.dir = s.dir)
    (hv : ¬ v.Live) : Inv t :=
  h.setProc hproc (fun _ _ _ => by rw [hdir]) (fun h => absurd h hv) (fun h => absurd h hv)
    (fun h => absurd h hv) fun h => absurd h hv

/-- `thread_create` gives the thread the size of its maker. -/
theorem inv_threadCreate (h : Inv s) (hp : (s.proc p).Live) (kstack : Bool) :
    Inv (s.threadCreate p kstack) := by
  rw [State.threadCreate]
  split
  · exact h
  · exact h.setProc rfl (fun _ _ _ => rfl) (fun _ q _ hq hpg => h.same q p hq hp hpg)
      (fun _ => h.pos p hp) (fun _ => h.lt p hp) fun _ => h.maps p hp

/-- `fork` does not panic when the directory of the caller fits its size. -/
theorem inv_fork (h : Inv s) (hp : (s.proc p).Live) {kstack kvm : Bool} {d : ℕ}
    (hd : ∀ q, (s.proc q).state ≠ .unused → (s.proc q).pgdir ≠ d) :
    ∃ t, s.fork p kstack kvm page table d = .ok t ∧ Inv t := by
  rw [State.fork]
  split
  · exact ⟨s, rfl, h⟩
  · rename_i np hnp
    have hun := allocproc_unused hnp
    obtain ⟨r, hcopy, hmaps⟩ : ∃ r, copyuvm kvm page table (s.dir (s.proc p).pgdir) (s.proc p).sz =
        .ok r ∧ _ := copyuvm_maps (h.lt p hp).le (h.maps p hp)
    rw [hcopy]
    cases r with
    | none => exact ⟨_, rfl, h.drop rfl rfl fun hl => hl.1 hun⟩
    | some pgdir =>
      refine ⟨_, rfl, h.setProc rfl (fun q _ hq => update_of_ne (hd q hq.1) _ _)
        (fun _ q _ hq hpg => absurd hpg (hd q hq.1)) (fun _ => h.pos p hp) (fun _ => h.lt p hp)
        fun _ => ?_⟩
      change Maps (update s.dir d pgdir d) _
      rw [update_self]
      exact hmaps pgdir rfl

/-- The end of `growproc`, for a process that shares its directory with nobody. -/
theorem Inv.setSize {sz : ℕ} {d : Pgdir} (h : Inv s) (hp : (s.proc p).Live) (hal : s.Alone p)
    (hlt : sz < KERNBASE) (hm : Maps d (pages (if sz = 0 then (s.proc p).sz else sz))) :
    Inv (s.setSize p sz d) := by
  have hset (v : ℕ) (hpos : 0 < v) (hv : v < KERNBASE) (hmv : Maps d (pages v)) :
      Inv ((s.setDir (s.proc p).pgdir d).setProc p { s.proc p with sz := v }) := by
    refine h.setProc rfl (fun q hq hl => update_of_ne (hal q hq hl) _ _)
      (fun _ q hq hl hpg => absurd hpg (hal q hq hl)) (fun _ => hpos) (fun _ => hv) fun _ => ?_
    change Maps (update s.dir (s.proc p).pgdir d (s.proc p).pgdir) _
    rwa [update_self]
  rw [State.setSize]
  split_ifs at hm ⊢ with h0
  · have hsame : (s.setDir (s.proc p).pgdir d).setProc p { s.proc p with sz := (s.proc p).sz } =
        s.setDir (s.proc p).pgdir d := by
      rw [State.setProc, State.setDir]
      simp
    rw [← hsame]
    exact hset _ (h.pos p hp) (h.lt p hp) hm
  · exact hset sz (Nat.pos_of_ne_zero h0) hlt hm

/-- The size after a shrinking `sbrk`: the sum, or a value above every size. -/
theorem newsz_shrink {sz : ℕ} {k : ℤ} (hsz : sz < KERNBASE) (hk : -2 ^ 31 ≤ k) (hneg : k < 0) :
    (0 ≤ sz + k ∧ ((sz + k) % 2 ^ 32).toNat = sz + k) ∨
      (sz + k < 0 ∧ sz ≤ ((sz + k) % 2 ^ 32).toNat) := by
  simp only [KERNBASE] at hsz
  omega

theorem newsz_grow {sz : ℕ} {k : ℤ} (hsz : sz < KERNBASE) (hk : k < 2 ^ 31) (hpos : 0 < k) :
    sz ≤ ((sz + k) % 2 ^ 32).toNat ∧ (((sz + k) % 2 ^ 32).toNat : ℤ) = sz + k := by
  simp only [KERNBASE] at hsz
  omega

/-- `growproc` in the cases that the condition leaves. -/
theorem inv_growproc (h : Inv s) (hp : (s.proc p).Live) {k : ℤ} (hk : -2 ^ 31 ≤ k ∧ k < 2 ^ 31)
    (hord : Ordered s (p, .sbrk k page table)) (hrun : s.growproc p k page table = .ok t) :
    Inv t := by
  have hlt := h.lt p hp
  have hpos := h.pos p hp
  rw [State.growproc] at hrun
  simp only at hrun
  split_ifs at hrun with hgrow hshrink
  · obtain ⟨hal, -, htab⟩ := hord (by omega)
    obtain ⟨hle, hsum⟩ := newsz_grow hlt hk.2 hgrow
    obtain ⟨sz, d, halloc, hres⟩ : ∃ sz d, allocuvm page table (s.dir (s.proc p).pgdir)
        (s.proc p).sz (((s.proc p).sz + k) % 2 ^ 32).toNat = .ok (sz, d) ∧ _ :=
      allocuvm_maps hlt hle htab (h.maps p hp)
    rw [halloc] at hrun
    obtain rfl := Except.ok.inj hrun
    rcases hres with ⟨rfl, hnew, hm⟩ | ⟨rfl, hm⟩
    · refine h.setSize hp hal hnew ?_
      rwa [if_neg (by omega)]
    · exact h.setSize hp hal (by decide) hm
  · obtain ⟨hal, hne, -⟩ := hord (by omega)
    rcases newsz_shrink hlt hk.1 hshrink with ⟨hge, hsum⟩ | ⟨-, hwrap⟩
    · obtain ⟨d, hdealloc, hm⟩ := deallocuvm_maps hlt.le
        (show (((s.proc p).sz + k) % 2 ^ 32).toNat < (s.proc p).sz by omega) (h.maps p hp) le_rfl
      rw [hdealloc] at hrun
      obtain rfl := Except.ok.inj hrun
      refine h.setSize hp hal (by omega) ?_
      rw [if_neg (by omega)]
      rwa [Nat.min_eq_right (pages_mono (by omega))] at hm
    · rw [deallocuvm, if_pos hwrap] at hrun
      obtain rfl := Except.ok.inj hrun
      refine h.setSize hp hal hlt ?_
      rw [if_neg hpos.ne']
      exact h.maps p hp
  · obtain rfl := Except.ok.inj hrun
    exact h

/-- No call panics when the directories fit the sizes. -/
theorem Inv.run_ok {c : Call} (h : Inv s) (hen : s.Enabled p c) : ∃ t, s.run p c = .ok t := by
  obtain ⟨hp, hc⟩ := hen
  cases c with
  | sbrk k page table =>
    rw [State.run, State.growproc]
    simp only
    split_ifs
    · obtain ⟨r, hr⟩ : ∃ r, allocuvm page table (s.dir (s.proc p).pgdir) (s.proc p).sz
          (((s.proc p).sz + k) % 2 ^ 32).toNat = .ok r := allocuvm_ok (h.lt p hp) (h.maps p hp)
      rw [hr]
      exact ⟨_, rfl⟩
    · exact ⟨_, rfl⟩
    · exact ⟨_, rfl⟩
  | fork kstack kvm page table d =>
    obtain ⟨t, ht, -⟩ := inv_fork h hp hc
    exact ⟨t, ht⟩
  | threadCreate kstack => exact ⟨_, rfl⟩
  | exit => exact ⟨_, rfl⟩

/-- **Every call that meets the condition keeps the invariant.** -/
theorem inv_run {c : Call} (h : Inv s) (hen : s.Enabled p c) (hord : Ordered s (p, c))
    (hrun : s.run p c = .ok t) : Inv t := by
  obtain ⟨hp, hc⟩ := hen
  cases c with
  | sbrk k page table => exact inv_growproc h hp hc hord hrun
  | fork kstack kvm page table d =>
    obtain ⟨u, hu, hinv⟩ := inv_fork h hp hc
    obtain rfl := Except.ok.inj (hrun.symm.trans hu)
    exact hinv
  | threadCreate kstack =>
    obtain rfl := Except.ok.inj hrun
    exact inv_threadCreate h hp kstack
  | exit =>
    obtain rfl := Except.ok.inj hrun
    exact h.drop rfl rfl fun hl => hl.2 rfl

/-- The directory of the first process fits its size. -/
theorem inv_init (h : (system n).init s) : Inv s := by
  obtain ⟨hun, -, hpos, hlt, hmaps⟩ := h
  have honly (q : Fin n) (hq : (s.proc q).Live) : q = s.initproc := by
    by_contra hne
    exact hq.1 (hun q hne)
  refine ⟨fun p q hp hq _ => ?_, fun p hp => ?_, fun p hp => ?_, fun p hp => ?_⟩
  · rw [honly p hp, honly q hq]
  all_goals rwa [honly p hp]

/-- **In every run that keeps the condition, live processes with one page directory have one size,
the directory of each maps exactly its pages, and no call panics.** -/
theorem sizes_agree (h : ((system n).restrict Ordered).Reachable s) :
    s.Agree ∧ ∀ p c, s.Enabled p c → ∃ t, s.run p c = .ok t := by
  have hinv : Inv s := by
    refine h.invariant (I := Inv) ?_ ?_
    · intro _ h0
      exact inv_init h0
    · rintro s ⟨p, c⟩ t hs ⟨⟨hen, hrun⟩, hord⟩
      exact inv_run hs hen hord hrun
  exact ⟨hinv.agree, fun p c => hinv.run_ok⟩

/-! ### What the condition rules out -/

/-- A growth by one page is a call of `mappages`. -/
theorem growproc_one {k : ℕ} (hnew : (s.proc p).sz + k < KERNBASE)
    (hone : pages ((s.proc p).sz + k) = pages (s.proc p).sz + 1)
    (hpage : page (pages (s.proc p).sz * PGSIZE) = true) :
    s.growproc p k page table =
      (mappages (s.dir (s.proc p).pgdir) (pages (s.proc p).sz * PGSIZE) PGSIZE table).map
        fun r => s.setSize p ((s.proc p).sz + k) r.2 := by
  have hk : (k : ℤ) > 0 := by
    rcases Nat.eq_zero_or_pos k with rfl | hk
    · simp at hone
    · omega
  have hsum : (((s.proc p).sz + (k : ℤ)) % 2 ^ 32).toNat = (s.proc p).sz + k := by
    simp only [KERNBASE] at hnew
    omega
  rw [State.growproc]
  simp only
  rw [if_pos hk, hsum, allocuvm_one (by omega) hnew hone hpage]
  cases mappages (s.dir (s.proc p).pgdir) (pages (s.proc p).sz * PGSIZE) PGSIZE table <;> rfl

/-- **A process that gives up all of its memory** keeps its size, and no page is mapped: `growproc`
takes the new size 0 for a failure. -/
theorem growproc_to_zero (h : Inv s) (hp : (s.proc p).Live) (page table : ℕ → Bool) :
    ∃ d, s.growproc p (-(s.proc p).sz) page table = .ok (s.setDir (s.proc p).pgdir d) ∧
      Maps d 0 := by
  have hpos := h.pos p hp
  obtain ⟨d, hd, hmaps⟩ := deallocuvm_maps (h.lt p hp).le hpos (h.maps p hp) le_rfl
  have hzero : min (pages (s.proc p).sz) (pages 0) = 0 := Nat.min_zero _
  refine ⟨d, ?_, hzero ▸ hmaps⟩
  have hnew : (((s.proc p).sz + -((s.proc p).sz : ℤ)) % 2 ^ 32).toNat = 0 := by
    rw [add_neg_cancel]
    rfl
  rw [State.growproc]
  simp only [hnew]
  rw [if_neg (by omega), if_pos (by omega), hd]
  rfl

/-- A process whose pages are not mapped cannot be copied. -/
theorem fork_unmapped {np : Fin n} {d : ℕ} (hpos : 0 < (s.proc p).sz)
    (hmaps : Maps (s.dir (s.proc p).pgdir) 0) (hslot : s.allocproc true = some np) :
    ∃ e, s.fork p true true page table d = .error e := by
  have hno : (s.dir (s.proc p).pgdir).present 0 = false := hmaps 0 (by decide)
  have hlook := walkpgdir_look (s.dir (s.proc p).pgdir) 0
  rw [Nat.zero_mul, hno] at hlook
  simp only [State.fork, hslot, copyuvm, if_true]
  rw [copyLoop, if_pos hpos, hlook]
  cases (s.dir (s.proc p).pgdir).hasTable 0 with
  | true => exact ⟨.pageNotPresent, rfl⟩
  | false => exact ⟨.pteShouldExist, rfl⟩

/-- **Without a page for a page table the size grows, and the directory does not**: `allocuvm` does
not look at what `mappages` returns. -/
theorem growproc_no_table {k : ℕ} (hnew : (s.proc p).sz + k < KERNBASE)
    (hone : pages ((s.proc p).sz + k) = pages (s.proc p).sz + 1)
    (hpage : page (pages (s.proc p).sz * PGSIZE) = true)
    (htable : table (pages (s.proc p).sz * PGSIZE) = false)
    (hno : (s.dir (s.proc p).pgdir).hasTable (pages (s.proc p).sz) = false) :
    s.growproc p k page table =
      .ok (s.setSize p ((s.proc p).sz + k) (s.dir (s.proc p).pgdir)) := by
  have hlt : pages (s.proc p).sz < USERPAGES := by
    have := pages_le hnew.le
    omega
  rw [growproc_one hnew hone hpage]
  rcases mappages_page hlt table (s.dir (s.proc p).pgdir) with ⟨h, -⟩ | ⟨-, -, -, h⟩ | ⟨-, h, -⟩
  · rw [hasTable_of_present h] at hno
    cases hno
  · rw [h]
    rfl
  · rw [hno, htable] at h
    rcases h with h | h <;> cases h

end Model

/-- A first process with `N` pages; `userinit` leaves it one. -/
def userinit (N : ℕ) : State 2 where
  proc q := if q = 0 then ⟨.runnable, N * PGSIZE, 1⟩ else ⟨.unused, 0, 0⟩
  dir _ := ⟨fun i => if i = 0 then some fun j => decide (j < N) else none⟩
  initproc := 0

/-- The pages are below 4 MB, so that one page table is enough for them. -/
theorem init_userinit {N : ℕ} (hpos : 0 < N) (hN : N ≤ NPTENTRIES) :
    (system 2).init (userinit N) := by
  have hsz : ((userinit N).proc (userinit N).initproc).sz = N * PGSIZE := rfl
  have hpages : pages (N * PGSIZE) = N := by
    simp only [pages, PGSIZE]
    omega
  have hlive : ProcState.runnable ≠ .unused ∧ ProcState.runnable ≠ .zombie := by decide
  refine ⟨fun q hq => ?_, hlive, ?_, ?_, fun k hk => ?_⟩
  · simp only [userinit] at hq ⊢
    rw [if_neg hq]
  · rw [hsz]
    exact Nat.mul_pos hpos (by decide)
  · rw [hsz]
    simp only [NPTENTRIES, PGSIZE, KERNBASE] at hN ⊢
    omega
  · simp only [USERPAGES, KERNBASE, PGSIZE] at hk
    rw [hsz, hpages, Pgdir.present]
    simp only [userinit, pdx, ptx, PGSIZE, NPTENTRIES] at hN ⊢
    by_cases hlt : k < 1024
    · rw [if_pos (by omega)]
      exact decide_eq_decide.mpr (by omega)
    · rw [if_neg (by omega), decide_eq_false (by omega)]

theorem init_one : (system 2).init (userinit 1) := init_userinit (by decide) (by decide)

/-- The first process grows by a page, or makes a thread. -/
theorem sizes_agree_first :
    (∃ s, (userinit 1).run 0 (.sbrk 1 (fun _ => true) fun _ => true) = .ok s ∧
    ((system 2).restrict Ordered).Reachable s ∧ s.Agree) ∧
    ((system 2).restrict Ordered).Reachable ((userinit 1).threadCreate 0 true) ∧
    ((userinit 1).threadCreate 0 true).Agree := by
  have hen : (userinit 1).Enabled 0 (.sbrk 1 (fun _ => true) fun _ => true) :=
    ⟨by decide, by norm_num, by norm_num⟩
  have hord : Ordered (userinit 1) (0, .sbrk 1 (fun _ => true) fun _ => true) := fun _ =>
    ⟨fun q hq hl => absurd hl (by revert hq; revert q; decide), by decide, fun _ => rfl⟩
  obtain ⟨s, hs⟩ := (inv_init init_one).run_ok hen
  have hreach : ((system 2).restrict Ordered).Reachable s :=
    .step (l := (0, _)) (.init init_one) ⟨⟨hen, hs⟩, hord⟩
  have hreach' : ((system 2).restrict Ordered).Reachable ((userinit 1).threadCreate 0 true) :=
    .step (l := (0, .threadCreate true)) (.init init_one)
      ⟨⟨⟨by decide, trivial⟩, rfl⟩, trivial⟩
  exact ⟨⟨s, hs, hreach, (sizes_agree hreach).1⟩, hreach', (sizes_agree hreach').1⟩

/-- **One of two threads grows, then the other one**: the sizes differ, and the second call of
`sbrk` maps a page that is mapped. -/
theorem sbrk_remap : ∃ s : State 2, (system 2).Reachable s ∧ (s.proc 0).Live ∧ (s.proc 1).Live ∧
    (s.proc 0).pgdir = (s.proc 1).pgdir ∧ (s.proc 0).sz ≠ (s.proc 1).sz ∧
    s.Enabled 1 (.sbrk 1 (fun _ => true) fun _ => true) ∧
    s.run 1 (.sbrk 1 (fun _ => true) fun _ => true) = .error .remap := by
  have hinv := inv_init init_one
  let u : State 2 := (userinit 1).threadCreate 0 true
  have hu : (system 2).Reachable u :=
    .step (l := (0, .threadCreate true)) (.init init_one) ⟨⟨by decide, trivial⟩, rfl⟩
  have hinvu : Inv u := inv_threadCreate hinv (by decide) true
  -- the maker grows by one byte, and gets a page
  have hgrow : u.growproc 0 (1 : ℕ) (fun _ => true) (fun _ => true) = _ :=
    growproc_one (by decide) (by decide) rfl
  have hno : (u.dir (u.proc 0).pgdir).present 1 = false := rfl
  rcases mappages_page (k := 1) (by decide) (fun _ => true) (u.dir (u.proc 0).pgdir) with
    ⟨h1, -⟩ | ⟨-, h2, -⟩ | ⟨-, -, d, hmap, hd⟩
  · rw [hno] at h1
    cases h1
  · cases h2
  · rw [show pages (u.proc 0).sz = 1 by decide, hmap] at hgrow
    have hd1 : d.present 1 = true := by rw [hd 1 (by decide), if_pos rfl]
    obtain ⟨t, ht, h0, h1, hdir⟩ : ∃ t, u.growproc 0 1 (fun _ => true) (fun _ => true) = .ok t ∧
        t.proc 0 = ⟨.runnable, PGSIZE + 1, 1⟩ ∧ t.proc 1 = ⟨.runnable, PGSIZE, 1⟩ ∧ t.dir 1 = d :=
      ⟨_, hgrow, rfl, rfl, rfl⟩
    refine ⟨t, hu.step (l := (0, .sbrk 1 (fun _ => true) fun _ => true))
      ⟨⟨by decide, by decide⟩, ht⟩, by rw [h0]; decide, by rw [h1]; decide, by rw [h0, h1],
      by rw [h0, h1]; decide, ⟨by rw [h1]; decide, by norm_num, by norm_num⟩, ?_⟩
    have hgrow' : t.growproc 1 (1 : ℕ) (fun _ => true) (fun _ => true) = _ :=
      growproc_one (by rw [h1]; decide) (by rw [h1]; decide) rfl
    rcases mappages_page (k := 1) (by decide) (fun _ => true) d with ⟨-, h2⟩ | ⟨h2, -⟩ | ⟨h2, -⟩
    · rw [h1, show pages PGSIZE = 1 by decide, hdir, h2] at hgrow'
      exact hgrow'
    all_goals
      rw [hd1] at h2
      cases h2

/-- The first process gives up its page, keeps its size, and cannot `fork` any more. -/
theorem sbrk_to_zero : ∃ s : State 2, (system 2).Reachable s ∧ (s.proc 0).Live ∧
    (s.proc 0).sz = PGSIZE ∧ (s.dir (s.proc 0).pgdir).present 0 = false ∧
    ∃ e, s.run 0 (.fork true true (fun _ => true) (fun _ => true) 2) = .error e := by
  have hlive : ((userinit 1).proc 0).Live := by decide
  obtain ⟨d, hrun, hmaps⟩ :=
    growproc_to_zero (inv_init init_one) hlive (fun _ => true) fun _ => true
  have hen : (userinit 1).Enabled 0 (.sbrk (-PGSIZE) (fun _ => true) fun _ => true) :=
    ⟨hlive, by simp [PGSIZE], by simp [PGSIZE]⟩
  have hpos : 0 < ((userinit 1).proc 0).sz := by decide
  refine ⟨_, .step (l := (0, _)) (.init init_one) ⟨hen, hrun⟩, hlive, rfl, hmaps 0 (by decide), ?_⟩
  exact fork_unmapped (s := (userinit 1).setDir 1 d) (p := 0) hpos hmaps rfl

/-- A process of 4 MB grows by a byte while there is no page for a second page table: the new page
is below its size and not mapped. -/
theorem sbrk_no_table : ∃ s : State 2, (system 2).Reachable s ∧ (s.proc 0).Live ∧
    1024 * PGSIZE < (s.proc 0).sz ∧ (s.dir (s.proc 0).pgdir).present 1024 = false := by
  have hrun : (userinit 1024).growproc 0 (1 : ℕ) (fun _ => true) (fun _ => false) = _ :=
    growproc_no_table (by decide) (by decide) rfl rfl (by decide)
  have hen : (userinit 1024).Enabled 0 (.sbrk (1 : ℕ) (fun _ => true) fun _ => false) :=
    ⟨by decide, by norm_num, by norm_num⟩
  exact ⟨_, .step (l := (0, _)) (.init (init_userinit (by decide) (by decide))) ⟨hen, hrun⟩,
    by decide, by decide, by decide⟩

end Xv6.AddrSpace
