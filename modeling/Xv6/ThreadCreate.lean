import Xv6.Growproc
import Xv6.ThreadFrame
import Xv6.UserCopy

/-!
# The Argument of a Thread

`thread_stack_init` copies the word at the address `arg` to the top of the new stack, and gives the
new thread the address of the copy as its argument. So `tmain` is called with the address of a copy
of the first word of what it was to be called with; a thread that uses it as a pointer to the shared
buffer reads and writes its own stack.

## Main results

* `threadStackInit_spec`: what the frame of a thread is, in memory.
* `thread_argument_lost`: the argument that a thread gets.
* `thread_argument`: **the thread gets the argument exactly if that is the address of the copy.**
-/

namespace Xv6.Vmem

open Vm (PGSIZE KERNBASE)
open ThreadFrame (argSlot framePtr frame)

/-- The registers in a trap frame. -/
structure TrapFrame where
  eip : ℕ
  esp : ℕ
  eax : ℕ
  /-- the other registers -/
  rest : ℕ → ℕ

/-- The array `user_stack`. -/
def userStack (stack i : ℕ) : ℕ :=
  if i = 0 then 0xFFFFFFFF else if i = 1 then argSlot stack else 0

/-- `thread_stack_init(stack, args)`. What `copyout` returns is not looked at. -/
def threadStackInit (d : Pgdir) (m : Phys) (stack args : ℕ) : Except Fault (ℕ × Phys) :=
  match copyout d d m (argSlot stack) (fun i => load d m ((args + i) % 2 ^ 32)) 4 with
  | .error e => .error e
  | .ok (_, m) =>
    match copyout d d m (framePtr stack)
        (fun i => some (wordByte (userStack stack (i / 4)) (i % 4))) 12 with
    | .error e => .error e
    | .ok (_, m) => .ok (framePtr stack, m)

/-- `thread_create(tmain, stack, arg)`, with the identifier of the slot that `allocproc` finds: the
registers of the caller once the call has returned, and those of the new thread. -/
def threadCreate (d : Pgdir) (m : Phys) (tf : TrapFrame) (tid : Option ℕ) (tmain stack arg : ℕ) :
    Except Fault (TrapFrame × Option TrapFrame × Phys) :=
  match tid with
  | none => .ok ({ tf with eax := 2 ^ 32 - 1 }, none, m)
  | some tid =>
    match threadStackInit d m stack arg with
    | .error e => .error e
    | .ok (esp, m) => .ok ({ tf with eax := tid }, some { tf with esp, eip := tmain, eax := 0 }, m)

/-- `sys_thread_create()` with these argument words. It does not look at what `argptr` and `argstr`
return; a word that they refuse, which is one outside the process, leaves the variable with the
value that it had. -/
def sysThreadCreate (d : Pgdir) (m : Phys) (sz : ℕ) (tf : TrapFrame) (tid : Option ℕ)
    (uninit : ℕ → ℕ) (tmain stack arg : ℕ) : Except Fault (TrapFrame × Option TrapFrame × Phys) :=
  let tmain := if sz ≤ tmain ∨ sz < (tmain + 1) % 2 ^ 32 then uninit 0 else tmain
  let stack := if sz ≤ stack then uninit 1 else stack
  let arg := if sz ≤ arg then uninit 2 else arg
  threadCreate d m tf tid tmain stack arg

/-- The 16 bytes of the frame are mapped for the user. -/
def Image.MappedStack {K : Link} (I : Image K) (stack : ℕ) : Prop :=
  16 ≤ stack / 4 * 4 ∧ ∀ a, stack / 4 * 4 - 16 ≤ a → a < stack / 4 * 4 → I.dir.UserAt a

section Thread

variable {K : Link} (I : Image K) {stack arg : ℕ}

theorem frame_addresses (hlt : stack < KERNBASE) (h16 : 16 ≤ stack / 4 * 4) :
    argSlot stack = stack / 4 * 4 - 4 ∧ framePtr stack = stack / 4 * 4 - 16 := by
  simp only [framePtr, argSlot, KERNBASE] at *
  omega

/-- **What `thread_stack_init` leaves in memory**: the copy of the word at `args`, the array below
it, and everything else as it was. -/
theorem threadStackInit_spec (hlt : stack < KERNBASE) (hstack : I.MappedStack stack)
    (harg : ∀ i < 4, (load I.dir I.phys ((arg + i) % 2 ^ 32)).isSome = true) :
    ∃ m, threadStackInit I.dir I.phys stack arg = .ok (framePtr stack, m) ∧
      ∀ a < KERNBASE, load I.dir m a =
        if framePtr stack ≤ a ∧ a < framePtr stack + 12 then
          some (wordByte (userStack stack ((a - framePtr stack) / 4)) ((a - framePtr stack) % 4))
        else if argSlot stack ≤ a ∧ a < argSlot stack + 4 then
          load I.dir I.phys ((arg + (a - argSlot stack)) % 2 ^ 32)
        else load I.dir I.phys a := by
  obtain ⟨h16, huser⟩ := hstack
  obtain ⟨hslot, hptr⟩ := frame_addresses hlt h16
  obtain ⟨m₁, hrun₁, -, hload₁⟩ := copyout_spec I.dir I.phys (argSlot stack) _ 4 I.inj (by omega)
    (fun a h1 h2 => huser a (by omega) (by omega)) harg
  obtain ⟨m₂, hrun₂, -, hload₂⟩ := copyout_spec I.dir m₁ (framePtr stack)
    (fun i => some (wordByte (userStack stack (i / 4)) (i % 4))) 12 I.inj (by omega)
    (fun a h1 h2 => huser a (by omega) (by omega)) fun _ _ => rfl
  refine ⟨m₂, ?_, fun a ha => ?_⟩
  · rw [threadStackInit, hrun₁]
    dsimp only
    rw [hrun₂]
  · rw [hload₂ a ha, hload₁ a ha]

/-- If the call returns, the word at `args` was mapped. -/
theorem loads_of_threadStackInit {r : ℕ × Phys} (hlt : stack < KERNBASE)
    (hstack : I.MappedStack stack) (h : threadStackInit I.dir I.phys stack arg = .ok r) :
    ∀ i < 4, (load I.dir I.phys ((arg + i) % 2 ^ 32)).isSome = true := by
  obtain ⟨h16, huser⟩ := hstack
  obtain ⟨hslot, -⟩ := frame_addresses hlt h16
  obtain ⟨p, hp, hu⟩ := huser (argSlot stack) (by omega) (by omega)
  by_contra hno
  have hmin : min (PGSIZE - (argSlot stack - Vm.pgrounddown (argSlot stack))) 4 = 4 := by
    simp only [hslot, Vm.pgrounddown, PGSIZE]
    omega
  -- the first round of `copyout` reads all four bytes
  have htrap : copyout I.dir I.dir I.phys (argSlot stack)
      (fun i => load I.dir I.phys ((arg + i) % 2 ^ 32)) 4 = .error .trap := by
    rw [copyout, copyLoop, if_neg (by decide)]
    simp only [uva2ka_user (by omega) hp hu, hmin, Nat.zero_add]
    refine if_neg fun hall => hno fun i hi => ?_
    exact List.all_eq_true.mp hall i (List.mem_range.mpr hi)
  rw [threadStackInit, htrap] at h
  cases h

/-- A word of the frame. -/
theorem loadWord_frame {m : Phys} {w k : ℕ} (hend : framePtr stack + 12 ≤ KERNBASE) (hk : k < 3)
    (hw : userStack stack k = w) (hlt : w < 2 ^ 32)
    (hload : ∀ a < KERNBASE, framePtr stack ≤ a ∧ a < framePtr stack + 12 →
      load I.dir m a =
        some (wordByte (userStack stack ((a - framePtr stack) / 4)) ((a - framePtr stack) % 4))) :
    loadWord I.dir m (framePtr stack + 4 * k) = some w := by
  refine loadWord_eq hlt fun i hi => ?_
  rw [hload _ (by omega) (by omega)]
  have hdiv : (framePtr stack + 4 * k + i - framePtr stack) / 4 = k := by omega
  have hmod : (framePtr stack + 4 * k + i - framePtr stack) % 4 = i := by omega
  rw [hdiv, hmod, hw]

/-- **The argument that a thread gets.** For every mapped stack and all words that
`sys_thread_create` accepts, the new thread starts at `tmain` with `arg` as its argument, the
registers of its maker are unchanged but for the returned value, and so is its memory outside the
frame, exactly if `arg` is the address at which the word at `arg` is stored in the frame. -/
theorem thread_argument (tf : TrapFrame) (uninit : ℕ → ℕ) (tid tmain stack arg : ℕ)
    (htmain : tmain < I.sz)
    (hstack : stack < I.sz) (harg : arg < I.sz) (hmap : I.MappedStack stack) :
    (∃ tf' th m, sysThreadCreate I.dir I.phys I.sz tf (some tid) uninit tmain stack arg =
        .ok (tf', some th, m) ∧
      th.eip = tmain ∧ loadWord I.dir m (th.esp + 4) = some arg ∧ tf' = { tf with eax := tid } ∧
      ∀ a < KERNBASE, ¬ (th.esp ≤ a ∧ a < th.esp + 16) → load I.dir m a = load I.dir I.phys a) ↔
    arg = argSlot stack := by
  have hlt := hstack.trans I.sz_lt
  have hsz := I.sz_lt
  have h16 := hmap.1
  obtain ⟨hslot, hptr⟩ := frame_addresses hlt h16
  have hend : framePtr stack + 12 ≤ KERNBASE := by omega
  have hcall : sysThreadCreate I.dir I.phys I.sz tf (some tid) uninit tmain stack arg =
      threadCreate I.dir I.phys tf (some tid) tmain stack arg := by
    have hsmall : (tmain + 1) % 2 ^ 32 = tmain + 1 := by
      simp only [KERNBASE] at hsz
      omega
    rw [sysThreadCreate, if_neg (by omega), if_neg (by omega), if_neg (by omega)]
  rw [hcall]
  -- the second word of the array, if the call returns
  have hword : ∀ m : Phys, (∀ a < KERNBASE, load I.dir m a =
        if framePtr stack ≤ a ∧ a < framePtr stack + 12 then
          some (wordByte (userStack stack ((a - framePtr stack) / 4)) ((a - framePtr stack) % 4))
        else if argSlot stack ≤ a ∧ a < argSlot stack + 4 then
          load I.dir I.phys ((arg + (a - argSlot stack)) % 2 ^ 32)
        else load I.dir I.phys a) →
      loadWord I.dir m (framePtr stack + 4) = some (argSlot stack) := by
    intro m hload
    have hsmall : argSlot stack < 2 ^ 32 := by
      simp only [KERNBASE] at hlt
      omega
    have hsecond : userStack stack 1 = argSlot stack := by
      rw [userStack, if_neg (by decide), if_pos rfl]
    have := loadWord_frame I hend (by decide) hsecond hsmall fun a ha hin => by
      rw [hload a ha, if_pos hin]
    rwa [Nat.mul_one] at this
  constructor
  · rintro ⟨tf', th, m, hrun, -, hload, -, -⟩
    cases hinit : threadStackInit I.dir I.phys stack arg with
    | error e =>
      simp only [threadCreate, hinit] at hrun
      cases hrun
    | ok r =>
      obtain ⟨m₀, hrun₀, hload₀⟩ :=
        threadStackInit_spec I hlt hmap (loads_of_threadStackInit I hlt hmap hinit)
      simp only [threadCreate, hrun₀, Except.ok.injEq, Prod.mk.injEq, Option.some.injEq] at hrun
      obtain ⟨-, rfl, rfl⟩ := hrun
      rw [hword m₀ hload₀] at hload
      exact (Option.some.inj hload).symm
  · intro heq
    have hloads : ∀ i < 4, (load I.dir I.phys ((arg + i) % 2 ^ 32)).isSome = true := by
      intro i hi
      have hmod : (arg + i) % 2 ^ 32 = argSlot stack + i := by
        simp only [KERNBASE] at hsz
        omega
      obtain ⟨p, hp, -⟩ := hmap.2 (argSlot stack + i) (by omega) (by omega)
      rw [hmod, load, hp]
      rfl
    obtain ⟨m, hrun, hload⟩ := threadStackInit_spec I hlt hmap hloads
    refine ⟨{ tf with eax := tid }, { tf with esp := framePtr stack, eip := tmain, eax := 0 }, m,
      by rw [threadCreate, hrun], rfl, ?_, rfl, fun a ha hout => ?_⟩
    · rw [heq]
      exact hword m hload
    · dsimp only at hout
      rw [hload a ha, if_neg (by omega), if_neg (by omega)]

end Thread

/-! ### A thread in a process of one page -/

/-- A stack in the only page. -/
theorem mappedStack_onePage : onePage.MappedStack 64 := by
  refine ⟨by decide, fun a _ ha => ⟨onePte, ?_, rfl⟩⟩
  have hpage : a / PGSIZE = 0 := Nat.div_eq_of_lt (by simp only [PGSIZE]; omega)
  rw [hpage]
  rfl

/-- Registers that are all 0. -/
def noRegisters : TrapFrame := ⟨0, 0, 0, fun _ => 0⟩

/-- The address 60 of the copy is itself the argument. -/
theorem thread_argument_slot : ∃ tf' th m,
    sysThreadCreate onePage.dir onePage.phys onePage.sz noRegisters (some 2) (fun _ => 0)
        100 64 60 =
      .ok (tf', some th, m) ∧ th.eip = 100 ∧ loadWord onePage.dir m (th.esp + 4) = some 60 := by
  obtain ⟨tf', th, m, hrun, heip, hload, -⟩ := (thread_argument onePage noRegisters
    (fun _ => 0) 2 100 64 60 (by decide) (by decide) (by decide)
    mappedStack_onePage).mpr (by decide)
  exact ⟨tf', th, m, hrun, heip, hload⟩

/-- **`thread_create(100, 64, 16)`** starts the thread with the argument 60. -/
theorem thread_argument_lost :
    (sysThreadCreate onePage.dir onePage.phys onePage.sz noRegisters (some 2) (fun _ => 0) 100 64
      16).map (fun r => r.2.1.map fun th => (th.eip, loadWord onePage.dir r.2.2 (th.esp + 4))) =
    .ok (some (100, some 60)) := by
  decide +kernel

end Xv6.Vmem
