import Xv6.PageTable
import Xv6.UmallocRun
import Xv6.WriteSeq

/-!
# The First Frame of a Thread

`thread_create` is called with a block of the user heap as stack, and `thread_stack_init` builds the
frame of the new thread downwards from the pointer it gets. The pointer that `malloc` returns is the
low end of its block: the frame is written below it, over the header of the block and the last words
of the block before. A pointer into the block, at least 16 bytes above its start, would do.

A pointer past the end of the process is refused by `argstr`, which `sys_thread_create` does not
notice, and `copyout` stops at a page that is not mapped, which `thread_stack_init` does not notice.

## Main results

* `frame_overwrites_header`: after `malloc(1024)` and `thread_create` the size in the header of the
  block is another one.
* `frame_in_block`: **the frame stays in the block exactly if the pointer is between 16 bytes above
  its start and its end**, and then no header, no free block and no other block changes.
-/

open Transition SortedRing WriteSeq Extent

namespace Xv6.ThreadFrame

open Umalloc Vm

/-- `stack_p` in `thread_stack_init` when it copies the argument: `(stack - sizeof(int)) & ~3`. -/
def argSlot (stack : ℕ) : ℕ := (stack + (2 ^ 32 - 4)) % 2 ^ 32 / 4 * 4

/-- What `thread_stack_init` returns: the stack pointer of the new thread. -/
def framePtr (stack : ℕ) : ℕ := (argSlot stack + (2 ^ 32 - 12)) % 2 ^ 32

/-- The words that `thread_stack_init(stack, args)` copies out, with their addresses; `arg` is the
word at `args`. First the copy of that word, then the array `user_stack`. -/
def frame (stack arg : ℕ) : List (ℕ × ℕ) :=
  [(argSlot stack, arg), (framePtr stack, 0xFFFFFFFF),
    ((framePtr stack + 4) % 2 ^ 32, argSlot stack), ((framePtr stack + 8) % 2 ^ 32, 0)]

/-- `stack` in `sys_thread_create` after `argstr`, in a process of size `sz`: the argument word, or
what was in the variable before. -/
def stackArg (sz uninit ptr : ℕ) : ℕ := if ptr < sz then ptr else uninit

/-- The words among `ws` that `copyout` writes: it stops at a page without `PTE_U`. All of them are
aligned, so that none is on two pages. -/
def copied (user : ℕ → Bool) (ws : List (ℕ × ℕ)) : List (ℕ × ℕ) :=
  ws.takeWhile fun w => user (w.1 / PGSIZE)

/-- The words that the two calls of `copyout` in `thread_stack_init(stack, args)` write. -/
def written (user : ℕ → Bool) (stack arg : ℕ) : List (ℕ × ℕ) :=
  copied user ((frame stack arg).take 1) ++ copied user ((frame stack arg).drop 1)

/-- The heap after the frame has been written. -/
def framed (h : Heap) (user : ℕ → Bool) (stack arg : ℕ) : Heap :=
  { h with mem := applyWrites (written user stack arg) h.mem }

/-- The heap after `sys_thread_create` with the pointer `ptr` and the word `arg` at the argument.
The size of the process is the end of its heap. -/
def sysThreadCreate (h : Heap) (user : ℕ → Bool) (uninit ptr arg : ℕ) : Heap :=
  framed h user (stackArg h.top uninit ptr) arg

/-- All bytes that are written for the frame are in the `n` bytes from `b` on. -/
def Inside (user : ℕ → Bool) (b n stack arg : ℕ) : Prop :=
  ∀ w ∈ written user stack arg, b ≤ w.1 ∧ w.1 + 4 ≤ b + n

/-- The pages of the frame are mapped for the user. -/
def Mapped (user : ℕ → Bool) (stack arg : ℕ) : Prop :=
  ∀ w ∈ frame stack arg, user (w.1 / PGSIZE) = true

/-- **Every header, the free list and all blocks of the program other than the one at `b` are the
same** in both heaps. -/
def Unharmed (h h' : Heap) (b : ℕ) : Prop :=
  (∃ xs, Ring h.ptr (h.base :: xs) ∧ Ring h'.ptr (h.base :: xs) ∧
    Tiles ((xs ++ h.lives).map h.block) h.got ∧
    ∀ x ∈ h.base :: (xs ++ h.lives), h'.ptr x = h.ptr x ∧ h'.size x = h.size x) ∧
  ∀ c ∈ h.live, c.1 ≠ b → ∀ a, c.1 ≤ a → a < c.1 + c.2 → h'.mem a = h.mem a

section Frame

variable {h : Heap} {xs : List ℕ} {user : ℕ → Bool} {b n stack arg : ℕ}

/-- Where its pages are mapped, the whole frame is written. -/
theorem written_eq (hmap : Mapped user stack arg) : written user stack arg = frame stack arg := by
  have hall : ∀ ws, ws ⊆ frame stack arg → copied user ws = ws := fun ws hws =>
    List.takeWhile_eq_self_iff.mpr fun w hw => hmap w (hws hw)
  rw [written, hall _ (List.take_subset 1 _), hall _ (List.drop_subset 1 _), List.take_append_drop]

/-- The frame is 16 bytes, up to the rounded pointer. -/
theorem inside_iff (hstack : stack < 2 ^ 32) (hend : b + n ≤ KERNBASE)
    (hmap : Mapped user stack arg) :
    Inside user b n stack arg ↔ b + 16 ≤ stack / 4 * 4 ∧ stack / 4 * 4 ≤ b + n := by
  rw [Inside, written_eq hmap]
  simp only [frame, List.forall_mem_cons, framePtr, argSlot]
  simp only [KERNBASE] at hend
  constructor
  · rintro ⟨h1, h2, -, -, -⟩
    omega
  · rintro ⟨h1, h2⟩
    refine ⟨by omega, by omega, by omega, by omega, fun w hw => absurd hw List.not_mem_nil⟩

/-- The bytes of two blocks of the program do not overlap. -/
theorem live_apart {c d : ℕ × ℕ} (hi : Inv h xs) (hc : c ∈ h.live) (hd : d ∈ h.live)
    (hne : c.1 ≠ d.1) : c.1 + c.2 ≤ d.1 ∨ d.1 + d.2 ≤ c.1 := by
  have B := hi.list.blocks
  have hfc := hi.fits c hc
  have hfd := hi.fits d hd
  have hmc : c.1 - 8 ∈ xs ++ h.lives := List.mem_append_right _ (List.mem_map_of_mem hc)
  have hmd : d.1 - 8 ∈ xs ++ h.lives := List.mem_append_right _ (List.mem_map_of_mem hd)
  rcases Nat.lt_or_gt_of_ne hne with hlt | hlt
  · have := B.stop_le hmc hmd (by omega)
    exact .inl (by omega)
  · have := B.stop_le hmd hmc (by omega)
    exact .inr (by omega)

/-- A frame inside a block is a write of the program into its block. -/
theorem framed_mem (hin : Inside user b n stack arg) {a : ℕ} (ha : ¬ (b ≤ a ∧ a < b + n)) :
    (framed h user stack arg).mem a = h.mem a := by
  refine applyWrites_of_notMem fun w hw he => ha ?_
  have := hin w hw
  omega

/-- A frame inside a block leaves the list of free blocks alone. -/
theorem unharmed_of_inside (hi : Inv h xs) (hb : (b, n) ∈ h.live)
    (hin : Inside user b n stack arg) :
    Unharmed h (framed h user stack arg) b := by
  have hsame : ∀ x ∈ h.base :: (xs ++ h.lives), ∀ i ≤ 4,
      (framed h user stack arg).mem (x + i) = h.mem (x + i) :=
    fun x hx i hi4 => framed_mem hin (hi.header_outside hx hi4 hb)
  have hlist : ∀ x ∈ h.base :: xs, (framed h user stack arg).ptr x = h.ptr x := by
    intro x hx
    refine hsame x ?_ 0 (Nat.zero_le 4)
    rw [← List.cons_append]
    exact List.mem_append_left _ hx
  refine ⟨⟨xs, hi.list.ring, hi.list.ring.congr hlist, hi.list.blocks.tiles, fun x hx =>
    ⟨hsame x hx 0 (Nat.zero_le 4), hsame x hx 4 (Nat.le_refl 4)⟩⟩, fun c hc hne a hlo hhi => ?_⟩
  refine framed_mem hin fun ha => ?_
  rcases live_apart hi hc hb hne with hap | hap
  · dsimp only at hap
    omega
  · dsimp only at hap
    omega

/-- **The frame of a thread stays in the block exactly if the pointer is between 16 bytes above the
start and the end of the block.** Then no header, no free block and no other block of the program
changes. The pointer is one that `argstr` accepts, and the pages of the frame are mapped. The
pointer that `malloc` returned is the start itself. -/
theorem frame_in_block {ptr : ℕ} (hr : system.Reachable h) (htop : h.top ≤ KERNBASE)
    (hb : (b, n) ∈ h.live) (hptr : ptr < h.top) (hmap : Mapped user ptr arg) (uninit : ℕ) :
    (Inside user b n (stackArg h.top uninit ptr) arg ∧
        Unharmed h (sysThreadCreate h user uninit ptr arg) b) ↔
      b + 16 ≤ ptr / 4 * 4 ∧ ptr / 4 * 4 ≤ b + n := by
  rw [sysThreadCreate, stackArg, if_pos hptr]
  rcases reachable_inv hr with hu | ⟨xs, hi⟩
  · rw [hu.live] at hb
    cases hb
  · have hend : b + n ≤ KERNBASE := by
      have hfits := hi.fits _ hb
      have hmem : h.block (b - 8) ∈ (xs ++ h.lives).map h.block :=
        List.mem_map_of_mem (List.mem_append_right _ (List.mem_map_of_mem hb))
      have hstop := hi.list.blocks.tiles.stop_le_of_forall hi.bounded.got hmem
      simp only [Extent.stop, Heap.block] at hstop
      dsimp only at hfits
      omega
    have hstack : ptr < 2 ^ 32 := by
      simp only [KERNBASE] at htop
      omega
    rw [← inside_iff hstack hend hmap]
    exact ⟨fun h => h.1, fun hin => ⟨hin, unharmed_of_inside hi hb hin⟩⟩

/-- The heap after a first `malloc(1024)`: the block is the tail of the memory obtained. -/
theorem exists_first_block : ∃ h, system.Reachable h ∧ (35840, 1024) ∈ h.live ∧ h.top = 36864 ∧
    h.size 35832 = 129 := by
  have hcall : (noHeap.malloc 10 1024 (some 0)).map (fun x => (x.1, x.2.top, x.2.size 35832)) =
      some (35840, 36864, 129) := by
    decide +kernel
  obtain ⟨⟨r, g⟩, hmalloc, heq⟩ := Option.map_eq_some_iff.mp hcall
  simp only [Prod.mk.injEq] at heq
  obtain ⟨rfl, htop, hsize⟩ := heq
  have hinit : system.Reachable noHeap := .init ⟨rfl, by decide, by decide, by decide, rfl, rfl⟩
  have hr : system.Reachable (g.give 35840 1024) :=
    hinit.step (l := .malloc 1024 (some 0)) ⟨by decide, 10, _, g, hmalloc, rfl⟩
  exact ⟨_, hr, List.mem_cons_self, htop, hsize⟩

/-- The pages of a process of 36864 bytes. -/
def ninePages (k : ℕ) : Bool := decide (k < 9)

/-- A pointer to the last word of the block keeps the frame inside. -/
theorem frame_in_block_end : ∃ h, system.Reachable h ∧ (35840, 1024) ∈ h.live ∧
    Inside ninePages 35840 1024 (stackArg h.top 0 36860) 0 ∧
    Unharmed h (sysThreadCreate h ninePages 0 36860 0) 35840 := by
  obtain ⟨h, hr, hb, htop, -⟩ := exists_first_block
  exact ⟨h, hr, hb, (frame_in_block hr (by rw [htop]; decide) hb (by omega)
    (by unfold Mapped; decide) 0).mpr (by decide)⟩

/-- **The pointer that `malloc` returns does not do**: the word at the argument becomes the size in
the header of the block. -/
theorem frame_overwrites_header : ∃ h, system.Reachable h ∧ (35840, 1024) ∈ h.live ∧
    h.size 35832 = 129 ∧ (sysThreadCreate h ninePages 0 35840 5).size 35832 = 5 ∧
    ¬ Inside ninePages 35840 1024 (stackArg h.top 0 35840) 5 := by
  obtain ⟨h, hr, hb, htop, hsize⟩ := exists_first_block
  have hw : ((35836, 5) : ℕ × ℕ) ∈ written ninePages 35840 5 := by decide
  refine ⟨h, hr, hb, hsize, ?_, fun hin => ?_⟩
  · rw [sysThreadCreate, htop]
    exact applyWrites_of_mem (by decide) hw h.mem
  · rw [htop] at hin
    exact absurd (hin _ hw).1 (by decide)

end Frame

end Xv6.ThreadFrame
