import Xv6.SortedRing
import Xv6.Tiling
import Xv6.Transition

/-!
# The User Heap Allocator

`malloc` and `free` of `umalloc.c`. Memory is a function from addresses to words; the header of a
block is the word of its pointer and, four bytes further, the word of its size in units of
`sizeof(Header)`. Besides the memory and `freep` the state records what the program has: the
memory that `sbrk` has returned and the blocks that `malloc` has returned and that have not been
freed, each with the number of bytes asked for.

`sbrk` either fails or returns fresh memory at an address of its choice above all it has returned
before; how far above is an argument of the call. It takes its argument for a signed number, and
takes memory away if that is negative. The loops of `free` and `malloc` run with fuel.
`system` has the runs of a program that frees only what it has got and writes only into that.
-/

open Transition SortedRing Extent

namespace Xv6.Umalloc

/-! ### The allocator -/

/-- The memory of a process, `base` (its address), `freep`, and what the program has. -/
structure Heap where
  mem : ℕ → ℕ
  base : ℕ
  freep : ℕ
  /-- where the memory obtained so far ends -/
  top : ℕ
  got : List Extent
  live : List (ℕ × ℕ)

namespace Heap

/-- `p->s.ptr` -/
def ptr (h : Heap) (p : ℕ) : ℕ := h.mem p

/-- `p->s.size` -/
def size (h : Heap) (p : ℕ) : ℕ := h.mem (p + 4)

/-- `p->s.ptr = v` -/
def setPtr (h : Heap) (p v : ℕ) : Heap := { h with mem := Function.update h.mem p v }

/-- `p->s.size = v` -/
def setSize (h : Heap) (p v : ℕ) : Heap := { h with mem := Function.update h.mem (p + 4) v }

/-- The loop of `free`. -/
def freeLoop (h : Heap) (bp : ℕ) : ℕ → ℕ → Option ℕ
  | 0, _ => none
  | k + 1, p =>
    if bp > p ∧ bp < h.ptr p then some p
    else if p ≥ h.ptr p ∧ (bp > p ∨ bp < h.ptr p) then some p
    else freeLoop h bp k (h.ptr p)

/-- The first `if` of `free`: merge `bp` with the block behind it, or link it to that block. -/
def linkUp (h : Heap) (bp p : ℕ) : Heap :=
  if bp + 8 * h.size bp = h.ptr p then
    let h := h.setSize bp (h.size bp + h.size (h.ptr p))
    h.setPtr bp (h.ptr (h.ptr p))
  else h.setPtr bp (h.ptr p)

/-- The second `if` of `free`: merge `bp` into the block `p` before it, or link that block to it. -/
def linkDown (h : Heap) (bp p : ℕ) : Heap :=
  if p + 8 * h.size p = bp then
    let h := h.setSize p (h.size p + h.size bp)
    h.setPtr p (h.ptr bp)
  else h.setPtr p bp

/-- `free(ap)` -/
def free (h : Heap) (fuel ap : ℕ) : Option Heap :=
  let bp := ap - 8
  (h.freeLoop bp fuel h.freep).map fun p => { (h.linkUp bp p).linkDown bp p with freep := p }

/-- The memory of the process ends at `sz`. -/
def shrink (h : Heap) (sz : ℕ) : Heap :=
  { h with top := sz, got := h.got.map fun g => ⟨g.start, min g.len (sz - g.start)⟩ }

/-- `sbrk(n)` for the word `n`: it fails, or returns the end of the memory of the process, `8 * g`
bytes above the top. As an int `n` says how much memory to add there, or, if it is negative, to take
away; `growproc` takes the new size 0 for a failure, and with a size below 0 it does nothing. -/
def sbrk (h : Heap) (n : ℕ) (gap : Option ℕ) : Option (ℕ × Heap) :=
  match gap with
  | none => none
  | some g =>
    let p := h.top + 8 * g
    if n < 2 ^ 31 then some (p, { h with top := p + n, got := ⟨p, n⟩ :: h.got })
    else if p = 2 ^ 32 - n then none
    else if p < 2 ^ 32 - n then some (p, h)
    else some (p, h.shrink (p - (2 ^ 32 - n)))

/-- `morecore(nu)`: the inner answer is `none` when it returns 0. -/
def morecore (h : Heap) (fuel nu : ℕ) (gap : Option ℕ) : Option (Option Heap) :=
  let nu := if nu < 4096 then 4096 else nu
  match h.sbrk (nu * 8 % 2 ^ 32) gap with
  | none => some none
  | some (p, h) => ((h.setSize p nu).free fuel (p + 8)).map some

/-- The branch of `malloc` that takes the block `p`, or its tail. -/
def takeBlock (h : Heap) (nunits prevp p : ℕ) : ℕ × Heap :=
  if h.size p = nunits then (p + 8, { h.setPtr prevp (h.ptr p) with freep := prevp })
  else
    let h := h.setSize p (h.size p - nunits)
    let p := p + 8 * h.size p
    let h := h.setSize p nunits
    (p + 8, { h with freep := prevp })

/-- The loop of `malloc`. -/
def mallocLoop (nunits : ℕ) (gap : Option ℕ) : ℕ → Heap → ℕ → ℕ → Option (ℕ × Heap)
  | 0, _, _, _ => none
  | k + 1, h, prevp, p =>
    if h.size p ≥ nunits then some (h.takeBlock nunits prevp p)
    else if p = h.freep then
      match h.morecore k nunits gap with
      | none => none
      | some none => some (0, h)
      | some (some h) => mallocLoop nunits gap k h h.freep (h.ptr h.freep)
    else mallocLoop nunits gap k h p (h.ptr p)

/-- The start of `malloc`: the first call makes the list of `base` alone. -/
def initBase (h : Heap) : Heap :=
  if h.freep = 0 then { (h.setPtr h.base h.base).setSize h.base 0 with freep := h.base } else h

/-- The units that `malloc(nbytes)` looks for. -/
def nunits (nbytes : ℕ) : ℕ := (nbytes + 8 - 1) % 2 ^ 32 / 8 + 1

/-- `malloc(nbytes)` -/
def malloc (h : Heap) (fuel nbytes : ℕ) (gap : Option ℕ) : Option (ℕ × Heap) :=
  let h := h.initBase
  mallocLoop (nunits nbytes) gap fuel h h.freep (h.ptr h.freep)

end Heap

/-! ### Runs -/

/-- What a program does with its heap. -/
inductive Call
  | malloc (nbytes : ℕ) (gap : Option ℕ)
  | free (ap : ℕ)
  /-- the program writes into its blocks -/
  | store (mem : ℕ → ℕ)

/-- The block that `malloc` returns is the program's, unless it is 0. -/
def Heap.give (h : Heap) (r nbytes : ℕ) : Heap :=
  if r = 0 then h else { h with live := (r, nbytes) :: h.live }

/-- The program has not got the block at `ap` any more. -/
def Heap.forget (h : Heap) (ap : ℕ) : Heap :=
  { h with live := h.live.filter fun b => b.1 ≠ ap }

/-- Programs that start without a heap, free only what they have got from `malloc` and write only
into that. -/
def system : System Heap Call where
  init h := h.freep = 0 ∧ 0 < h.base ∧ h.base + 8 ≤ h.top ∧ 8 ∣ h.top ∧ h.got = [] ∧ h.live = []
  step h c h' :=
    match c with
    | .malloc nbytes gap => nbytes < 2 ^ 31 - 16 ∧ ∃ fuel r g,
        h.malloc fuel nbytes gap = some (r, g) ∧ h' = g.give r nbytes
    | .free ap => (∃ nbytes, (ap, nbytes) ∈ h.live) ∧ ∃ fuel g,
        h.free fuel ap = some g ∧ h' = g.forget ap
    | .store mem => h' = { h with mem } ∧
        ∀ a, (∀ b ∈ h.live, ¬ (b.1 ≤ a ∧ a < b.1 + b.2)) → mem a = h.mem a

end Xv6.Umalloc
