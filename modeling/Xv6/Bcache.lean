import Xv6.CircularList
import Xv6.Log
import Xv6.Prog
import Xv6.Transition

/-!
# The Buffer Cache

`bio.c`: any number of processes read, write and release disk blocks through a fixed number of
buffers, kept in a circular list in order of use. A critical section of `bcache.lock` is one step;
`bread` and `bwrite` go through their steps one by one, so that a process can find its block in use
by another one and sleep, look again after it is woken up, and wait for the disk while others go on.

What a process does between its calls is a program over them (`Code`), so that `log_write` and
`commit_trans` are programs among others. The discipline is a property of programs (`Obeys`): a
process uses only buffers that `bread` has returned to it and that it has not released since, and
after a change it calls `bwrite` or `log_write` before it releases the buffer.

The disk is indexed by device and sector; the queue of `ide.c` is left out, so that requests are
served in any order.

## Main definitions

* `State.go`, `State.serve`: what a process and the disk do next.
* `Obeys`: the busy discipline.
* `logWrite`, `commitTrans`: the functions of `log.c`.

## Main results

* `inv_step`: the invariant is preserved by every step.
* `cache_coherent`: **the list is a circle of all buffers, a block is in one buffer at most, a
  buffer has one holder at most, and `bread` returns what the last holder left.**
-/

open Transition Transition.System
open Function (update update_apply update_eq_self update_of_ne update_self)

namespace Xv6.Bcache

/-- The device of a buffer that has never been used: -1, as an unsigned number. -/
def NODEV : ℕ := 2 ^ 32 - 1

/-- The device of the file system and of the log. -/
def ROOTDEV : ℕ := 1

/-- `struct buf`, less its pointers. -/
structure Buf where
  busy : Bool
  valid : Bool
  dirty : Bool
  dev : ℕ
  sector : ℕ
  data : Block

/-- The block that the buffer is for. -/
def Buf.key (v : Buf) : ℕ × ℕ := (v.dev, v.sector)

/-! ### Programs -/

/-- What a process asks for. -/
inductive Op (n : ℕ)
  | bread (dev sector : ℕ)
  | bwrite (b : Fin n)
  | brelse (b : Fin n)
  /-- read `b->data` -/
  | load (b : Fin n)
  /-- write `b->data` -/
  | store (b : Fin n) (v : Block)
  /-- read `b->dev` and `b->sector` -/
  | key (b : Fin n)
  /-- `b->flags |= B_DIRTY` -/
  | setDirty (b : Fin n)
  | getLog
  | setLog (L : Log)
  | panic

/-- The answer to a request. -/
def Op.Ret {n : ℕ} : Op n → Type
  | .bread _ _ => Fin n
  | .load _ => Block
  | .key _ => ℕ × ℕ
  | .getLog => Log
  | .panic => Empty
  | _ => Unit

/-- The program of a process. -/
abbrev Code (n : ℕ) (α : Type) := Prog (Op n) Op.Ret α

section Programs

variable {n : ℕ}

def bread (dev sector : ℕ) : Code n (Fin n) := Prog.lift (Op.bread dev sector)

def bwrite (b : Fin n) : Code n Unit := Prog.lift (Op.bwrite b)

def brelse (b : Fin n) : Code n Unit := Prog.lift (Op.brelse b)

def load (b : Fin n) : Code n Block := Prog.lift (Op.load b)

def store (b : Fin n) (v : Block) : Code n Unit := Prog.lift (Op.store b v)

def key (b : Fin n) : Code n (ℕ × ℕ) := Prog.lift (Op.key b)

def setDirty (b : Fin n) : Code n Unit := Prog.lift (Op.setDirty b)

def getLog : Code n Log := Prog.lift Op.getLog

def setLog (L : Log) : Code n Unit := Prog.lift (Op.setLog L)

def panic {α : Type} : Code n α := .op .panic Empty.elim

/-- `log_write(b)`. -/
def logWrite (b : Fin n) : Code n Unit := do
  let L ← getLog
  if L.isFull then panic
  else if ¬ L.busy then panic
  else do
    let (dev, sector) ← key b
    let i := L.lh.idxOf sector
    let lbuf ← bread dev (L.start + i + 1)
    let data ← load b
    store lbuf data
    bwrite lbuf
    brelse lbuf
    let L ← getLog
    setLog (if i = L.lh.length then { L with lh := L.lh ++ [sector] } else L)
    setDirty b

/-- The loop of `install_trans`, for at most `k` more entries. -/
def installLoop : ℕ → ℕ → Code n Unit
  | 0, _ => pure ()
  | k + 1, tail => do
    let L ← getLog
    if tail < L.lh.length then do
      let lbuf ← bread ROOTDEV (L.start + tail + 1)
      let dbuf ← bread ROOTDEV (L.lh.getD tail 0)
      let data ← load lbuf
      store dbuf data
      bwrite dbuf
      brelse lbuf
      brelse dbuf
      installLoop k (tail + 1)
    else pure ()

/-- `install_trans()`. -/
def installTrans : Code n Unit := installLoop LOGSIZE 0

/-- `write_head()`. -/
def writeHead : Code n Unit := do
  let L ← getLog
  let buf ← bread ROOTDEV L.start
  let data ← load buf
  store buf (putHead data L.lh)
  bwrite buf
  brelse buf

/-- `commit_trans()`. -/
def commitTrans : Code n Unit := do
  let L ← getLog
  if 0 < L.lh.length then do
    writeHead
    installTrans
    let L ← getLog
    setLog { L with lh := [] }
    writeHead
  let L ← getLog
  setLog { L with busy := false }

/-- **The busy discipline**, for a process that holds the buffers `H` and has changed those in `U`
and not written them since. -/
def Obeys : Finset (Fin n) → Finset (Fin n) → Code n Unit → Prop
  | _, _, .ret _ => True
  | H, U, .op (.bread _ _) k => ∀ b : Fin n, b ∉ H → Obeys (insert b H) U (k b)
  | H, U, .op (.bwrite b) k => b ∈ H ∧ Obeys H (U.erase b) (k ())
  | H, U, .op (.brelse b) k => b ∈ H ∧ b ∉ U ∧ Obeys (H.erase b) U (k ())
  | H, U, .op (.load b) k => b ∈ H ∧ ∀ v : Block, Obeys H U (k v)
  | H, U, .op (.store b _) k => b ∈ H ∧ Obeys H (insert b U) (k ())
  | H, U, .op (.key b) k => b ∈ H ∧ ∀ d : ℕ × ℕ, Obeys H U (k d)
  | H, U, .op (.setDirty b) k => b ∈ H ∧ Obeys H (U.erase b) (k ())
  | H, U, .op .getLog k => ∀ L : Log, Obeys H U (k L)
  | H, U, .op (.setLog _) k => Obeys H U (k ())
  | _, _, .op .panic _ => True

/-! ### The state and its steps -/

/-- What a process goes on with after its disk request. -/
inductive After (n : ℕ)
  | bread (dev sector : ℕ) (k : Fin n → Code n Unit)
  | bwrite (k : Code n Unit)

/-- The next action of a process. -/
inductive Ctl (n : ℕ)
  /-- the next request of its program; a `bread` starts with the loop of `bget` -/
  | run (c : Code n Unit)
  /-- `bget`: `sleep(b, &bcache.lock)` -/
  | asleep (b : Fin n) (dev sector : ℕ) (k : Fin n → Code n Unit)
  /-- `bread`: the test of `B_VALID` -/
  | check (b : Fin n) (dev sector : ℕ) (k : Fin n → Code n Unit)
  /-- `iderw(b)`: its tests, and the request -/
  | iderw (b : Fin n) (a : After n)
  /-- `iderw(b)`: waiting for the disk -/
  | wait (b : Fin n) (a : After n)

/-- The cache, the disk and the processes `ι`. -/
structure State (n : ℕ) (ι : Type) where
  buf : Fin n → Buf
  /-- `prev` and `next` of the buffers and of `bcache.head` -/
  links : Links (Fin n)
  disk : ℕ × ℕ → Block
  log : Log
  ctl : ι → Ctl n
  /-- ghost: the buffers that `bget` has returned to the process and it has not released -/
  holds : ι → Finset (Fin n)
  /-- ghost: the buffers that the process has changed and not written since -/
  unsaved : ι → Finset (Fin n)
  /-- ghost: what the last holder of a block left there -/
  left : ℕ × ℕ → Block
  /-- ghost: some process has changed the block -/
  touched : ℕ × ℕ → Bool

end Programs

section Model

variable {n : ℕ} {ι : Type} [DecidableEq ι]

namespace State

def setBuf (s : State n ι) (b : Fin n) (v : Buf) : State n ι :=
  { s with buf := update s.buf b v }

def setCtl (s : State n ι) (p : ι) (c : Ctl n) : State n ι :=
  { s with ctl := update s.ctl p c }

/-- `wakeup(b)`, for the processes that sleep in `bget`: they look again. -/
def wakeup (s : State n ι) (b : Fin n) : State n ι :=
  { s with ctl := fun q =>
      match s.ctl q with
      | .asleep b' dev sector k => if b' = b then .run (.op (.bread dev sector) k) else s.ctl q
      | c => c }

/-- The first loop of `bget`: the buffer of the block. -/
def lookup (s : State n ι) (dev sector : ℕ) : Option (Fin n) :=
  Links.find s.links.next (fun b => (s.buf b).dev = dev ∧ (s.buf b).sector = sector) (n + 1)
    (s.links.next none)

/-- The second loop of `bget`: the least recently used buffer that is neither busy nor dirty. -/
def victim (s : State n ι) : Option (Fin n) :=
  Links.find s.links.prev (fun b => (s.buf b).busy = false ∧ (s.buf b).dirty = false) (n + 1)
    (s.links.prev none)

/-- `bget` returns buffer `b`, changed to `v`, to process `p`. -/
def take (s : State n ι) (p : ι) (b : Fin n) (v : Buf) (dev sector : ℕ)
    (k : Fin n → Code n Unit) : State n ι :=
  { s with holds := update s.holds p (insert b (s.holds p)) }.setBuf b v
    |>.setCtl p (.check b dev sector k)

/-- `bget`, from its label `loop` on. -/
def bget (s : State n ι) (p : ι) (dev sector : ℕ) (k : Fin n → Code n Unit) :
    Option (State n ι) :=
  match s.lookup dev sector with
  | some b =>
    if (s.buf b).busy then some (s.setCtl p (.asleep b dev sector k))
    else some (s.take p b { s.buf b with busy := true } dev sector k)
  | none =>
    match s.victim with
    | some b => some (s.take p b ⟨true, false, false, dev, sector, (s.buf b).data⟩ dev sector k)
    | none => none

/-- The critical section of `brelse`. -/
def release (s : State n ι) (p : ι) (b : Fin n) (k : Code n Unit) : State n ι :=
  { s with
    links := (s.links.unlink b).insertFront b
    holds := update s.holds p ((s.holds p).erase b)
    left := update s.left (s.buf b).key (s.buf b).data }.setBuf b
      { s.buf b with busy := false }
    |>.wakeup b |>.setCtl p (.run k)

/-- What process `p` does next. It is `none` when it has to wait and when the code panics. -/
def go (s : State n ι) (p : ι) : Option (State n ι) :=
  match s.ctl p with
  | .run (.ret _) => none
  | .run (.op (.bread dev sector) k) => s.bget p dev sector k
  | .run (.op (.bwrite b) k) =>
    if (s.buf b).busy then
      some ((s.setBuf b { s.buf b with dirty := true }).setCtl p (.iderw b (.bwrite (k ()))))
    else none
  | .run (.op (.brelse b) k) => if (s.buf b).busy then some (s.release p b (k ())) else none
  | .run (.op (.load b) k) => some (s.setCtl p (.run (k (s.buf b).data)))
  | .run (.op (.store b v) k) =>
    some ({ s with
      unsaved := update s.unsaved p (insert b (s.unsaved p))
      touched := update s.touched (s.buf b).key true }.setBuf b { s.buf b with data := v }
      |>.setCtl p (.run (k ())))
  | .run (.op (.key b) k) => some (s.setCtl p (.run (k (s.buf b).key)))
  | .run (.op (.setDirty b) k) =>
    some ({ s with unsaved := update s.unsaved p ((s.unsaved p).erase b) }.setBuf b
      { s.buf b with dirty := true } |>.setCtl p (.run (k ())))
  | .run (.op .getLog k) => some (s.setCtl p (.run (k s.log)))
  | .run (.op (.setLog L) k) => some ({ s with log := L }.setCtl p (.run (k ())))
  | .run (.op .panic _) => none
  | .asleep _ _ _ _ => none
  | .check b dev sector k =>
    if (s.buf b).valid then some (s.setCtl p (.run (k b)))
    else some (s.setCtl p (.iderw b (.bread dev sector k)))
  | .iderw b a =>
    -- the panics "buf not busy" and "nothing to do"
    if (s.buf b).busy ∧ ¬ ((s.buf b).valid ∧ ¬ (s.buf b).dirty) then some (s.setCtl p (.wait b a))
    else none
  | .wait b a =>
    if (s.buf b).valid ∧ ¬ (s.buf b).dirty then
      match a with
      | .bread _ _ k => some (s.setCtl p (.run (k b)))
      | .bwrite k => some (s.setCtl p (.run k))
    else none

/-- The disk serves the request of process `p`: it writes a dirty buffer, and reads any other. -/
def serve (s : State n ι) (p : ι) : Option (State n ι) :=
  match s.ctl p with
  | .wait b _ =>
    let v := s.buf b
    if v.dirty then
      some ({ s with
        disk := update s.disk v.key v.data
        unsaved := update s.unsaved p ((s.unsaved p).erase b) }.setBuf b
          { v with valid := true, dirty := false } |>.wakeup b)
    else if v.valid then none
    else some ((s.setBuf b { v with data := s.disk v.key, valid := true }).wakeup b)
  | _ => none

end State

/-- The steps. -/
inductive Act (n : ℕ) (ι : Type)
  | go (p : ι)
  | serve (p : ι)
  | start (p : ι) (c : Code n Unit)

/-- `binit`: the loop that links the buffers. -/
def binit (n : ℕ) : Links (Fin n) := (List.finRange n).foldl Links.insertFront Links.empty

/-- The state after `binit`, with the disk `d`. -/
def boot (n : ℕ) (ι : Type) (d : ℕ × ℕ → Block) (L : Log) : State n ι where
  buf _ := ⟨false, false, false, NODEV, 0, Block.zero⟩
  links := binit n
  disk := d
  log := L
  ctl _ := .run (.ret ())
  holds _ := ∅
  unsaved _ := ∅
  left := d
  touched _ := false

/-- The runs over the disk `d`. A process that has come to its end starts any program that keeps
the discipline. -/
def system (n : ℕ) (ι : Type) [DecidableEq ι] (d : ℕ × ℕ → Block) :
    System (State n ι) (Act n ι) where
  init s := ∃ L, s = boot n ι d L
  step s a t :=
    match a with
    | .go p => s.go p = some t
    | .serve p => s.serve p = some t
    | .start p c => s.ctl p = .run (.ret ()) ∧ Obeys (s.holds p) (s.unsaved p) c ∧
        t = s.setCtl p (.run c)

/-- The `bread` of process `p` for the block is about to return buffer `b`. -/
def State.Returns (s : State n ι) (p : ι) (dev sector : ℕ) (b : Fin n) : Prop :=
  (∃ k, s.ctl p = .check b dev sector k ∧ (s.buf b).valid = true) ∨
    ∃ k, s.ctl p = .wait b (.bread dev sector k) ∧ (s.buf b).valid = true ∧ (s.buf b).dirty = false

/-! ### The invariant -/

/-- The process is inside `bread` with buffer `b`. -/
def Ctl.Reading : Ctl n → Fin n → Prop
  | .check b _ _ _, a | .iderw b (.bread _ _ _), a | .wait b (.bread _ _ _), a => b = a
  | _, _ => False

/-- The buffer has what the last holder of its block left there, or it will read it from the
disk. -/
def State.Fresh (s : State n ι) (b : Fin n) : Prop :=
  (s.buf b).dev ≠ NODEV →
    ((s.buf b).valid = true → (s.buf b).data = s.left (s.buf b).key) ∧
    ((s.buf b).valid = false → s.disk (s.buf b).key = s.left (s.buf b).key)

/-- What is known of a process that holds the buffers `H` and has changed those in `U`. -/
def CtlOk (H U : Finset (Fin n)) (buf : Fin n → Buf) (fresh : Fin n → Prop) : Ctl n → Prop
  | .run c => Obeys H U c
  | .asleep _ dev sector k => Obeys H U (.op (.bread dev sector) k)
  | .check b dev sector k =>
    b ∈ H ∧ b ∉ U ∧ Obeys H U (k b) ∧ (buf b).key = (dev, sector) ∧ fresh b
  | .iderw b (.bread dev sector k) =>
    b ∈ H ∧ b ∉ U ∧ Obeys H U (k b) ∧ (buf b).key = (dev, sector) ∧ fresh b ∧
      (buf b).valid = false
  | .wait b (.bread dev sector k) =>
    b ∈ H ∧ b ∉ U ∧ Obeys H U (k b) ∧ (buf b).key = (dev, sector) ∧ fresh b ∧
      (buf b).dirty = false
  | .iderw b (.bwrite k) =>
    b ∈ H ∧ Obeys H (U.erase b) k ∧ (buf b).valid = true ∧ (buf b).dirty = true
  | .wait b (.bwrite k) =>
    b ∈ H ∧ Obeys H (U.erase b) k ∧ (buf b).valid = true ∧ ((buf b).dirty = false → b ∉ U)

/-- **The invariant**, for a disk that was `d` at boot. -/
structure Inv (d : ℕ × ℕ → Block) (s : State n ι) : Prop where
  linked : ∃ xs, s.links.Linked xs ∧ ∀ b, b ∈ xs
  key : ∀ a b, (s.buf a).dev ≠ NODEV → (s.buf a).key = (s.buf b).key → a = b
  uniq : ∀ p q b, b ∈ s.holds p → b ∈ s.holds q → p = q
  busy : ∀ b, (s.buf b).busy = true ↔ ∃ p, b ∈ s.holds p
  unsaved : ∀ p, s.unsaved p ⊆ s.holds p
  ctl : ∀ p, CtlOk (s.holds p) (s.unsaved p) s.buf s.Fresh (s.ctl p)
  valid : ∀ p, ∀ b ∈ s.holds p, ¬ (s.ctl p).Reading b → (s.buf b).valid = true
  inval : ∀ b, (s.buf b).valid = false → (s.buf b).dirty = false
  idle : ∀ b, (s.buf b).busy = false → (s.buf b).dev ≠ NODEV →
    (s.buf b).valid = true ∧ (s.buf b).data = s.left (s.buf b).key
  clean : ∀ b, (s.buf b).dev ≠ NODEV → (s.buf b).valid = true → (s.buf b).dirty = false →
    (∀ p, b ∉ s.unsaved p) → (s.buf b).data = s.disk (s.buf b).key
  uncached : ∀ k : ℕ × ℕ, k.1 ≠ NODEV → (∀ b, (s.buf b).key ≠ k) → s.disk k = s.left k
  orig : ∀ k : ℕ × ℕ, k.1 ≠ NODEV → s.touched k = false → s.disk k = d k ∧ s.left k = d k
  origBuf : ∀ b, (s.buf b).dev ≠ NODEV → (s.buf b).valid = true →
    s.touched (s.buf b).key = false → (s.buf b).data = d (s.buf b).key

/-- A process that is not asleep stays where it is; one that is asleep may be woken up. -/
def Woke (c c' : Ctl n) : Prop :=
  c' = c ∨ ∃ b dev sector k, c = .asleep b dev sector k ∧ c' = .run (.op (.bread dev sector) k)

section Lemmas

variable {d : ℕ × ℕ → Block} {s t : State n ι} {p q : ι} {a b : Fin n} {v : Buf} {c c' : Ctl n}
  {H U : Finset (Fin n)} {buf buf' : Fin n → Buf} {fresh fresh' : Fin n → Prop}

/-- A process depends on the buffers that it holds only. -/
theorem CtlOk.congr (h : CtlOk H U buf fresh c) (hbuf : ∀ a ∈ H, buf' a = buf a)
    (hfresh : ∀ a ∈ H, fresh a → fresh' a) : CtlOk H U buf' fresh' c := by
  match c, h with
  | .run _, h => exact h
  | .asleep _ _ _ _, h => exact h
  | .check b _ _ _, ⟨h1, h2, h3, h4, h5⟩ =>
    exact ⟨h1, h2, h3, by rwa [hbuf b h1], hfresh b h1 h5⟩
  | .iderw b (.bread _ _ _), ⟨h1, h2, h3, h4, h5, h6⟩ =>
    exact ⟨h1, h2, h3, by rwa [hbuf b h1], hfresh b h1 h5, by rwa [hbuf b h1]⟩
  | .wait b (.bread _ _ _), ⟨h1, h2, h3, h4, h5, h6⟩ =>
    exact ⟨h1, h2, h3, by rwa [hbuf b h1], hfresh b h1 h5, by rwa [hbuf b h1]⟩
  | .iderw b (.bwrite _), ⟨h1, h2, h3, h4⟩ =>
    exact ⟨h1, h2, by rwa [hbuf b h1], by rwa [hbuf b h1]⟩
  | .wait b (.bwrite _), ⟨h1, h2, h3, h4⟩ =>
    exact ⟨h1, h2, by rwa [hbuf b h1], by rwa [hbuf b h1]⟩

theorem CtlOk.woke (h : CtlOk H U buf fresh c) (hw : Woke c c') : CtlOk H U buf fresh c' := by
  rcases hw with rfl | ⟨b, dev, sector, k, rfl, rfl⟩
  · exact h
  · exact h

theorem Woke.reading (hw : Woke c c') : c'.Reading b ↔ c.Reading b := by
  rcases hw with rfl | ⟨a, dev, sector, k, rfl, rfl⟩
  · rfl
  · rfl

omit [DecidableEq ι] in
/-- `wakeup` changes where processes sleep only. -/
theorem woke_wakeup (s : State n ι) (b : Fin n) (q : ι) : Woke (s.ctl q) ((s.wakeup b).ctl q) := by
  rw [State.wakeup]
  simp only
  split
  · rename_i b' dev sector k hc
    split_ifs with hb
    · exact Or.inr ⟨b', dev, sector, k, hc, rfl⟩
    · exact Or.inl rfl
  · exact Or.inl rfl

omit [DecidableEq ι] in
/-- Two buffers are for two blocks. -/
theorem Inv.key_ne (h : Inv d s) (ha : (s.buf a).dev ≠ NODEV) (hab : a ≠ b) :
    (s.buf a).key ≠ (s.buf b).key :=
  fun he => hab (h.key a b ha he)

/-- **A step of a process that changes nothing but what it does next.** -/
theorem Inv.setCtl (h : Inv d s) (hc : CtlOk (s.holds p) (s.unsaved p) s.buf s.Fresh c)
    (hvalid : ∀ b ∈ s.holds p, ¬ c.Reading b → (s.buf b).valid = true) : Inv d (s.setCtl p c) :=
  { h with
    ctl := fun q => by
      change CtlOk _ _ _ _ (update s.ctl p c q)
      rw [update_apply]
      split_ifs with hq
      · exact hq ▸ hc
      · exact h.ctl q
    valid := fun q b hb => by
      change ¬ (update s.ctl p c q).Reading b → _
      rw [update_apply]
      split_ifs with hq
      · exact hvalid b (hq ▸ hb)
      · exact h.valid q b hb }

/-- **A step that changes a buffer that process `p` holds**, and perhaps its block on the disk. -/
theorem Inv.held (h : Inv d s) (hb : b ∈ s.holds p) (hbuf : t.buf = update s.buf b v)
    (hlinks : t.links = s.links) (hholds : t.holds = s.holds) (hleft : t.left = s.left)
    (hkey : v.key = (s.buf b).key) (hbusy : v.busy = (s.buf b).busy)
    (hdisk : ∀ k, k ≠ v.key → t.disk k = s.disk k)
    (htouched : ∀ k, k ≠ v.key → t.touched k = s.touched k)
    (hunsaved : t.unsaved = update s.unsaved p U) (hsub : U ⊆ s.holds p)
    (hU : ∀ a, a ≠ b → (a ∈ U ↔ a ∈ s.unsaved p))
    (hwake : ∀ q, q ≠ p → Woke (s.ctl q) (t.ctl q)) (hc : t.ctl p = c)
    (hctl : CtlOk (s.holds p) U t.buf t.Fresh c) (hval : ¬ c.Reading b → v.valid = true)
    (hvalid : ∀ a ∈ s.holds p, a ≠ b → ¬ c.Reading a → (s.buf a).valid = true)
    (hinval : v.valid = false → v.dirty = false)
    (hclean : v.dev ≠ NODEV → v.valid = true → v.dirty = false → b ∉ U → v.data = t.disk v.key)
    (horig : v.dev ≠ NODEV → t.touched v.key = false → t.disk v.key = d v.key ∧
      s.left v.key = d v.key ∧ (v.valid = true → v.data = d v.key)) : Inv d t := by
  have hUp : t.unsaved p = U := by rw [hunsaved, update_self]
  have hUq (q : ι) (hq : q ≠ p) : t.unsaved q = s.unsaved q := by rw [hunsaved, update_of_ne hq]
  have hbufs (a : Fin n) : t.buf a = if a = b then v else s.buf a := by rw [hbuf, update_apply]
  have hother (a : Fin n) (ha : a ≠ b) : t.buf a = s.buf a := (hbufs a).trans (if_neg ha)
  have hkeys (a : Fin n) : (t.buf a).key = (s.buf a).key := by
    rw [hbufs]
    split_ifs with ha
    · rw [ha, hkey]
    · rfl
  have hdevs (a : Fin n) : (t.buf a).dev = (s.buf a).dev := congrArg Prod.fst (hkeys a)
  have hbusys (a : Fin n) : (t.buf a).busy = (s.buf a).busy := by
    rw [hbufs]
    split_ifs with ha
    · rw [ha, hbusy]
    · rfl
  have hbb : (s.buf b).busy = true := (h.busy b).mpr ⟨p, hb⟩
  -- what concerns another buffer is as it was
  have hdisk' (a : Fin n) (ha : a ≠ b) (hdev : (s.buf a).dev ≠ NODEV) :
      t.disk (s.buf a).key = s.disk (s.buf a).key :=
    hdisk _ (by rw [hkey]; exact h.key_ne hdev ha)
  have hne (q : ι) (hq : q ≠ p) (a : Fin n) (ha : a ∈ s.holds q) : a ≠ b := by
    rintro rfl
    exact hq (h.uniq q p a ha hb)
  constructor
  case linked =>
    rw [hlinks]
    exact h.linked
  case key =>
    intro a a'
    rw [hkeys a, hkeys a', hdevs a]
    exact h.key a a'
  case uniq =>
    rw [hholds]
    exact h.uniq
  case busy =>
    intro a
    rw [hbusys a, hholds]
    exact h.busy a
  case unsaved =>
    intro q
    rw [hholds]
    by_cases hq : q = p
    · rw [hq, hUp]
      exact hsub
    · rw [hUq q hq]
      exact h.unsaved q
  case ctl =>
    intro q
    rw [hholds]
    by_cases hq : q = p
    · rw [hq, hUp, hc]
      exact hctl
    · rw [hUq q hq]
      refine ((h.ctl q).congr (fun a ha => hother a (hne q hq a ha)) fun a ha hf => ?_).woke
        (hwake q hq)
      rw [State.Fresh, hother a (hne q hq a ha), hleft]
      intro hdev
      rw [hdisk' a (hne q hq a ha) hdev]
      exact hf hdev
  case valid =>
    intro q a ha
    rw [hholds] at ha
    by_cases hq : q = p
    · rw [hq, hc, hbufs]
      split_ifs with hab
      · rwa [hab]
      · exact hvalid a (hq ▸ ha) hab
    · rw [(hwake q hq).reading, hother a (hne q hq a ha)]
      exact h.valid q a ha
  case inval =>
    intro a
    rw [hbufs]
    split_ifs
    · exact hinval
    · exact h.inval a
  case idle =>
    intro a ha hdev
    rw [hbusys a] at ha
    have hab : a ≠ b := by
      rintro rfl
      rw [hbb] at ha
      cases ha
    rw [hother a hab] at hdev ⊢
    rw [hleft]
    exact h.idle a ha hdev
  case clean =>
    intro a hdev hval hdirty huns
    rw [hbufs] at hdev hval hdirty ⊢
    split_ifs at hdev hval hdirty ⊢ with ha
    · exact hclean hdev hval hdirty (hUp ▸ ha ▸ huns p)
    · rw [hdisk' a ha hdev]
      refine h.clean a hdev hval hdirty fun q => ?_
      by_cases hq : q = p
      · rw [hq, ← hU a ha, ← hUp]
        exact huns p
      · rw [← hUq q hq]
        exact huns q
  case uncached =>
    intro k hk hno
    have hkb : k ≠ v.key := by
      rw [hkey, ← hkeys b]
      exact (hno b).symm
    rw [hdisk k hkb, hleft]
    exact h.uncached k hk fun a => by rw [← hkeys a]; exact hno a
  case orig =>
    intro k hk htou
    rw [hleft]
    by_cases hkb : k = v.key
    · subst hkb
      obtain ⟨h1, h2, -⟩ := horig hk htou
      exact ⟨h1, h2⟩
    · rw [hdisk k hkb]
      rw [htouched k hkb] at htou
      exact h.orig k hk htou
  case origBuf =>
    intro a hdev hval htou
    rw [hbufs] at hdev hval htou ⊢
    split_ifs at hdev hval htou ⊢ with ha
    · exact (horig hdev htou).2.2 hval
    · rw [htouched _ (by rw [hkey]; exact h.key_ne hdev ha)] at htou
      exact h.origBuf a hdev hval htou

/-- **`brelse`.** -/
theorem Inv.release {k : Code n Unit} (h : Inv d s) (hb : b ∈ s.holds p) (hU : b ∉ s.unsaved p)
    (hrun : ∀ a, ¬ (s.ctl p).Reading a) (hk : Obeys ((s.holds p).erase b) (s.unsaved p) k) :
    Inv d (s.release p b k) := by
  have hval := h.valid p b hb (hrun b)
  have hbufs (a : Fin n) : (s.release p b k).buf a =
      { s.buf a with busy := if a = b then false else (s.buf a).busy } := by
    refine (update_apply ..).trans ?_
    split_ifs with ha
    · rw [ha]
    · rfl
  have hother (a : Fin n) (ha : a ≠ b) : (s.release p b k).buf a = s.buf a :=
    update_of_ne ha _ _
  have hkeys (a : Fin n) : ((s.release p b k).buf a).key = (s.buf a).key := by
    rw [hbufs]
    rfl
  have hdevs (a : Fin n) : ((s.release p b k).buf a).dev = (s.buf a).dev :=
    congrArg Prod.fst (hkeys a)
  have hholdsp : (s.release p b k).holds p = (s.holds p).erase b := update_self ..
  have hholdsq (q : ι) (hq : q ≠ p) : (s.release p b k).holds q = s.holds q :=
    update_of_ne hq _ _
  have hne (q : ι) (hq : q ≠ p) (a : Fin n) (ha : a ∈ s.holds q) : a ≠ b := by
    rintro rfl
    exact hq (h.uniq q p a ha hb)
  have hleft (a : Fin n) (ha : a ≠ b) (hdev : (s.buf a).dev ≠ NODEV) :
      (s.release p b k).left (s.buf a).key = s.left (s.buf a).key :=
    update_of_ne (h.key_ne hdev ha) _ _
  have hwake (q : ι) (hq : q ≠ p) : Woke (s.ctl q) ((s.release p b k).ctl q) := by
    have : (s.release p b k).ctl q = (s.wakeup b).ctl q := update_of_ne hq _ _
    rw [this]
    exact woke_wakeup s b q
  have hholds (q : ι) (a : Fin n) : a ∈ (s.release p b k).holds q ↔ a ∈ s.holds q ∧ a ≠ b := by
    by_cases hq : q = p
    · rw [hq, hholdsp, Finset.mem_erase, and_comm]
    · rw [hholdsq q hq]
      exact ⟨fun ha => ⟨ha, hne q hq a ha⟩, And.left⟩
  constructor
  case linked =>
    obtain ⟨xs, hxs, hall⟩ := h.linked
    obtain ⟨ys, hys, hmem⟩ := hxs.moveFront (hall b)
    exact ⟨ys, hys, fun a => (hmem a).mpr (hall a)⟩
  case key =>
    intro a a'
    rw [hkeys a, hkeys a', hdevs a]
    exact h.key a a'
  case uniq =>
    intro q r a hq hr
    exact h.uniq q r a ((hholds q a).mp hq).1 ((hholds r a).mp hr).1
  case busy =>
    intro a
    rw [hbufs]
    dsimp only
    split_ifs with ha
    · exact iff_of_false nofun fun ⟨q, hq⟩ => ((hholds q a).mp hq).2 ha
    · rw [h.busy a]
      exact exists_congr fun q => by rw [hholds q a]; exact ⟨fun h => ⟨h, ha⟩, And.left⟩
  case unsaved =>
    intro q a ha
    refine (hholds q a).mpr ⟨h.unsaved q ha, ?_⟩
    rintro rfl
    obtain rfl := h.uniq q p a (h.unsaved q ha) hb
    exact hU ha
  case ctl =>
    intro q
    by_cases hq : q = p
    · subst hq
      rw [hholdsp]
      have hc : (s.release q b k).ctl q = .run k := update_self ..
      rw [hc]
      exact hk
    · rw [hholdsq q hq]
      refine ((h.ctl q).congr (fun a ha => hother a (hne q hq a ha)) fun a ha hf => ?_).woke
        (hwake q hq)
      rw [State.Fresh, hother a (hne q hq a ha)]
      intro hdev
      rw [hleft a (hne q hq a ha) hdev]
      exact hf hdev
  case valid =>
    intro q a hmem
    obtain ⟨ha, hab⟩ := (hholds q a).mp hmem
    rw [hother a hab]
    by_cases hq : q = p
    · subst hq
      exact fun _ => h.valid q a ha (hrun a)
    · rw [(hwake q hq).reading]
      exact h.valid q a ha
  case inval =>
    intro a
    rw [hbufs]
    exact h.inval a
  case idle =>
    intro a ha hdev
    by_cases hab : a = b
    · subst hab
      have hl : (s.release p a k).left (s.buf a).key = (s.buf a).data := update_self ..
      rw [hbufs]
      exact ⟨hval, hl.symm⟩
    · rw [hother a hab] at ha hdev ⊢
      rw [hleft a hab hdev]
      exact h.idle a ha hdev
  case clean =>
    intro a
    rw [hbufs]
    exact h.clean a
  case uncached =>
    intro k' hk' hno
    have hkb : k' ≠ (s.buf b).key := by
      rw [← hkeys b]
      exact (hno b).symm
    have hl : (s.release p b k).left k' = s.left k' := update_of_ne hkb _ _
    rw [hl]
    exact h.uncached k' hk' fun a => by rw [← hkeys a]; exact hno a
  case orig =>
    intro k' hk' htou
    refine ⟨(h.orig k' hk' htou).1, ?_⟩
    by_cases hkb : k' = (s.buf b).key
    · subst hkb
      have hl : (s.release p b k).left (s.buf b).key = (s.buf b).data := update_self ..
      rw [hl]
      exact h.origBuf b hk' hval htou
    · have hl : (s.release p b k).left k' = s.left k' := update_of_ne hkb _ _
      rw [hl]
      exact (h.orig k' hk' htou).2
  case origBuf =>
    intro a
    rw [hbufs]
    exact h.origBuf a

/-- **`bget` returns a buffer**: the one of the block, or one that has been recycled for it. -/
theorem Inv.take {dev sector : ℕ} {k : Fin n → Code n Unit} (h : Inv d s)
    (hbusy : (s.buf b).busy = false) (hrun : ∀ a, ¬ (s.ctl p).Reading a)
    (hk : Obeys (s.holds p) (s.unsaved p) (.op (.bread dev sector) k))
    (hv : (v = { s.buf b with busy := true } ∧ (s.buf b).key = (dev, sector)) ∨
      (v = ⟨true, false, false, dev, sector, (s.buf b).data⟩ ∧ (s.buf b).dirty = false ∧
        ∀ a, (s.buf a).key ≠ (dev, sector))) : Inv d (s.take p b v dev sector k) := by
  have hfree (q : ι) : b ∉ s.holds q := fun hq => by
    rw [(h.busy b).mpr ⟨q, hq⟩] at hbusy
    cases hbusy
  have hvkey : v.key = (dev, sector) := by
    rcases hv with ⟨rfl, hkey⟩ | ⟨rfl, -⟩
    · exact hkey
    · rfl
  have hvdev : v.dev = dev := congrArg Prod.fst hvkey
  have hvbusy : v.busy = true := by
    rcases hv with ⟨rfl, -⟩ | ⟨rfl, -⟩ <;> rfl
  have hsame (hval : v.valid = true) : v = { s.buf b with busy := true } := by
    rcases hv with ⟨rfl, -⟩ | ⟨rfl, -⟩
    · rfl
    · cases hval
  have hself : (s.take p b v dev sector k).buf b = v := update_self ..
  have hbufs (a : Fin n) : (s.take p b v dev sector k).buf a = if a = b then v else s.buf a :=
    update_apply ..
  have hctl (q : ι) : (s.take p b v dev sector k).ctl q =
      if q = p then .check b dev sector k else s.ctl q := update_apply ..
  have hother (a : Fin n) (ha : a ≠ b) : (s.take p b v dev sector k).buf a = s.buf a :=
    update_of_ne ha _ _
  -- no other buffer is for the block
  have hnokey (a : Fin n) (ha : a ≠ b) (hdev : dev ≠ NODEV) : (s.buf a).key ≠ (dev, sector) := by
    rcases hv with ⟨-, hkey⟩ | ⟨-, -, hno⟩
    · rw [← hkey]
      refine (h.key_ne (fun he => hdev ?_) ha.symm).symm
      rw [← he]
      exact (congrArg Prod.fst hkey).symm
    · exact hno a
  have hholdsp : (s.take p b v dev sector k).holds p = insert b (s.holds p) :=
    update_self ..
  have hholdsq (q : ι) (hq : q ≠ p) : (s.take p b v dev sector k).holds q = s.holds q :=
    update_of_ne hq _ _
  have hholds (q : ι) (a : Fin n) (ha : a ≠ b) :
      a ∈ (s.take p b v dev sector k).holds q ↔ a ∈ s.holds q := by
    by_cases hq : q = p
    · rw [hq, hholdsp, Finset.mem_insert, or_iff_right ha]
    · rw [hholdsq q hq]
  have hne (q : ι) (a : Fin n) (ha : a ∈ s.holds q) : a ≠ b := by
    rintro rfl
    exact hfree q ha
  -- an unused clean buffer agrees with the disk
  have hsync (hdev : (s.buf b).dev ≠ NODEV) (hdirty : (s.buf b).dirty = false) :
      s.disk (s.buf b).key = s.left (s.buf b).key := by
    obtain ⟨h1, h2⟩ := h.idle b hbusy hdev
    rw [← h2, ← h.clean b hdev h1 hdirty fun q hq => hfree q (h.unsaved q hq)]
  constructor
  case linked => exact h.linked
  case key =>
    intro a a' hdev he
    rw [hbufs] at hdev
    rw [hbufs, hbufs] at he
    split_ifs at hdev he with ha ha' ha'
    · rw [ha, ha']
    · rw [hvkey] at he
      exact absurd he.symm (hnokey a' ha' (hvdev ▸ hdev))
    · rw [hvkey] at he
      refine absurd he (hnokey a ha ?_)
      rwa [← show (s.buf a).dev = dev from congrArg Prod.fst he]
    · exact h.key a a' hdev he
  case uniq =>
    intro q r a hq hr
    by_cases ha : a = b
    · subst ha
      have honly (q : ι) (hq : a ∈ (s.take p a v dev sector k).holds q) : q = p := by
        by_contra hqp
        rw [hholdsq q hqp] at hq
        exact hfree q hq
      rw [honly q hq, honly r hr]
    · exact h.uniq q r a ((hholds q a ha).mp hq) ((hholds r a ha).mp hr)
  case busy =>
    intro a
    by_cases ha : a = b
    · subst ha
      rw [hself]
      exact iff_of_true hvbusy ⟨p, by rw [hholdsp]; exact Finset.mem_insert_self a _⟩
    · rw [hother a ha, h.busy a]
      exact exists_congr fun q => (hholds q a ha).symm
  case unsaved =>
    intro q a ha
    exact (hholds q a (hne q a (h.unsaved q ha))).mpr (h.unsaved q ha)
  case ctl =>
    intro q
    rw [hctl]
    split_ifs with hq
    · subst hq
      rw [hholdsp]
      refine ⟨Finset.mem_insert_self b _, fun hu => hfree q (h.unsaved q hu), hk b (hfree q), ?_,
        fun hdev => ⟨fun hval => ?_, fun hval => ?_⟩⟩
      · rw [hself, hvkey]
      · rw [hself] at hdev hval ⊢
        rw [hsame hval] at hdev ⊢
        exact (h.idle b hbusy hdev).2
      · rw [hself] at hdev hval ⊢
        rcases hv with ⟨rfl, hkey⟩ | ⟨rfl, -, hno⟩
        · have hvalid : (s.buf b).valid = true := (h.idle b hbusy hdev).1
          rw [show (s.buf b).valid = false from hval] at hvalid
          cases hvalid
        · exact h.uncached (dev, sector) hdev hno
    · rw [hholdsq q hq]
      refine (h.ctl q).congr (fun a ha => hother a (hne q a ha)) fun a ha hf => ?_
      rw [State.Fresh, hother a (hne q a ha)]
      exact hf
  case valid =>
    intro q a ha hread
    rw [hctl] at hread
    by_cases hab : a = b
    · subst hab
      split_ifs at hread with hq
      · exact absurd rfl hread
      · rw [hholdsq q hq] at ha
        exact absurd ha (hfree q)
    · rw [hother a hab]
      rw [hholds q a hab] at ha
      split_ifs at hread with hq
      · exact h.valid q a ha (hq ▸ hrun a)
      · exact h.valid q a ha hread
  case inval =>
    intro a
    rw [hbufs]
    split_ifs with ha
    · rcases hv with ⟨rfl, -⟩ | ⟨rfl, -⟩
      · exact h.inval b
      · exact fun _ => rfl
    · exact h.inval a
  case idle =>
    intro a ha hdev
    have hab : a ≠ b := by
      rintro rfl
      rw [hself, hvbusy] at ha
      cases ha
    rw [hother a hab] at ha hdev ⊢
    exact h.idle a ha hdev
  case clean =>
    intro a hdev hval hdirty huns
    rw [hbufs] at hdev hval hdirty ⊢
    split_ifs at hdev hval hdirty ⊢ with ha
    · obtain rfl := hsame hval
      exact h.clean b hdev hval hdirty (ha ▸ huns)
    · exact h.clean a hdev hval hdirty huns
  case uncached =>
    intro k' hk' hno
    by_cases hkb : (s.buf b).key = k'
    · rcases hv with ⟨rfl, -⟩ | ⟨-, hdirty, -⟩
      · exact absurd hkb (by have := hno b; rwa [hself] at this)
      · subst hkb
        exact hsync hk' hdirty
    · refine h.uncached k' hk' fun a => ?_
      by_cases ha : a = b
      · rwa [ha]
      · rw [← hother a ha]
        exact hno a
  case orig => exact h.orig
  case origBuf =>
    intro a hdev hval htou
    rw [hbufs] at hdev hval htou ⊢
    split_ifs at hdev hval htou ⊢ with ha
    · obtain rfl := hsame hval
      exact h.origBuf b hdev hval htou
    · exact h.origBuf a hdev hval htou

/-! ### The steps -/

omit [DecidableEq ι] in
theorem length_lt {xs : List (Fin n)} (h : xs.Nodup) : xs.length < n + 1 := by
  have hle := h.length_le_card
  rw [Fintype.card_fin] at hle
  omega

omit [DecidableEq ι] in
/-- The first loop of `bget` finds the buffer of the block if there is one. -/
theorem Inv.lookup (h : Inv d s) (dev sector : ℕ) :
    (∃ b, s.lookup dev sector = some b ∧ (s.buf b).key = (dev, sector)) ∨
      (s.lookup dev sector = none ∧ ∀ a, (s.buf a).key ≠ (dev, sector)) := by
  obtain ⟨xs, hxs, hall⟩ := h.linked
  rw [State.lookup, hxs.find_next _ (length_lt hxs.nodup)]
  cases hf : xs.find? fun b => decide ((s.buf b).dev = dev ∧ (s.buf b).sector = sector) with
  | some b =>
    have hb := List.find?_some hf
    rw [decide_eq_true_eq] at hb
    exact Or.inl ⟨b, rfl, Prod.ext hb.1 hb.2⟩
  | none =>
    refine Or.inr ⟨rfl, fun a he => ?_⟩
    have ha := List.find?_eq_none.mp hf a (hall a)
    rw [decide_eq_true_eq] at ha
    exact ha ⟨congrArg Prod.fst he, congrArg Prod.snd he⟩

omit [DecidableEq ι] in
/-- The second loop of `bget` finds a buffer that is neither busy nor dirty. -/
theorem Inv.victim (h : Inv d s) (hb : s.victim = some b) :
    (s.buf b).busy = false ∧ (s.buf b).dirty = false := by
  obtain ⟨xs, hxs, -⟩ := h.linked
  rw [State.victim, hxs.find_prev _ (length_lt hxs.nodup)] at hb
  simpa using List.find?_some hb

/-- The loop of `bget`. -/
theorem inv_bget {dev sector : ℕ} {k : Fin n → Code n Unit} (h : Inv d s)
    (hc : s.ctl p = .run (.op (.bread dev sector) k)) (hstep : s.bget p dev sector k = some t) :
    Inv d t := by
  have hk : Obeys (s.holds p) (s.unsaved p) (.op (.bread dev sector) k) := by
    have := h.ctl p
    rwa [hc] at this
  have hrun (a : Fin n) : ¬ (s.ctl p).Reading a := by
    rw [hc]
    exact id
  rw [State.bget] at hstep
  rcases h.lookup dev sector with ⟨b, hb, hkey⟩ | ⟨hnone, hno⟩
  · rw [hb] at hstep
    simp only at hstep
    split_ifs at hstep with hbusy
    · cases hstep
      exact h.setCtl hk fun b hb _ => h.valid p b hb (hrun b)
    · cases hstep
      exact h.take (by simpa using hbusy) hrun hk (Or.inl ⟨rfl, hkey⟩)
  · rw [hnone] at hstep
    simp only at hstep
    split at hstep
    · rename_i b hb
      cases hstep
      obtain ⟨hbusy, hdirty⟩ := h.victim hb
      exact h.take hbusy hrun hk (Or.inr ⟨rfl, hdirty, hno⟩)
    · cases hstep

/-- A change of flags or data of a held buffer that leaves its block on the disk alone. -/
theorem Inv.heldFlags (h : Inv d s) (hb : b ∈ s.holds p) (hbuf : t.buf = update s.buf b v)
    (hlinks : t.links = s.links) (hholds : t.holds = s.holds) (hleft : t.left = s.left)
    (hdisk : t.disk = s.disk) (htouched : t.touched = s.touched) (hkey : v.key = (s.buf b).key)
    (hbusy : v.busy = (s.buf b).busy) (hdata : v.data = (s.buf b).data)
    (hval : v.valid = true) (hval' : (s.buf b).valid = true) (hdirty : v.dirty = true)
    (hunsaved : t.unsaved = update s.unsaved p U) (hsub : U ⊆ s.holds p)
    (hU : ∀ a, a ≠ b → (a ∈ U ↔ a ∈ s.unsaved p))
    (hctl : t.ctl = update s.ctl p c) (hok : CtlOk (s.holds p) U t.buf t.Fresh c)
    (hvalid : ∀ a ∈ s.holds p, a ≠ b → (s.buf a).valid = true) : Inv d t := by
  refine h.held hb hbuf hlinks hholds hleft hkey hbusy (fun k _ => by rw [hdisk])
    (fun k _ => by rw [htouched]) hunsaved hsub hU
    (fun q hq => Or.inl (by rw [hctl, update_of_ne hq])) (by rw [hctl, update_self]) hok
    (fun _ => hval) (fun a ha hab _ => hvalid a ha hab) (fun hf => ?_) (fun _ _ hf => ?_)
    fun hdev htou => ?_
  · rw [hval] at hf
    cases hf
  · rw [hdirty] at hf
    cases hf
  · rw [htouched, hkey] at htou
    have hdev' : (s.buf b).dev ≠ NODEV := by
      rwa [← show v.dev = (s.buf b).dev from congrArg Prod.fst hkey]
    rw [hdisk, hkey, hdata]
    obtain ⟨h1, h2⟩ := h.orig _ hdev' htou
    exact ⟨h1, h2, fun _ => h.origBuf b hdev' hval' htou⟩

omit [DecidableEq ι] in
theorem Inv.setLog {L : Log} (h : Inv d s) : Inv d { s with log := L } :=
  { h with }

/-- **The next request of a program.** -/
theorem inv_op {c : Code n Unit} (h : Inv d s) (hc : s.ctl p = .run c) (hstep : s.go p = some t) :
    Inv d t := by
  have hok : Obeys (s.holds p) (s.unsaved p) c := by
    have := h.ctl p
    rwa [hc] at this
  have hvalid (b : Fin n) (hb : b ∈ s.holds p) : (s.buf b).valid = true :=
    h.valid p b hb (by rw [hc]; exact id)
  rw [State.go, hc] at hstep
  cases c with
  | ret a => cases hstep
  | op o k =>
    cases o with
    | bread dev sector => exact inv_bget h hc hstep
    | bwrite b =>
      obtain ⟨hb, hk⟩ := hok
      simp only at hstep
      split_ifs at hstep
      cases hstep
      refine h.heldFlags hb rfl rfl rfl rfl rfl rfl rfl rfl rfl (hvalid b hb) (hvalid b hb) rfl
        (update_eq_self p s.unsaved).symm (h.unsaved p) (fun _ _ => Iff.rfl) rfl
        ⟨hb, hk, ?_, ?_⟩ fun a ha _ => hvalid a ha
      · change (update s.buf b _ b).valid = true
        rw [update_self]
        exact hvalid b hb
      · change (update s.buf b _ b).dirty = true
        rw [update_self]
    | brelse b =>
      obtain ⟨hb, hU, hk⟩ := hok
      simp only at hstep
      split_ifs at hstep
      cases hstep
      exact h.release hb hU (by rw [hc]; exact fun _ => id) hk
    | load b | key b =>
      obtain ⟨hb, hk⟩ := hok
      cases hstep
      exact h.setCtl (hk _) fun b hb _ => hvalid b hb
    | store b v =>
      obtain ⟨hb, hk⟩ := hok
      cases hstep
      refine h.held (v := { s.buf b with data := v }) hb rfl rfl rfl rfl rfl rfl (fun _ _ => rfl)
        (fun k hk => update_of_ne hk _ _) rfl (Finset.insert_subset hb (h.unsaved p))
        (fun a ha => by rw [Finset.mem_insert, or_iff_right ha])
        (fun q hq => Or.inl (update_of_ne hq _ _)) (update_self ..) hk (fun _ => hvalid b hb)
        (fun a ha _ _ => hvalid a ha) (h.inval b)
        (fun _ _ _ hu => absurd (Finset.mem_insert_self b _) hu) fun _ htou => ?_
      · change update s.touched (s.buf b).key true (s.buf b).key = false at htou
        rw [update_self] at htou
        cases htou
    | setDirty b =>
      obtain ⟨hb, hk⟩ := hok
      cases hstep
      exact h.heldFlags hb rfl rfl rfl rfl rfl rfl rfl rfl rfl (hvalid b hb) (hvalid b hb) rfl rfl
        ((Finset.erase_subset b _).trans (h.unsaved p))
        (fun a ha => by rw [Finset.mem_erase, and_iff_right ha]) rfl hk fun a ha _ => hvalid a ha
    | getLog =>
      cases hstep
      exact h.setCtl (hok _) fun b hb _ => hvalid b hb
    | setLog L =>
      cases hstep
      exact h.setLog.setCtl hok fun b hb _ => hvalid b hb
    | panic => cases hstep

/-- **A step of a process keeps the invariant.** -/
theorem inv_go (h : Inv d s) (hstep : s.go p = some t) : Inv d t := by
  have hok := h.ctl p
  cases hc : s.ctl p with
  | run c => exact inv_op h hc hstep
  | asleep b dev sector k => simp [State.go, hc] at hstep
  | check b dev sector k =>
    rw [hc] at hok
    obtain ⟨hb, hU, hk, hkey, hf⟩ := hok
    simp only [State.go, hc] at hstep
    split_ifs at hstep with hval
    · cases hstep
      refine h.setCtl hk fun a ha _ => ?_
      by_cases hab : b = a
      · rwa [← hab]
      · exact h.valid p a ha (by rw [hc]; exact hab)
    · cases hstep
      refine h.setCtl ⟨hb, hU, hk, hkey, hf, by simpa using hval⟩ fun a ha hread => ?_
      exact h.valid p a ha (by rw [hc]; exact hread)
  | iderw b a =>
    rw [hc] at hok
    simp only [State.go, hc] at hstep
    split_ifs at hstep
    cases hstep
    cases a with
    | bread dev sector k =>
      obtain ⟨hb, hU, hk, hkey, hf, hval⟩ := hok
      refine h.setCtl ⟨hb, hU, hk, hkey, hf, h.inval b hval⟩ fun a ha hread => ?_
      exact h.valid p a ha (by rw [hc]; exact hread)
    | bwrite k =>
      obtain ⟨hb, hk, hval, hdirty⟩ := hok
      refine h.setCtl ⟨hb, hk, hval, fun hf => ?_⟩ fun a ha _ => ?_
      · rw [hdirty] at hf
        cases hf
      · exact h.valid p a ha (by rw [hc]; exact id)
  | wait b a =>
    rw [hc] at hok
    simp only [State.go, hc] at hstep
    split_ifs at hstep with hdone
    cases a with
    | bread dev sector k =>
      obtain ⟨hb, hU, hk, hkey, hf, -⟩ := hok
      cases hstep
      refine h.setCtl hk fun a ha _ => ?_
      by_cases hab : b = a
      · rw [← hab]
        exact hdone.1
      · exact h.valid p a ha (by rw [hc]; exact hab)
    | bwrite k =>
      obtain ⟨hb, hk, -, hU⟩ := hok
      cases hstep
      rw [Finset.erase_eq_of_notMem (hU (by simpa using hdone.2))] at hk
      exact h.setCtl hk fun a ha _ => h.valid p a ha (by rw [hc]; exact id)

/-- **The disk keeps the invariant.** -/
theorem inv_serve (h : Inv d s) (hstep : s.serve p = some t) : Inv d t := by
  have hok := h.ctl p
  rw [State.serve] at hstep
  split at hstep
  · rename_i b a hc
    rw [hc] at hok
    simp only at hstep
    have hwakep : (s.wakeup b).ctl p = .wait b a := by
      rw [State.wakeup]
      simp only
      rw [hc]
    split_ifs at hstep with hdirty hvalid
    · cases hstep
      cases a with
      | bread dev sector k =>
        rw [hok.2.2.2.2.2] at hdirty
        cases hdirty
      | bwrite k =>
        obtain ⟨hb, hk, hval, -⟩ := hok
        have hwritten : update s.disk (s.buf b).key (s.buf b).data (s.buf b).key =
            (s.buf b).data := update_self ..
        refine h.held (v := { s.buf b with valid := true, dirty := false }) hb rfl rfl rfl rfl rfl
          rfl (fun k hk => update_of_ne hk _ _) (fun _ _ => rfl) rfl
          ((Finset.erase_subset b _).trans (h.unsaved p))
          (fun a ha => by rw [Finset.mem_erase, and_iff_right ha]) (fun q _ => woke_wakeup s b q)
          hwakep ?_ (fun _ => rfl) (fun a ha _ _ => h.valid p a ha (by rw [hc]; exact id)) nofun
          (fun _ _ _ _ => hwritten.symm) fun hdev htou => ?_
        · refine ⟨hb, by rwa [Finset.erase_idem], ?_, fun _ => Finset.notMem_erase b _⟩
          change (update s.buf b _ b).valid = true
          rw [update_self]
        · have hdata := h.origBuf b hdev hval htou
          exact ⟨hwritten.trans hdata, (h.orig _ hdev htou).2, fun _ => hdata⟩
    · cases hstep
      cases a with
      | bwrite k =>
        rw [hok.2.2.1] at hvalid
        exact absurd rfl hvalid
      | bread dev sector k =>
        obtain ⟨hb, hU, hk, hkey, hf, -⟩ := hok
        have hval : (s.buf b).valid = false := by simpa using hvalid
        refine h.held (v := { s.buf b with data := s.disk (s.buf b).key, valid := true }) hb rfl rfl
          rfl rfl rfl rfl (fun _ _ => rfl) (fun _ _ => rfl) (update_eq_self p s.unsaved).symm
          (h.unsaved p) (fun _ _ => Iff.rfl) (fun q _ => woke_wakeup s b q) hwakep ?_ (fun _ => rfl)
          (fun a ha _ hread => h.valid p a ha (by rwa [hc])) nofun (fun _ _ _ _ => rfl)
          fun hdev htou => ?_
        · change CtlOk _ _ (update s.buf b _) _ _
          refine ⟨hb, hU, hk, ?_, fun hdev => ⟨fun _ => ?_, fun hf => ?_⟩, ?_⟩
          · rw [update_self]
            exact hkey
          · change (update s.buf b _ b).data = s.left (update s.buf b _ b).key
            change (update s.buf b _ b).dev ≠ NODEV at hdev
            rw [update_self] at hdev ⊢
            exact (hf hdev).2 hval
          · change (update s.buf b _ b).valid = false at hf
            rw [update_self] at hf
            cases hf
          · rw [update_self]
            simpa using hdirty
        · obtain ⟨h1, h2⟩ := h.orig _ hdev htou
          exact ⟨h1, h2, fun _ => h1⟩
  · cases hstep

/-- **Every step keeps the invariant.** -/
theorem inv_step {a : Act n ι} (h : Inv d s) (hstep : (system n ι d).step s a t) : Inv d t := by
  cases a with
  | go p => exact inv_go h hstep
  | serve p => exact inv_serve h hstep
  | start p c =>
    obtain ⟨hc, hk, rfl⟩ := hstep
    exact h.setCtl hk fun b hb _ => h.valid p b hb (by rw [hc]; exact id)

/-- `binit` links all buffers. -/
theorem binit_linked (n : ℕ) : ∃ xs, (binit n).Linked xs ∧ ∀ b, b ∈ xs := by
  have hfold (bs : List (Fin n)) (L : Links (Fin n)) (xs : List (Fin n)) (hL : L.Linked xs)
      (hbs : bs.Nodup) (hdisj : ∀ b ∈ bs, b ∉ xs) :
      ∃ ys, (bs.foldl Links.insertFront L).Linked ys ∧ ∀ b, b ∈ ys ↔ b ∈ bs ∨ b ∈ xs := by
    induction bs generalizing L xs with
    | nil => exact ⟨xs, hL, fun b => by simp⟩
    | cons b bs ih =>
      obtain ⟨hb, hbs⟩ := List.nodup_cons.mp hbs
      obtain ⟨ys, hys, hmem⟩ := ih (L.insertFront b) (b :: xs)
        (hL.insertFront (hdisj b (by simp))) hbs fun a ha ha' => by
          rcases List.mem_cons.mp ha' with rfl | ha'
          · exact hb ha
          · exact hdisj a (List.mem_cons_of_mem b ha) ha'
      refine ⟨ys, hys, fun a => ?_⟩
      rw [hmem a, List.mem_cons, List.mem_cons]
      tauto
  obtain ⟨ys, hys, hmem⟩ := hfold (List.finRange n) Links.empty [] Links.linked_empty
    (List.nodup_finRange n) fun b _ => by simp
  exact ⟨ys, hys, fun b => (hmem b).mpr (Or.inl (List.mem_finRange b))⟩

omit [DecidableEq ι] in
/-- The invariant after `binit`. -/
theorem inv_boot (L : Log) : Inv d (boot n ι d L) where
  linked := binit_linked n
  key a _ hdev := absurd rfl hdev
  uniq _ _ _ hb := absurd hb (Finset.notMem_empty _)
  busy b := iff_of_false (by simp [boot]) fun ⟨_, hp⟩ => Finset.notMem_empty _ hp
  unsaved _ := Finset.Subset.refl _
  ctl _ := trivial
  valid _ b hb := absurd hb (Finset.notMem_empty b)
  inval _ _ := rfl
  idle _ _ hdev := absurd rfl hdev
  clean _ hdev := absurd rfl hdev
  uncached _ _ _ := rfl
  orig _ _ _ := ⟨rfl, rfl⟩
  origBuf _ hdev := absurd rfl hdev

/-- The invariant in every reachable state. -/
theorem inv_reachable (h : (system n ι d).Reachable s) : Inv d s := by
  refine h.invariant (I := Inv d) ?_ ?_
  · rintro _ ⟨L, rfl⟩
    exact inv_boot L
  · intro _ _ _ hs hstep
    exact inv_step hs hstep

omit [DecidableEq ι] in
/-- The buffer that `bread` returns. -/
theorem Inv.returns {dev sector : ℕ} (h : Inv d s) (hret : s.Returns p dev sector b) :
    b ∈ s.holds p ∧ b ∉ s.unsaved p ∧ (s.buf b).key = (dev, sector) ∧ s.Fresh b ∧
      (s.buf b).valid = true := by
  have hok := h.ctl p
  rcases hret with ⟨k, hc, hval⟩ | ⟨k, hc, hval, -⟩
  · rw [hc] at hok
    exact ⟨hok.1, hok.2.1, hok.2.2.2.1, hok.2.2.2.2, hval⟩
  · rw [hc] at hok
    exact ⟨hok.1, hok.2.1, hok.2.2.2.1, hok.2.2.2.2.1, hval⟩

/-- **The buffer cache.** The pointers always form a circle that contains every buffer once; no two
buffers are for one block; no two processes hold one buffer; and when `bread` returns a buffer, it
holds what the last holder of the block left there, which is what the disk held at boot if no
process has changed it. -/
theorem cache_coherent (h : (system n ι d).Reachable s) :
    (∃ xs, s.links.Linked xs ∧ ∀ b, b ∈ xs) ∧
      (∀ a b, (s.buf a).dev ≠ NODEV → (s.buf a).dev = (s.buf b).dev →
        (s.buf a).sector = (s.buf b).sector → a = b) ∧
      (∀ p q b, b ∈ s.holds p → b ∈ s.holds q → p = q) ∧
      ∀ p dev sector b, s.Returns p dev sector b → dev ≠ NODEV →
        (s.buf b).data = s.left (dev, sector) ∧
        (s.touched (dev, sector) = false → (s.buf b).data = d (dev, sector)) := by
  have hinv := inv_reachable h
  refine ⟨hinv.linked, fun a b hdev h1 h2 => hinv.key a b hdev (Prod.ext h1 h2), hinv.uniq,
    fun p dev sector b hret hdev => ?_⟩
  obtain ⟨-, -, hkey, hfresh, hval⟩ := hinv.returns hret
  have hdevb : (s.buf b).dev ≠ NODEV := by
    rwa [show (s.buf b).dev = dev from congrArg Prod.fst hkey]
  rw [← hkey]
  exact ⟨(hfresh hdevb).1 hval, hinv.origBuf b hdevb hval⟩

end Lemmas

end Model

/-- One process writes a block, and another one reads it. -/
theorem cache_coherent_write : ∃ s : State 2 (Fin 2),
    (system 2 (Fin 2) fun _ => Block.zero).Reachable s ∧ s.Returns 1 ROOTDEV 5 0 ∧
    s.left (ROOTDEV, 5) = Block.zero.setWord 0 7 ∧ (s.buf 0).data = s.left (ROOTDEV, 5) := by
  let writer : Code 2 Unit := do
    let b ← bread ROOTDEV 5
    store b (Block.zero.setWord 0 7)
    bwrite b
    brelse b
  let reader : Code 2 Unit := do
    let b ← bread ROOTDEV 5
    brelse b
  let next (s : State 2 (Fin 2)) : Act 2 (Fin 2) → Option (State 2 (Fin 2))
    | .go p => s.go p
    | .serve p => s.serve p
    | .start _ _ => none
  have hstep (s : State 2 (Fin 2)) (a : Act 2 (Fin 2)) (t : State 2 (Fin 2))
      (h : next s a = some t) : (system 2 (Fin 2) fun _ => Block.zero).step s a t := by
    cases a with
    | go p => exact h
    | serve p => exact h
    | start p c => cases h
  let s0 : State 2 (Fin 2) := boot 2 (Fin 2) (fun _ => Block.zero) ⟨0, 0, false, []⟩
  obtain ⟨t, ht, hidle, hholds, u, hu, hret, hleft⟩ : ∃ t,
      [Act.go 0, .go 0, .go 0, .serve 0, .go 0, .go 0, .go 0, .go 0, .serve 0, .go 0, .go 0].foldlM
        next (s0.setCtl 0 (.run writer)) = some t ∧ t.ctl 1 = .run (.ret ()) ∧
      t.holds 1 = ∅ ∧ ∃ u, (t.setCtl 1 (.run reader)).go 1 = some u ∧
      u.Returns 1 ROOTDEV 5 0 ∧ u.left (ROOTDEV, 5) = Block.zero.setWord 0 7 :=
    ⟨_, rfl, rfl, rfl, _, rfl, Or.inl ⟨_, rfl, rfl⟩, rfl⟩
  have hboot : (system 2 (Fin 2) fun _ => Block.zero).Reachable s0 := .init ⟨_, rfl⟩
  have hw : (system 2 (Fin 2) fun _ => Block.zero).Reachable (s0.setCtl 0 (.run writer)) :=
    hboot.step (l := .start 0 writer) ⟨rfl, fun b _ => ⟨Finset.mem_insert_self b _,
      Finset.mem_insert_self b _, Finset.mem_insert_self b _,
      Finset.notMem_erase b _, trivial⟩, rfl⟩
  have hreach : (system 2 (Fin 2) fun _ => Block.zero).Reachable t := .foldlM hstep hw ht
  have hr : (system 2 (Fin 2) fun _ => Block.zero).Reachable (t.setCtl 1 (.run reader)) := by
    refine hreach.step (l := .start 1 reader) ⟨hidle, fun b _ => ⟨Finset.mem_insert_self b _, ?_,
      trivial⟩, rfl⟩
    have hsub := (inv_reachable hreach).unsaved 1
    rw [hholds] at hsub
    exact fun hb => Finset.notMem_empty b (hsub hb)
  have hfin : (system 2 (Fin 2) fun _ => Block.zero).Reachable u := hr.step (l := .go 1) hu
  exact ⟨u, hfin, hret, hleft, ((cache_coherent hfin).2.2.2 1 ROOTDEV 5 0 hret (by decide)).1⟩

end Xv6.Bcache
