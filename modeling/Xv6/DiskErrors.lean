import Xv6.Bcache

/-!
# Disk Errors

The buffer cache over a disk that can fail. When a request is completed, `ideintr` looks at the
status of the disk only if it is a read, and there only to leave out the transfer: the buffer is
`B_VALID` and not `B_DIRTY` in any case.

## Main results

* `valid_holds_sector`: **a valid buffer holds its sector**, in every run without disk errors.
* `read_error`: after a read with an error `bread` returns what was in the buffer before.
-/

open Transition Transition.System
open Function (update)

namespace Xv6.Bcache

variable {n : ℕ} {ι : Type} [DecidableEq ι]

/-- `ideintr` for the request of process `p`, when the disk has the status `IDE_DF` or `IDE_ERR`. A
write has left `v` in the sector. -/
def State.serveError (s : State n ι) (p : ι) (v : Block) : Option (State n ι) :=
  match s.ctl p with
  | .wait b _ =>
    let u := s.buf b
    if u.dirty then
      some ({ s with
        disk := update s.disk u.key v
        unsaved := update s.unsaved p ((s.unsaved p).erase b) }.setBuf b
          { u with valid := true, dirty := false } |>.wakeup b)
    else if u.valid then none
    else some ((s.setBuf b { u with valid := true }).wakeup b)
  | _ => none

/-- A step as before, in which the disk makes no error, or the end of a request with an error. -/
inductive DiskAct (n : ℕ) (ι : Type)
  | ok (a : Act n ι)
  | error (p : ι) (v : Block)

/-- The runs over the disk `d`, with errors. -/
def errorSystem (n : ℕ) (ι : Type) [DecidableEq ι] (d : ℕ × ℕ → Block) :
    System (State n ι) (DiskAct n ι) where
  init := (system n ι d).init
  step s e t :=
    match e with
    | .ok a => (system n ι d).step s a t
    | .error p v => s.serveError p v = some t

/-- The disk makes no error. -/
def NoError (_ : State n ι) (e : DiskAct n ι) : Prop := ∃ a, e = .ok a

variable {d : ℕ × ℕ → Block} {s t : State n ι}

/-- A run without errors is one of the system without them. -/
theorem reachable_of_noError (h : ((errorSystem n ι d).restrict NoError).Reachable s) :
    (system n ι d).Reachable s := by
  induction h with
  | init h0 => exact .init h0
  | step _ hs ih =>
    obtain ⟨hstep, a, rfl⟩ := hs
    exact ih.step hstep

theorem reachable_ok {a : Act n ι} (h : ((errorSystem n ι d).restrict NoError).Reachable s)
    (hstep : (system n ι d).step s a t) : ((errorSystem n ι d).restrict NoError).Reachable t :=
  .step (l := .ok a) h ⟨hstep, a, rfl⟩

/-- **A valid buffer holds its sector.** In every run without disk errors, a buffer that is
`B_VALID`, not `B_DIRTY`, and not one that its holder has changed and is about to write, has the
data of its sector on the disk; and so has a buffer that `bread` returns, if it is not `B_DIRTY`. -/
theorem valid_holds_sector (h : ((errorSystem n ι d).restrict NoError).Reachable s) (b : Fin n)
    (hdev : (s.buf b).dev ≠ NODEV) (hdirty : (s.buf b).dirty = false) :
    ((s.buf b).valid = true → (∀ p, b ∉ s.unsaved p) → (s.buf b).data = s.disk (s.buf b).key) ∧
      ∀ p dev sector, s.Returns p dev sector b → (s.buf b).data = s.disk (dev, sector) := by
  have hinv := inv_reachable (reachable_of_noError h)
  refine ⟨fun hval hU => hinv.clean b hdev hval hdirty hU, fun p dev sector hret => ?_⟩
  obtain ⟨hb, hU, hkey, -, hval⟩ := hinv.returns hret
  rw [← hkey]
  refine hinv.clean b hdev hval hdirty fun q hq => hU ?_
  -- nobody else holds the buffer
  rwa [hinv.uniq p q b hb (hinv.unsaved q hq)]

/-- A process that reads block 5. -/
def reader : Code 1 Unit := do
  let b ← bread ROOTDEV 5
  brelse b

/-- A disk without a block of zeros. -/
def sevens (_ : ℕ × ℕ) : Block := Block.zero.setWord 0 7

/-- The process waits for the disk; the request can end well or not. -/
theorem exists_waiting : ∃ s : State 1 Unit,
    ((errorSystem 1 Unit sevens).restrict NoError).Reachable s ∧
      (∃ t, s.serve () = some t ∧ t.Returns () ROOTDEV 5 0 ∧ (t.buf 0).dirty = false ∧
        (t.buf 0).dev = ROOTDEV) ∧
      ∃ t, s.serveError () Block.zero = some t ∧ t.Returns () ROOTDEV 5 0 ∧
        t.buf 0 = ⟨true, true, false, ROOTDEV, 5, Block.zero⟩ ∧ t.disk = sevens := by
  have hboot : ((errorSystem 1 Unit sevens).restrict NoError).Reachable
      (boot 1 Unit sevens ⟨0, 0, false, []⟩) := .init ⟨_, rfl⟩
  have hcall := reachable_ok hboot (a := .start () reader) ⟨rfl, fun b _ =>
    ⟨Finset.mem_insert_self b _, Finset.notMem_empty b, trivial⟩, rfl⟩
  have hget := reachable_ok hcall (a := .go ()) rfl
  have hcheck := reachable_ok hget (a := .go ()) rfl
  have hwait := reachable_ok hcheck (a := .go ()) rfl
  exact ⟨_, hwait, ⟨_, rfl, Or.inr ⟨_, rfl, rfl, rfl⟩, rfl, rfl⟩,
    _, rfl, Or.inr ⟨_, rfl, rfl, rfl⟩, rfl, rfl⟩

/-- The block is read. -/
theorem valid_holds_sector_read : ∃ s : State 1 Unit,
    ((errorSystem 1 Unit sevens).restrict NoError).Reachable s ∧ s.Returns () ROOTDEV 5 0 ∧
      (s.buf 0).data = s.disk (ROOTDEV, 5) := by
  obtain ⟨s, hs, ⟨t, ht, hret, hdirty, hdev⟩, -⟩ := exists_waiting
  have hreach := reachable_ok hs (a := .serve ()) ht
  exact ⟨t, hreach, hret,
    (valid_holds_sector hreach 0 (by rw [hdev]; decide) hdirty).2 () ROOTDEV 5 hret⟩

/-- The disk reports an error, and the buffer counts as read: it is valid and not dirty, and has the
zeros that were in it before. -/
theorem read_error : ∃ s : State 1 Unit, (errorSystem 1 Unit sevens).Reachable s ∧
    s.Returns () ROOTDEV 5 0 ∧ (s.buf 0).valid = true ∧ (s.buf 0).dirty = false ∧
      (s.buf 0).key = (ROOTDEV, 5) ∧ (s.buf 0).data ≠ s.disk (ROOTDEV, 5) := by
  obtain ⟨s, hs, -, t, ht, hret, hbuf, hdisk⟩ := exists_waiting
  refine ⟨t, hs.mono.step (l := .error () Block.zero) ht, hret, ?_⟩
  rw [hbuf, hdisk]
  refine ⟨rfl, rfl, rfl, fun h => ?_⟩
  have hword := congrArg (fun v => Block.word v 0) h
  exact absurd hword (by decide)

end Xv6.Bcache
