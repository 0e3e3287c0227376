import Xv6.RingBuffer
import Xv6.Transition

/-!
# Pipes

`pipewrite`, `piperead` and `pipeclose` of `pipe.c`, run by any number of processes on one pipe.
A step is what a process does between two points at which another one can run, or less: every
round of a loop, every acquisition and release of the lock of the pipe, and every `sleep` is a
step, so that all interleavings are runs.

The pipe is a ring buffer whose counters are 32-bit numbers. What the writers have stored and the
readers have taken since the pipe was made is kept as ghost state, and so are the calls of
`pipewrite` that each process has finished. Calls do not go on once the page of the pipe has been
freed.

## Main definitions

* `Pc`, `State`: the points in the code at which a process can be, and the state.
* `State.go`: what a process does next.

## Main results

* `inv_step`: the invariant is preserved by every step.
* `pipe_fifo`: **a pipe is a first-in first-out queue of bytes.**
* `sleepers_wait`: **nobody sleeps in vain.**
-/

open Transition Transition.System
open Function (update update_apply update_of_ne update_self)

namespace Xv6.Pipes

/-- `PIPESIZE` (`pipe.c`). -/
def PIPESIZE : ℕ := 512

/-- `struct pipe`, less the lock. The counters `nread` and `nwrite` are 32-bit numbers. -/
structure Pipe extends RingBuffer UInt8 where
  readopen : Bool
  writeopen : Bool

namespace Pipe

/-- `p->nwrite == p->nread + PIPESIZE`. -/
def isFull (p : Pipe) : Bool := p.toRingBuffer.isFull PIPESIZE (2 ^ 32)

/-- `p->nread == p->nwrite`. -/
def isEmpty (p : Pipe) : Bool := p.toRingBuffer.isEmpty

/-- `p->data[p->nwrite++ % PIPESIZE] = b`. -/
def put (p : Pipe) (b : UInt8) : Pipe :=
  { p with toRingBuffer := p.toRingBuffer.put PIPESIZE (2 ^ 32) b }

/-- `p->data[p->nread % PIPESIZE]`. -/
def front (p : Pipe) : UInt8 := p.toRingBuffer.front PIPESIZE

/-- `p->nread++`. -/
def advance (p : Pipe) : Pipe := { p with toRingBuffer := p.toRingBuffer.advance (2 ^ 32) }

end Pipe

/-- The addresses that processes sleep on: `&p->nread` and `&p->nwrite`. -/
inductive Chan
  | nread
  | nwrite
  deriving DecidableEq, Repr

/-- A call `pipewrite(p, addr, n)` that has stored `i` bytes. -/
structure WriteCall where
  addr : ℕ → UInt8
  n : ℤ
  i : ℕ

/-- The bytes that the call has stored. -/
def WriteCall.bytes (c : WriteCall) : List UInt8 := (List.range c.i).map c.addr

/-- The next action of a process. -/
inductive Pc
  /-- not in a call on this pipe -/
  | user
  /-- `pipewrite`: `acquire(&p->lock)`, at the start or at the end of `sleep` -/
  | writeAcquire (c : WriteCall)
  /-- `pipewrite`: the tests of the loops -/
  | writeLoop (c : WriteCall)
  /-- `pipewrite`: `release(&p->lock)`, and `return r` -/
  | writeRelease (c : WriteCall) (r : ℤ)
  /-- `piperead`: `acquire(&p->lock)`, at the start or at the end of `sleep` -/
  | readAcquire (n : ℤ)
  /-- `piperead`: the test of the first loop -/
  | readWait (n : ℤ)
  /-- `piperead`: the tests of the second loop -/
  | readCopy (n : ℤ) (i : ℕ)
  /-- `piperead`: `release(&p->lock)`, and `return r` -/
  | readRelease (n r : ℤ)
  /-- `pipeclose`: `acquire(&p->lock)` -/
  | closeAcquire (writable : Bool)
  /-- `pipeclose`: the flag and the wakeup -/
  | closeFlag (writable : Bool)
  /-- `pipeclose`: `release(&p->lock)` -/
  | closeRelease
  /-- `pipeclose`: `kfree((char*)p)` -/
  | closeFree

/-- A state of the pipe and of all processes. -/
structure State where
  pipe : Pipe
  /-- the process that holds `p->lock` -/
  lock : Option ℕ
  /-- the page of the pipe has been freed -/
  freed : Bool
  pc : ℕ → Pc
  sleeping : ℕ → Option Chan
  killed : ℕ → Bool
  /-- ghost: the bytes stored so far, with the processes that stored them -/
  stored : List (ℕ × UInt8)
  /-- ghost: the bytes taken so far -/
  delivered : List UInt8
  /-- ghost: the finished calls of `pipewrite`, with what they returned -/
  done : ℕ → List (WriteCall × ℤ)

namespace State

/-- Go on at `k`. -/
def setPc (s : State) (p : ℕ) (k : Pc) : State := { s with pc := update s.pc p k }

/-- `acquire(&p->lock)`, if the process is awake and the lock is free. -/
def acquire (s : State) (p : ℕ) (k : Pc) : Option State :=
  if s.lock = none ∧ s.sleeping p = none then
    some { s.setPc p k with lock := some p }
  else none

/-- `wakeup(ch)`. -/
def wakeup (s : State) (ch : Chan) : State :=
  { s with sleeping := fun p => if s.sleeping p = some ch then none else s.sleeping p }

/-- `sleep(ch, &p->lock)`, up to the point where the process waits. -/
def sleep (s : State) (p : ℕ) (ch : Chan) : State :=
  { s with sleeping := update s.sleeping p (some ch), lock := none }

/-- What process `p` does next; `none` if it cannot go on. -/
def go (s : State) (p : ℕ) : Option State :=
  match s.pc p with
  | .user => none
  | .writeAcquire c => s.acquire p (.writeLoop c)
  | .writeLoop c =>
    if c.n ≤ c.i then some ((s.wakeup .nread).setPc p (.writeRelease c c.n))
    else if s.pipe.isFull then
      if s.pipe.readopen = false ∨ s.killed p then some (s.setPc p (.writeRelease c (-1)))
      else some (((s.wakeup .nread).sleep p .nwrite).setPc p (.writeAcquire c))
    else
      some ({ s with
        pipe := s.pipe.put (c.addr c.i)
        stored := s.stored ++ [(p, c.addr c.i)] }.setPc p (.writeLoop { c with i := c.i + 1 }))
  | .writeRelease c r =>
    some ({ s with
      lock := none
      done := update s.done p (s.done p ++ [(c, r)]) }.setPc p .user)
  | .readAcquire n => s.acquire p (.readWait n)
  | .readWait n =>
    if s.pipe.isEmpty ∧ s.pipe.writeopen then
      if s.killed p then some (s.setPc p (.readRelease n (-1)))
      else some ((s.sleep p .nread).setPc p (.readAcquire n))
    else some (s.setPc p (.readCopy n 0))
  | .readCopy n i =>
    if n ≤ i ∨ s.pipe.isEmpty then some ((s.wakeup .nwrite).setPc p (.readRelease n i))
    else
      some ({ s with
        pipe := s.pipe.advance
        delivered := s.delivered ++ [s.pipe.front] }.setPc p (.readCopy n (i + 1)))
  | .readRelease _ _ => some ({ s with lock := none }.setPc p .user)
  | .closeAcquire w => s.acquire p (.closeFlag w)
  | .closeFlag w =>
    if w then
      some (({ s with pipe := { s.pipe with writeopen := false } }.wakeup .nread).setPc p
        .closeRelease)
    else
      some (({ s with pipe := { s.pipe with readopen := false } }.wakeup .nwrite).setPc p
        .closeRelease)
  | .closeRelease =>
    if s.pipe.readopen = false ∧ s.pipe.writeopen = false then
      some ({ s with lock := none }.setPc p .closeFree)
    else some ({ s with lock := none }.setPc p .user)
  | .closeFree => some ({ s with freed := true }.setPc p .user)

end State

/-- The steps: a process starts a call, goes on with it, or is killed. -/
inductive Act
  | write (p : ℕ) (addr : ℕ → UInt8) (n : ℤ)
  | read (p : ℕ) (n : ℤ)
  | close (p : ℕ) (writable : Bool)
  | go (p : ℕ)
  | kill (p : ℕ)

/-- A process that is in no call starts one at `k`. -/
def State.start (s : State) (p : ℕ) (k : Pc) : Option State :=
  match s.pc p with
  | .user => some (s.setPc p k)
  | _ => none

/-- The state after a step. -/
def State.next (s : State) : Act → Option State
  | .write p addr n => s.start p (.writeAcquire ⟨addr, n, 0⟩)
  | .read p n => s.start p (.readAcquire n)
  | .close p w => s.start p (.closeAcquire w)
  | .go p => if s.freed then none else s.go p
  | .kill p => some { s with
      killed := update s.killed p true
      sleeping := update s.sleeping p none }

/-- The state after `pipealloc`, with `data` whatever the page held before. -/
def made (data : ℕ → UInt8) : State where
  pipe := { data := data, nread := 0, nwrite := 0, readopen := true, writeopen := true }
  lock := none
  freed := false
  pc _ := .user
  sleeping _ := none
  killed _ := false
  stored := []
  delivered := []
  done _ := []

/-- The runs on a pipe. -/
def system : System State Act where
  init s := ∃ data, s = made data
  step s a t := s.next a = some t

/-! ### The invariant -/

/-- The points in the code at which a process holds the lock. -/
def Pc.Locked : Pc → Prop
  | .writeLoop _ | .writeRelease _ _ | .readWait _ | .readCopy _ _ | .readRelease _ _
  | .closeFlag _ | .closeRelease => True
  | _ => False

/-- The bytes that the current call has stored. -/
def Pc.sent : Pc → List UInt8
  | .writeAcquire c | .writeLoop c | .writeRelease c _ => c.bytes
  | _ => []

/-- A call that returns `n` has stored `n` bytes. -/
def WriteCall.Complete (c : WriteCall) (r : ℤ) : Prop := r = c.n → 0 ≤ c.n → (c.i : ℤ) = c.n

/-- What a process knows at a point in the code. -/
def Pc.Knows (p : Pipe) : Pc → Prop
  | .writeAcquire c | .writeLoop c => 0 ≤ c.n → (c.i : ℤ) ≤ c.n
  | .writeRelease c r => c.Complete r
  | .readCopy _ i => i = 0 → p.isEmpty = true → p.writeopen = false
  | .readRelease n r => 0 < n → r = 0 → p.isEmpty = true ∧ p.writeopen = false
  | _ => True

namespace State

/-- The bytes stored by process `p`. -/
def bytesOf (s : State) (p : ℕ) : List UInt8 :=
  (s.stored.filter (·.1 = p)).map Prod.snd

/-- The bytes stored by the finished calls of process `p`, in the order of the calls. -/
def finished (s : State) (p : ℕ) : List UInt8 := (s.done p).flatMap fun x => x.1.bytes

/-- The bytes stored and not taken yet are in the buffer. -/
def Fifo (s : State) : Prop :=
  ∃ q, s.stored.map Prod.snd = s.delivered ++ q ∧
    RingBuffer.Holds PIPESIZE (2 ^ 32) s.pipe.toRingBuffer q

end State

/-- **The invariant.** -/
structure Inv (s : State) : Prop where
  fifo : s.Fifo
  lock : ∀ p, (s.pc p).Locked → s.lock = some p
  order : ∀ p, s.bytesOf p = s.finished p ++ (s.pc p).sent
  complete : ∀ p, ∀ x ∈ s.done p, x.1.Complete x.2
  knows : ∀ p, (s.pc p).Knows s.pipe

/-- What a process without the lock knows does not depend on the pipe. -/
theorem Pc.Knows.congr {k : Pc} {p p' : Pipe} (h : k.Knows p) (hk : ¬ k.Locked) : k.Knows p' := by
  cases k <;> first | exact h | exact absurd trivial hk

section Step

variable {s t : State} {p : ℕ} {k : Pc}

/-- A step of process `p` keeps the invariant when it does so for `p`, and leaves the other
processes, the lock unless `p` holds or takes it, and the pipe unless `p` holds the lock. -/
theorem Inv.of_step (h : Inv s) (hpc : t.pc = update s.pc p k)
    (hpipe : t.pipe = s.pipe ∨ s.lock = some p)
    (hlock : t.lock = s.lock ∨ s.lock = none ∨ s.lock = some p)
    (hmine : k.Locked → t.lock = some p) (hknows : k.Knows t.pipe)
    (hfifo : t.Fifo) (hstored : ∀ a, a ≠ p → t.bytesOf a = s.bytesOf a)
    (hdone : ∀ a, a ≠ p → t.done a = s.done a)
    (horder : t.bytesOf p = t.finished p ++ k.sent)
    (hcomplete : ∀ x ∈ t.done p, x.1.Complete x.2) : Inv t where
  fifo := hfifo
  lock a ha := by
    rw [hpc, update_apply] at ha
    split_ifs at ha with hap
    · rw [hap]
      exact hmine ha
    · exact held_of_ne hlock (h.lock a ha) hap
  order a := by
    rw [hpc, update_apply]
    split_ifs with hap
    · rwa [hap]
    · rw [hstored a hap, State.finished, hdone a hap]
      exact h.order a
  complete a := by
    by_cases hap : a = p
    · rwa [hap]
    · rw [hdone a hap]
      exact h.complete a
  knows a := by
    rw [hpc, update_apply]
    split_ifs with hap
    · exact hknows
    · rcases hpipe with he | hl
      · rw [he]
        exact h.knows a
      · refine (h.knows a).congr fun ha => hap ?_
        rw [h.lock a ha] at hl
        exact Option.some.inj hl

/-- A step that only moves process `p` to another point in the code, or takes or gives up the
lock. -/
theorem Inv.move (h : Inv s) (hpc : t.pc = update s.pc p k) (hpipe : t.pipe = s.pipe)
    (hlock : t.lock = s.lock ∨ s.lock = none ∨ s.lock = some p)
    (hmine : k.Locked → t.lock = some p) (hknows : k.Knows s.pipe)
    (hstored : t.stored = s.stored) (hdelivered : t.delivered = s.delivered)
    (hdone : t.done = s.done) (hsent : k.sent = (s.pc p).sent) : Inv t := by
  have hbytes (a : ℕ) : t.bytesOf a = s.bytesOf a := by rw [State.bytesOf, hstored]; rfl
  refine h.of_step hpc (Or.inl hpipe) hlock hmine (hpipe ▸ hknows) ?_ (fun a _ => hbytes a)
    (fun a _ => by rw [hdone]) ?_ ?_
  · rw [State.Fifo, hstored, hdelivered, hpipe]
    exact h.fifo
  · rw [hbytes, State.finished, hdone, hsent]
    exact h.order p
  · rw [hdone]
    exact h.complete p

/-- A process gets the lock. -/
theorem inv_acquire (h : Inv s) (hknows : k.Knows s.pipe) (hsent : k.sent = (s.pc p).sent)
    (hstep : s.acquire p k = some t) : Inv t := by
  rw [State.acquire] at hstep
  split_ifs at hstep with hfree
  cases hstep
  exact h.move rfl rfl (Or.inr (Or.inl hfree.1)) (fun _ => rfl) hknows rfl rfl rfl hsent

/-- The buffer, with the distance at which its counters wrap around. -/
theorem pipesize_lt : PIPESIZE < 2 ^ 32 := by decide

theorem pipesize_dvd : PIPESIZE ∣ 2 ^ 32 := by decide

/-- Storing a byte. -/
theorem fifo_put (h : s.Fifo) (hfull : s.pipe.isFull = false) (b : UInt8) :
    State.Fifo { s with pipe := s.pipe.put b, stored := s.stored ++ [(p, b)] } := by
  obtain ⟨q, hq, hold⟩ := h
  have hlt : q.length < PIPESIZE := by
    refine lt_of_le_of_ne hold.length_le fun he => ?_
    rw [Pipe.isFull, (hold.isFull_iff pipesize_lt).mpr he] at hfull
    cases hfull
  exact ⟨q ++ [b], by simp [hq], hold.put pipesize_dvd hlt b⟩

/-- Taking a byte. -/
theorem fifo_advance (h : s.Fifo) (hempty : s.pipe.isEmpty = false) :
    State.Fifo { s with pipe := s.pipe.advance, delivered := s.delivered ++ [s.pipe.front] } := by
  obtain ⟨q, hq, hold⟩ := h
  cases q with
  | nil =>
    rw [Pipe.isEmpty, (hold.isEmpty_iff pipesize_lt).mpr rfl] at hempty
    cases hempty
  | cons b q =>
    have hfront : s.pipe.front = b := hold.front
    refine ⟨q, ?_, hold.advance pipesize_dvd⟩
    rw [hfront, List.append_assoc]
    exact hq

/-- One more byte in the log of its process. -/
theorem bytesOf_append {b : UInt8} (h : t.stored = s.stored ++ [(p, b)]) (a : ℕ) :
    t.bytesOf a = if a = p then s.bytesOf a ++ [b] else s.bytesOf a := by
  rw [State.bytesOf, h]
  by_cases ha : a = p
  · subst ha
    simp [State.bytesOf, List.filter_append]
  · simp [State.bytesOf, List.filter_append, ha, Ne.symm ha]

theorem bytes_succ (c : WriteCall) :
    WriteCall.bytes { c with i := c.i + 1 } = c.bytes ++ [c.addr c.i] := by
  simp [WriteCall.bytes, List.range_succ]

/-! ### Steps of the calls -/

/-- A round of `pipewrite`: it stores a byte, goes to sleep, or gives up. -/
theorem inv_writeLoop (h : Inv s) {c : WriteCall} (hpc : s.pc p = .writeLoop c)
    (hstep : s.go p = some t) : Inv t := by
  have hlock : s.lock = some p := h.lock p (by rw [hpc]; trivial)
  have hle : 0 ≤ c.n → (c.i : ℤ) ≤ c.n := by simpa [hpc, Pc.Knows] using h.knows p
  have hsent : (s.pc p).sent = c.bytes := by rw [hpc]; rfl
  rw [State.go, hpc] at hstep
  simp only at hstep
  split_ifs at hstep with hend hfull hquit <;> cases hstep
  · -- all bytes are stored
    exact h.move rfl rfl (Or.inl rfl) (fun _ => hlock) (fun _ hn => le_antisymm (hle hn) hend)
      rfl rfl rfl hsent.symm
  · -- the pipe is full and nobody will read, or the process has been killed
    refine h.move rfl rfl (Or.inl rfl) (fun _ => hlock) ?_ rfl rfl rfl hsent.symm
    intro hr hn
    omega
  · -- the pipe is full: sleep
    exact h.move rfl rfl (Or.inr (Or.inr hlock)) False.elim hle rfl rfl rfl hsent.symm
  · -- one more byte
    refine h.of_step rfl (Or.inr hlock) (Or.inl rfl) (fun _ => hlock) ?_
      (fifo_put h.fifo (by simpa using hfull) _) (fun a ha => ?_) (fun a _ => rfl) ?_ (h.complete p)
    · intro hn
      push_cast
      omega
    · rw [bytesOf_append rfl, if_neg ha]
    · rw [bytesOf_append rfl, if_pos rfl, h.order p, hsent, List.append_assoc, ← bytes_succ]
      rfl

/-- `pipewrite` returns. -/
theorem inv_writeRelease (h : Inv s) {c : WriteCall} {r : ℤ} (hpc : s.pc p = .writeRelease c r)
    (hstep : s.go p = some t) : Inv t := by
  have hlock : s.lock = some p := h.lock p (by rw [hpc]; trivial)
  have hcomp : c.Complete r := by simpa [hpc, Pc.Knows] using h.knows p
  rw [State.go, hpc] at hstep
  cases hstep
  refine h.of_step rfl (Or.inl rfl) (Or.inr (Or.inr hlock)) False.elim trivial h.fifo
    (fun a _ => rfl) (fun a ha => update_of_ne ha _ _) ?_ ?_
  · have hsent : (s.pc p).sent = c.bytes := by rw [hpc]; rfl
    change s.bytesOf p = (update s.done p _ p).flatMap _ ++ []
    rw [update_self, h.order p, hsent]
    simp [State.finished]
  · change ∀ x ∈ update s.done p _ p, _
    rw [update_self]
    intro x hx
    rcases List.mem_append.mp hx with hx | hx
    · exact h.complete p x hx
    · obtain rfl := List.mem_singleton.mp hx
      exact hcomp

/-- A round of the first loop of `piperead`: it goes to sleep, gives up, or goes on to copy. -/
theorem inv_readWait (h : Inv s) {n : ℤ} (hpc : s.pc p = .readWait n)
    (hstep : s.go p = some t) : Inv t := by
  have hlock : s.lock = some p := h.lock p (by rw [hpc]; trivial)
  have hsent : (s.pc p).sent = [] := by rw [hpc]; rfl
  rw [State.go, hpc] at hstep
  simp only at hstep
  split_ifs at hstep with hwait hkilled <;> cases hstep
  · refine h.move rfl rfl (Or.inl rfl) (fun _ => hlock) ?_ rfl rfl rfl hsent.symm
    intro _ hr
    omega
  · exact h.move rfl rfl (Or.inr (Or.inr hlock)) False.elim trivial rfl rfl rfl hsent.symm
  · refine h.move rfl rfl (Or.inl rfl) (fun _ => hlock) ?_ rfl rfl rfl hsent.symm
    intro _ hempty
    exact Bool.eq_false_iff.mpr fun hopen => hwait ⟨hempty, hopen⟩

/-- A round of the second loop of `piperead`. -/
theorem inv_readCopy (h : Inv s) {n : ℤ} {i : ℕ} (hpc : s.pc p = .readCopy n i)
    (hstep : s.go p = some t) : Inv t := by
  have hlock : s.lock = some p := h.lock p (by rw [hpc]; trivial)
  have hknows : i = 0 → s.pipe.isEmpty = true → s.pipe.writeopen = false := by
    simpa [hpc, Pc.Knows] using h.knows p
  have hsent : (s.pc p).sent = [] := by rw [hpc]; rfl
  rw [State.go, hpc] at hstep
  simp only at hstep
  split_ifs at hstep with hend <;> cases hstep
  · refine h.move rfl rfl (Or.inl rfl) (fun _ => hlock) ?_ rfl rfl rfl hsent.symm
    intro hn hi
    have hempty : s.pipe.isEmpty = true := hend.resolve_left (by omega)
    exact ⟨hempty, hknows (by omega) hempty⟩
  · rw [not_or] at hend
    refine h.of_step rfl (Or.inr hlock) (Or.inl rfl) (fun _ => hlock) ?_
      (fifo_advance h.fifo (by simpa using hend.2)) (fun a _ => rfl) (fun a _ => rfl) ?_
      (h.complete p)
    · intro h0
      omega
    · refine (h.order p).trans ?_
      rw [hsent]
      rfl

/-- A step of `pipeclose` changes a flag. -/
theorem inv_closeFlag (h : Inv s) {w : Bool} (hpc : s.pc p = .closeFlag w)
    (hstep : s.go p = some t) : Inv t := by
  have hlock : s.lock = some p := h.lock p (by rw [hpc]; trivial)
  have hsent : (s.pc p).sent = [] := by rw [hpc]; rfl
  rw [State.go, hpc] at hstep
  simp only at hstep
  split_ifs at hstep <;> cases hstep
  all_goals
    refine h.of_step rfl (Or.inr hlock) (Or.inl rfl) (fun _ => hlock) trivial h.fifo
      (fun a _ => rfl) (fun a _ => rfl) ?_ (h.complete p)
    refine (h.order p).trans ?_
    rw [hsent]
    rfl

/-- A step that leaves a call without further effect: the lock is given up, or the page is
freed. -/
theorem inv_leave (h : Inv s) (hlocked : (s.pc p).Locked ∨ t.lock = s.lock)
    (ht : t = { s with lock := t.lock, freed := t.freed, pc := update s.pc p k })
    (hk : k = .user ∨ k = .closeFree) (hsent : (s.pc p).sent = []) : Inv t := by
  refine h.move (p := p) (k := k) (by rw [ht]) (by rw [ht]) ?_ ?_ ?_ (by rw [ht]) (by rw [ht])
    (by rw [ht]) ?_
  · exact hlocked.elim (fun hl => Or.inr (Or.inr (h.lock p hl))) Or.inl
  · rcases hk with rfl | rfl <;> exact False.elim
  · rcases hk with rfl | rfl <;> trivial
  · rw [hsent]
    rcases hk with rfl | rfl <;> rfl

/-- **What a process does next keeps the invariant.** -/
theorem inv_go (h : Inv s) (hstep : s.go p = some t) : Inv t := by
  cases hpc : s.pc p with
  | user => simp [State.go, hpc] at hstep
  | writeAcquire c =>
    have hknows := h.knows p
    rw [hpc] at hknows
    rw [State.go, hpc] at hstep
    exact inv_acquire (k := .writeLoop c) h hknows (by rw [hpc]; rfl) hstep
  | writeLoop c => exact inv_writeLoop h hpc hstep
  | writeRelease c r => exact inv_writeRelease h hpc hstep
  | readAcquire n =>
    rw [State.go, hpc] at hstep
    exact inv_acquire (k := .readWait n) h trivial (by rw [hpc]; rfl) hstep
  | readWait n => exact inv_readWait h hpc hstep
  | readCopy n i => exact inv_readCopy h hpc hstep
  | readRelease n r =>
    rw [State.go, hpc] at hstep
    cases hstep
    exact inv_leave h (Or.inl (by rw [hpc]; trivial)) rfl (Or.inl rfl) (by rw [hpc]; rfl)
  | closeAcquire w =>
    rw [State.go, hpc] at hstep
    exact inv_acquire (k := .closeFlag w) h trivial (by rw [hpc]; rfl) hstep
  | closeFlag w => exact inv_closeFlag h hpc hstep
  | closeRelease =>
    rw [State.go, hpc] at hstep
    simp only at hstep
    split_ifs at hstep <;> cases hstep
    · exact inv_leave h (Or.inl (by rw [hpc]; trivial)) rfl (Or.inr rfl) (by rw [hpc]; rfl)
    · exact inv_leave h (Or.inl (by rw [hpc]; trivial)) rfl (Or.inl rfl) (by rw [hpc]; rfl)
  | closeFree =>
    rw [State.go, hpc] at hstep
    cases hstep
    exact inv_leave h (Or.inr rfl) rfl (Or.inl rfl) (by rw [hpc]; rfl)

/-- A process starts a call. -/
theorem inv_start (h : Inv s) (hk : ¬ k.Locked) (hknows : k.Knows s.pipe) (hsent : k.sent = [])
    (hstep : s.start p k = some t) : Inv t := by
  cases hpc : s.pc p with
  | user =>
    rw [State.start, hpc] at hstep
    cases hstep
    refine h.move rfl rfl (Or.inl rfl) (fun hl => absurd hl hk) hknows rfl rfl rfl ?_
    rw [hpc, hsent]
    rfl
  | _ => simp [State.start, hpc] at hstep

/-- **Every step keeps the invariant.** -/
theorem inv_step {a : Act} (h : Inv s) (hstep : s.next a = some t) : Inv t := by
  cases a with
  | write p addr n =>
    exact inv_start (k := .writeAcquire ⟨addr, n, 0⟩) h id (fun hn => by simpa using hn) rfl hstep
  | read p n => exact inv_start (k := .readAcquire n) h id trivial rfl hstep
  | close p w => exact inv_start (k := .closeAcquire w) h id trivial rfl hstep
  | go p =>
    rw [State.next] at hstep
    split_ifs at hstep
    exact inv_go h hstep
  | kill p =>
    cases hstep
    exact { h with }

/-- A new pipe. -/
theorem inv_made (data : ℕ → UInt8) : Inv (made data) where
  fifo := ⟨[], rfl, RingBuffer.holds_nil (Nat.two_pow_pos 32) rfl⟩
  lock _ h := h.elim
  order _ := rfl
  complete _ x hx := by cases hx
  knows _ := trivial

theorem inv_reachable (h : system.Reachable s) : Inv s := by
  refine h.invariant (I := Inv) ?_ fun s a t hs hstep => inv_step hs hstep
  rintro _ ⟨data, rfl⟩
  exact inv_made data

/-- **A pipe is a first-in first-out queue of bytes.** In every state of every run, the counters
are at most `PIPESIZE` apart modulo `2 ^ 32`; the bytes delivered are a prefix of the bytes
stored; the bytes that a process has stored are those of its finished calls, in the order of the
calls, and then those of its current one; a `pipewrite` that returned `n` has stored its `n`
bytes; and a `piperead` of `n > 0` bytes that is about to return 0 has found the write end
closed and every stored byte delivered. -/
theorem pipe_fifo (h : system.Reachable s) :
    (s.pipe.nwrite + (2 ^ 32 - s.pipe.nread)) % 2 ^ 32 ≤ PIPESIZE ∧
    s.delivered <+: s.stored.map Prod.snd ∧
    (∀ p, s.bytesOf p = s.finished p ++ (s.pc p).sent) ∧
    (∀ p, ∀ x ∈ s.done p, x.2 = x.1.n → 0 ≤ x.1.n →
      x.1.bytes = (List.range x.1.n.toNat).map x.1.addr) ∧
    ∀ p n, 0 < n → s.pc p = .readRelease n 0 →
      s.pipe.writeopen = false ∧ s.delivered = s.stored.map Prod.snd := by
  have hinv := inv_reachable h
  obtain ⟨q, hq, hold⟩ := hinv.fifo
  refine ⟨?_, ⟨q, hq.symm⟩, hinv.order, fun p x hx hr hn => ?_, fun p n hn hpc => ?_⟩
  · rw [hold.sub_mod pipesize_lt]
    exact hold.length_le
  · have hi : (x.1.i : ℤ) = x.1.n := hinv.complete p x hx hr hn
    rw [WriteCall.bytes, ← hi, Int.toNat_natCast]
  · have hknows := hinv.knows p
    rw [hpc] at hknows
    obtain ⟨hempty, hclosed⟩ := hknows hn rfl
    obtain rfl : q = [] := (hold.isEmpty_iff pipesize_lt).mp hempty
    exact ⟨hclosed, by rw [hq, List.append_nil]⟩

/-- One byte is written, the write end is closed, the byte is read, and a further `piperead` finds
the end of the file. -/
theorem pipe_fifo_eof : ∃ s, system.Reachable s ∧ s.pc 1 = .readRelease 5 0 ∧
    s.stored = [(0, 7)] ∧ s.pipe.writeopen = false ∧ s.delivered = s.stored.map Prod.snd := by
  let run : List Act :=
    [.write 0 (fun _ => 7) 1, .go 0, .go 0, .go 0, .go 0, .close 0 true, .go 0, .go 0, .go 0,
      .read 1 5, .go 1, .go 1, .go 1, .go 1, .go 1, .read 1 5, .go 1, .go 1, .go 1]
  obtain ⟨s, hrun, hpc, hstored⟩ : ∃ s, run.foldlM State.next (made fun _ => 0) = some s ∧
      s.pc 1 = .readRelease 5 0 ∧ s.stored = [(0, 7)] := ⟨_, rfl, rfl, rfl⟩
  have hmade : system.Reachable (made fun _ => 0) := .init ⟨_, rfl⟩
  have hreach : system.Reachable s := hmade.foldlM (fun _ _ _ h => h) hrun
  exact ⟨s, hreach, hpc, hstored, (pipe_fifo hreach).2.2.2.2 1 5 (by decide) hpc⟩

/-! ### Sleeping -/

/-- Who sleeps has a reason to, or a process is in the loop after which it wakes them up. -/
structure Waits (s : State) : Prop where
  write : ∀ p, s.sleeping p = some .nwrite →
    (s.pipe.isFull = true ∧ s.pipe.readopen = true) ∨ ∃ q n i, s.pc q = .readCopy n i
  read : (∀ p, s.killed p = false) → s.pipe.readopen = true → ∀ p, s.sleeping p = some .nread →
    (s.pipe.isEmpty = true ∧ s.pipe.writeopen = true) ∨ ∃ q c, s.pc q = .writeLoop c

/-- A step of a process loses no wakeup. -/
theorem Waits.go (h : Waits s) (hgo : s.go p = some t) : Waits t := by
  obtain ⟨hw, hr⟩ := h
  rw [State.go] at hgo
  split at hgo
  case h_7 n i hpc =>
    split_ifs at hgo with hend <;> cases hgo
    · constructor <;> simp only [State.setPc, State.wakeup, update_apply] <;> grind
    · -- a byte has been taken: `p` wakes up the writers later, and a writer the readers
      refine ⟨fun _ _ => Or.inr ⟨p, n, i + 1, update_self ..⟩, fun hk ho q hq => ?_⟩
      obtain ⟨r, c, hr⟩ := (hr hk ho q hq).resolve_left fun h => hend (Or.inr h.1)
      exact Or.inr ⟨r, c, (update_of_ne (by grind) ..).trans hr⟩
  all_goals
    (try simp only [State.acquire] at hgo)
    (try split_ifs at hgo) <;> cases hgo <;> constructor <;>
      simp only [State.setPc, State.wakeup, State.sleep, update_apply] <;>
      grind -linarith [Pipe.isFull, Pipe.isEmpty]

/-- No step loses a wakeup. -/
theorem Waits.next {a : Act} (h : Waits s) (hstep : s.next a = some t) : Waits t := by
  cases a with
  | go p =>
    rw [State.next] at hstep
    split_ifs at hstep
    exact h.go hstep
  | kill p =>
    cases hstep
    exact ⟨fun q hq => h.write q (by grind), fun hk => absurd (hk p) (by simp)⟩
  | write p | read p | close p =>
    rw [State.next, State.start] at hstep
    split at hstep <;> cases hstep
    constructor <;> simp only [State.setPc, update_apply] <;> grind [Waits]

/-- **Nobody sleeps in vain.** While the lock is free, a sleeping writer has a full pipe and an open
read end. A sleeping reader has an empty pipe and an open write end, if nobody has been killed and
the read end is open: a `pipewrite` that returns -1 wakes up no reader of the bytes it stored. -/
theorem sleepers_wait (h : system.Reachable s) (hlock : s.lock = none) :
    (∀ p, s.sleeping p = some .nwrite → s.pipe.isFull = true ∧ s.pipe.readopen = true) ∧
      ((∀ p, s.killed p = false) → s.pipe.readopen = true → ∀ p, s.sleeping p = some .nread →
        s.pipe.isEmpty = true ∧ s.pipe.writeopen = true) := by
  have hwaits : Waits s := by
    refine h.invariant (I := Waits) ?_ fun _ _ _ hs hstep => hs.next hstep
    rintro _ ⟨data, rfl⟩
    exact ⟨nofun, fun _ _ => nofun⟩
  have hnone (p : ℕ) (hp : (s.pc p).Locked) : False := by
    simpa [hlock] using (inv_reachable h).lock p hp
  refine ⟨fun p hp => (hwaits.write p hp).resolve_right ?_, fun hk ho p hp =>
    (hwaits.read hk ho p hp).resolve_right ?_⟩
  · rintro ⟨q, n, i, hq⟩
    exact hnone q (by rw [hq]; trivial)
  · rintro ⟨q, c, hq⟩
    exact hnone q (by rw [hq]; trivial)

/-- A reader of an empty pipe is asleep. -/
theorem sleepers_wait_read : ∃ s, system.Reachable s ∧ s.sleeping 1 = some .nread ∧
    s.pipe.isEmpty = true ∧ s.pipe.writeopen = true := by
  have hmade : system.Reachable (made fun _ => 0) := .init ⟨_, rfl⟩
  have hrun : [.read 1 5, .go 1, .go 1].foldlM State.next (made fun _ => 0) = some _ := rfl
  have h := hmade.foldlM (fun _ _ _ h => h) hrun
  exact ⟨_, h, rfl, (sleepers_wait h rfl).2 (fun _ => rfl) rfl 1 rfl⟩

end Step

end Xv6.Pipes
