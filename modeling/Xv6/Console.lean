import Xv6.RingBuffer
import Xv6.Transition

/-!
# The Console

`consoleintr` and `consoleread` of `console.c`: a line discipline on a ring buffer with three
free-running 32-bit indices, for reading (`r`), for what has been committed (`w`) and for what is
being edited (`e`). The interrupt handler holds the lock of the buffer while it handles all
characters that are there; a reader gives it up when it sleeps. A step of a reader is one round of
its loop, so that all interleavings are runs.

What the indices mean is a `Line`: the queue of the committed bytes, and the line that is being
edited. `Input.line` reads it off the buffer, and `Line.type` and `Line.round` say what typing and
reading are for.

The committed bytes, the bytes taken by the readers and the finished calls are kept as ghost state.

## Main results

* `Input.Holds.intr`: typing a character is `Line.type`.
* `inv_go`: the step lemma of the readers.
* `line_discipline`: **the indices simulate a queue and a line**, and readers get the committed
  bytes in order, each once.
-/

open Transition Transition.System
open Function (update update_apply update_of_ne update_self)

namespace Xv6.Console

/-- `INPUT_BUF` (`console.c`). -/
def INPUT_BUF : ℕ := 128

/-- `C(x)`: Control-x. -/
def ctrl (x : Char) : UInt8 := x.toUInt8 - '@'.toUInt8

/-- `'\n'`. -/
def newline : UInt8 := '\n'.toUInt8

/-- `input`, less the lock. The indices are 32-bit numbers. -/
structure Input where
  buf : ℕ → UInt8
  r : ℕ
  w : ℕ
  e : ℕ

namespace Input

/-- `input.e--`. -/
def backspace (s : Input) : Input := { s with e := (s.e + (2 ^ 32 - 1)) % 2 ^ 32 }

/-- `input.buf[(input.e-1) % INPUT_BUF]`. -/
def last (s : Input) : UInt8 := s.buf ((s.e + (2 ^ 32 - 1)) % 2 ^ 32 % INPUT_BUF)

/-- `input.buf[input.e++ % INPUT_BUF] = c`. -/
def append (s : Input) (c : UInt8) : Input :=
  { s with buf := update s.buf (s.e % INPUT_BUF) c, e := (s.e + 1) % 2 ^ 32 }

/-- The loop of `C('U')`. -/
def killLoop : ℕ → Input → Input
  | 0, s => s
  | k + 1, s => if s.e ≠ s.w ∧ s.last ≠ newline then killLoop k s.backspace else s

/-- `C('U')`. The loop ends when `input.e` gets to `input.w`, so the distance of the two bounds
the number of its rounds. -/
def killLine (s : Input) : Input := killLoop ((s.e + (2 ^ 32 - s.w)) % 2 ^ 32) s

/-- `input.w = input.e` if the character ends a line or the buffer is full, and whether there is
a `wakeup(&input.r)`. -/
def commit (s : Input) (c : UInt8) : Input × Bool :=
  if c = newline ∨ c = ctrl 'D' ∨ s.e = (s.r + INPUT_BUF) % 2 ^ 32 then ({ s with w := s.e }, true)
  else (s, false)

/-- What `consoleintr` does with a character, and whether it calls `wakeup(&input.r)`. -/
def intr (s : Input) (c : UInt8) : Input × Bool :=
  if c = ctrl 'P' then (s, false)
  else if c = ctrl 'U' then (s.killLine, false)
  else if c = ctrl 'H' ∨ c = 0x7f then (if s.e ≠ s.w then s.backspace else s, false)
  else if c ≠ 0 ∧ (s.e + (2 ^ 32 - s.r)) % 2 ^ 32 < INPUT_BUF then
    let c := if c = '\r'.toUInt8 then newline else c
    (s.append c).commit c
  else (s, false)

/-- `input.buf[input.r % INPUT_BUF]`. -/
def front (s : Input) : UInt8 := s.buf (s.r % INPUT_BUF)

/-- `input.r++`. -/
def advance (s : Input) : Input := { s with r := (s.r + 1) % 2 ^ 32 }

/-- `input.r--`. -/
def retreat (s : Input) : Input := { s with r := (s.r + (2 ^ 32 - 1)) % 2 ^ 32 }

end Input

/-! ### Lines -/

/-- What the indices stand for: the bytes that can be read, and the line that is being edited. -/
structure Line where
  queue : List UInt8
  pending : List UInt8
  deriving DecidableEq, Repr

namespace Line

/-- Append a character to the pending line; a newline, a ^D or a full buffer commits the line. -/
def append (l : Line) (c : UInt8) : Line :=
  if c = newline ∨ c = ctrl 'D' ∨ l.queue.length + l.pending.length + 1 = INPUT_BUF then
    ⟨l.queue ++ (l.pending ++ [c]), []⟩
  else { l with pending := l.pending ++ [c] }

/-- **Typing a character.** -/
def type (l : Line) (c : UInt8) : Line :=
  if c = ctrl 'P' ∨ c = 0 then l
  else if c = ctrl 'U' then { l with pending := [] }
  else if c = ctrl 'H' ∨ c = 0x7f then { l with pending := l.pending.dropLast }
  else if l.queue.length + l.pending.length < INPUT_BUF then
    l.append (if c = '\r'.toUInt8 then newline else c)
  else l

end Line

/-- The line that the indices stand for. -/
def Input.line (s : Input) : Line where
  queue := RingBuffer.segment INPUT_BUF (2 ^ 32) s.buf s.r s.w
  pending := RingBuffer.segment INPUT_BUF (2 ^ 32) s.buf s.w s.e

/-- The buffer holds the line `l`, in which nothing is pending that ends a line. -/
structure Input.Holds (s : Input) (l : Line) : Prop where
  ring : RingBuffer.Holds INPUT_BUF (2 ^ 32) ⟨s.buf, s.r, s.e⟩ (l.queue ++ l.pending)
  w : s.w = (s.r + l.queue.length) % 2 ^ 32
  pending : newline ∉ l.pending
  full : l.queue.length + l.pending.length = INPUT_BUF → l.pending = []

theorem inputBuf_lt : INPUT_BUF < 2 ^ 32 := by decide

theorem inputBuf_dvd : INPUT_BUF ∣ 2 ^ 32 := by decide

namespace Input.Holds

variable {s : Input} {l : Line} {c b : UInt8} {q p : List UInt8}

theorem length_le (h : s.Holds l) : l.queue.length + l.pending.length ≤ INPUT_BUF := by
  have := h.ring.length_le
  rwa [List.length_append] at this

theorem e_eq (h : s.Holds l) : s.e = (s.r + (l.queue.length + l.pending.length)) % 2 ^ 32 := by
  have := h.ring.nwrite
  rwa [List.length_append] at this

/-- **What the indices stand for.** -/
theorem line_eq (h : s.Holds l) : s.line = l := by
  have hr : s.r = (s.r + ([] : List UInt8).length) % 2 ^ 32 := by
    rw [List.length_nil, Nat.add_zero, Nat.mod_eq_of_lt h.ring.nread_lt]
  have hqueue : RingBuffer.segment INPUT_BUF (2 ^ 32) s.buf s.r s.w = l.queue := by
    have hring := h.ring
    rw [← List.nil_append l.queue] at hring
    have := hring.segment_eq inputBuf_dvd inputBuf_lt
    rwa [← hr, List.nil_append, ← h.w] at this
  have hpending : RingBuffer.segment INPUT_BUF (2 ^ 32) s.buf s.w s.e = l.pending := by
    have hring := h.ring
    rw [← List.append_nil (l.queue ++ l.pending)] at hring
    have := hring.segment_eq inputBuf_dvd inputBuf_lt
    rwa [← h.w, List.length_append, ← h.e_eq] at this
  rw [line, hqueue, hpending]

/-- `input.r == input.w`. -/
theorem r_eq_w_iff (h : s.Holds l) : s.r = s.w ↔ l.queue = [] := by
  have hr : s.r = (s.r + 0) % 2 ^ 32 := by rw [Nat.add_zero, Nat.mod_eq_of_lt h.ring.nread_lt]
  have hlen := h.length_le
  have hlt := inputBuf_lt
  rw [h.w]
  nth_rewrite 1 [hr]
  rw [RingBuffer.add_mod_inj (by decide) (by omega), eq_comm, List.length_eq_zero_iff]

/-- `input.e == input.w`. -/
theorem e_eq_w_iff (h : s.Holds l) : s.e = s.w ↔ l.pending = [] := by
  have hlen := h.length_le
  have hlt := inputBuf_lt
  rw [h.w, h.e_eq, RingBuffer.add_mod_inj (by omega) (by omega), Nat.add_eq_left,
    List.length_eq_zero_iff]

/-- `input.e-input.r`. -/
theorem e_sub_r (h : s.Holds l) :
    (s.e + (2 ^ 32 - s.r)) % 2 ^ 32 = l.queue.length + l.pending.length := by
  rw [← List.length_append]
  exact h.ring.sub_mod inputBuf_lt

/-- `input.e-input.w`. -/
theorem e_sub_w (h : s.Holds l) : (s.e + (2 ^ 32 - s.w)) % 2 ^ 32 = l.pending.length := by
  have hline := congrArg (fun l => l.pending.length) h.line_eq
  simpa [line, RingBuffer.segment] using hline

/-- A character that has not been passed on is taken back. -/
theorem backspace (h : s.Holds ⟨q, p ++ [b]⟩) : s.backspace.Holds ⟨q, p⟩ := by
  have hring := h.ring
  have hlen := h.length_le
  simp only [List.length_append, List.length_singleton] at hlen
  rw [← List.append_assoc] at hring
  have hw : s.backspace.w = (s.backspace.r + q.length) % 2 ^ 32 := by
    rw [Input.backspace]
    exact h.w
  refine ⟨hring.unput, hw, fun hmem => h.pending (List.mem_append_left _ hmem), fun heq => ?_⟩
  simp only at heq
  omega

theorem last (h : s.Holds ⟨q, p ++ [b]⟩) : s.last = b := by
  have hring := h.ring
  rw [← List.append_assoc] at hring
  exact hring.last inputBuf_dvd

/-- The loop of ^U empties the pending line. -/
theorem killLoop (h : s.Holds ⟨q, p⟩) : (Input.killLoop p.length s).Holds ⟨q, []⟩ := by
  induction p using List.reverseRecOn generalizing s with
  | nil => exact h
  | append_singleton p b ih =>
    have hne : s.e ≠ s.w := fun he => by simp [h.e_eq_w_iff] at he
    have hb : s.last ≠ newline := by
      rw [h.last]
      rintro rfl
      exact h.pending (by simp)
    rw [List.length_append, List.length_singleton, Input.killLoop, if_pos ⟨hne, hb⟩]
    exact ih h.backspace

theorem killLine (h : s.Holds l) : s.killLine.Holds { l with pending := [] } := by
  rw [Input.killLine, h.e_sub_w]
  exact killLoop h

/-- Storing a character, before it is looked at. -/
theorem ring_append (h : s.Holds l) (hlt : l.queue.length + l.pending.length < INPUT_BUF)
    (c : UInt8) : RingBuffer.Holds INPUT_BUF (2 ^ 32)
      ⟨(s.append c).buf, (s.append c).r, (s.append c).e⟩ (l.queue ++ (l.pending ++ [c])) := by
  rw [← List.append_assoc]
  exact h.ring.put inputBuf_dvd (by rwa [List.length_append]) c

/-- Storing a character and committing: without a wakeup nothing is committed. -/
theorem commit (h : s.Holds l) (hlt : l.queue.length + l.pending.length < INPUT_BUF) (c : UInt8) :
    ((s.append c).commit c).1.Holds (l.append c) ∧
      (((s.append c).commit c).2 = false → (l.append c).queue = l.queue) := by
  have hring := h.ring_append hlt c
  have he : (s.append c).e =
      ((s.append c).r + (l.queue.length + l.pending.length + 1)) % 2 ^ 32 := by
    simpa only [List.length_append, List.length_singleton, Nat.add_assoc] using hring.nwrite
  have hfull : (s.append c).e = ((s.append c).r + INPUT_BUF) % 2 ^ 32 ↔
      l.queue.length + l.pending.length + 1 = INPUT_BUF := by
    have hbuf := inputBuf_lt
    rw [he]
    exact RingBuffer.add_mod_inj (by omega) hbuf
  by_cases hend : c = newline ∨ c = ctrl 'D' ∨
      l.queue.length + l.pending.length + 1 = INPUT_BUF
  · have hcommit : (s.append c).commit c = ({ s.append c with w := (s.append c).e }, true) := by
      rw [Input.commit, if_pos]
      rwa [hfull]
    rw [hcommit, Line.append, if_pos hend]
    refine ⟨⟨?_, ?_, by simp, fun _ => rfl⟩, by simp⟩
    · rw [List.append_nil]
      exact hring
    · simpa only [List.length_append, List.length_singleton, Nat.add_assoc] using he
  · have hcommit : (s.append c).commit c = (s.append c, false) := by
      rw [Input.commit, if_neg]
      rwa [hfull]
    rw [hcommit, Line.append, if_neg hend]
    push Not at hend
    refine ⟨⟨hring, h.w, ?_, fun heq => ?_⟩, fun _ => rfl⟩
    · simp only [List.mem_append, List.mem_singleton, not_or]
      exact ⟨h.pending, hend.1.symm⟩
    · simp only [List.length_append, List.length_singleton] at heq
      omega

/-- **Typing a character** does to the buffer what it does to the line, and without a wakeup
nothing is committed. -/
theorem intr (h : s.Holds l) (c : UInt8) :
    (s.intr c).1.Holds (l.type c) ∧
      ((s.intr c).2 = false → (l.type c).queue = l.queue) := by
  rw [Input.intr, Line.type, h.e_sub_r]
  by_cases hP : c = ctrl 'P'
  · rw [if_pos hP, if_pos (.inl hP)]
    exact ⟨h, fun _ => rfl⟩
  rw [if_neg hP]
  by_cases h0 : c = 0
  · -- NUL is none of the editing characters, and is not stored
    subst h0
    rw [if_neg (by decide), if_neg (by decide), if_neg (by simp), if_pos (.inr rfl)]
    exact ⟨h, fun _ => rfl⟩
  rw [if_neg (not_or.mpr ⟨hP, h0⟩)]
  by_cases hU : c = ctrl 'U'
  · rw [if_pos hU, if_pos hU]
    exact ⟨h.killLine, fun _ => rfl⟩
  rw [if_neg hU, if_neg hU]
  by_cases hH : c = ctrl 'H' ∨ c = 0x7f
  · rw [if_pos hH, if_pos hH]
    refine ⟨?_, fun _ => rfl⟩
    obtain ⟨q, p⟩ := l
    rcases List.eq_nil_or_concat p with rfl | ⟨p, b, rfl⟩
    · have he := h.e_eq_w_iff.mpr rfl
      rw [if_neg (not_not.mpr he)]
      exact h
    · rw [List.concat_eq_append] at h ⊢
      have he : s.e ≠ s.w := fun he => by simp [h.e_eq_w_iff] at he
      rw [if_pos he, List.dropLast_concat]
      exact h.backspace
  rw [if_neg hH, if_neg hH]
  by_cases hlt : l.queue.length + l.pending.length < INPUT_BUF
  · rw [if_pos ⟨h0, hlt⟩, if_pos hlt]
    exact h.commit hlt _
  · rw [if_neg fun hc => hlt hc.2, if_neg hlt]
    exact ⟨h, fun _ => rfl⟩

/-- `input.buf[input.r % INPUT_BUF]`. -/
theorem front (h : s.Holds ⟨b :: q, p⟩) : s.front = b := h.ring.front

/-- `input.r++`. -/
theorem advance (h : s.Holds ⟨b :: q, p⟩) : s.advance.Holds ⟨q, p⟩ where
  ring := h.ring.advance inputBuf_dvd
  w := by
    have hlen : s.r + (b :: q).length = s.r + 1 + q.length := by
      rw [List.length_cons]
      omega
    change s.w = ((s.r + 1) % 2 ^ 32 + q.length) % 2 ^ 32
    rw [h.w, hlen, Nat.mod_add_mod]
  pending := h.pending
  full heq := by
    have := h.length_le
    simp only [List.length_cons] at this heq
    omega

/-- `input.r--` takes `input.r++` back. -/
theorem retreat_advance (h : s.Holds l) : s.advance.retreat = s := by
  have hlt : s.r < 2 ^ 32 := h.ring.nread_lt
  have hr : ((s.r + 1) % 2 ^ 32 + (2 ^ 32 - 1)) % 2 ^ 32 = s.r := by
    rw [Nat.mod_add_mod, show s.r + 1 + (2 ^ 32 - 1) = s.r + 2 ^ 32 by omega, Nat.add_mod_right,
      Nat.mod_eq_of_lt hlt]
  rw [Input.advance, Input.retreat, hr]

end Input.Holds

/-! ### Readers -/

/-- A call `consoleread(ip, dst, n)`: its argument `target`, the bytes that it may still store and
those that it has stored. -/
structure ReadCall where
  target : ℤ
  n : ℤ
  dst : List UInt8

/-- `*dst++ = c; --n`. -/
def ReadCall.store (c : ReadCall) (b : UInt8) : ReadCall :=
  { c with n := c.n - 1, dst := c.dst ++ [b] }

/-- The next action of a process. -/
inductive Pc
  /-- not in `consoleread` -/
  | user
  /-- `acquire(&input.lock)`, at the start or at the end of `sleep` -/
  | acquire (c : ReadCall)
  /-- the tests of the loops -/
  | loop (c : ReadCall)
  /-- `release(&input.lock)`, and `return r` -/
  | release (c : ReadCall) (r : ℤ)

/-- The console and all processes. -/
structure State where
  input : Input
  /-- the process that holds `input.lock` -/
  lock : Option ℕ
  pc : ℕ → Pc
  /-- the processes that sleep on `&input.r` -/
  sleeping : ℕ → Bool
  killed : ℕ → Bool
  /-- ghost: the bytes committed so far -/
  log : List UInt8
  /-- ghost: the bytes taken so far, with the processes that took them -/
  taken : List (ℕ × UInt8)
  /-- ghost: the finished calls, with what they returned -/
  done : ℕ → List (ReadCall × ℤ)

namespace State

/-- Go on at `k`. -/
def setPc (s : State) (p : ℕ) (k : Pc) : State := { s with pc := update s.pc p k }

/-- Take a byte. -/
def take (s : State) (p : ℕ) : State :=
  { s with input := s.input.advance, taken := s.taken ++ [(p, s.input.front)] }

/-- What process `p` does next; `none` if it cannot go on. -/
def go (s : State) (p : ℕ) : Option State :=
  match s.pc p with
  | .user => none
  | .acquire c =>
    if s.lock = none ∧ s.sleeping p = false then some { s.setPc p (.loop c) with lock := some p }
    else none
  | .loop c =>
    if c.n ≤ 0 then some (s.setPc p (.release c (c.target - c.n)))
    else if s.input.r = s.input.w then
      if s.killed p then some (s.setPc p (.release c (-1)))
      else some { s.setPc p (.acquire c) with
        sleeping := update s.sleeping p true
        lock := none }
    else if s.input.front = ctrl 'D' then
      if c.n < c.target then
        some ({ s with input := s.input.advance.retreat }.setPc p (.release c (c.target - c.n)))
      else some ((s.take p).setPc p (.release c (c.target - c.n)))
    else
      let c' := c.store s.input.front
      if s.input.front = newline then
        some ((s.take p).setPc p (.release c' (c'.target - c'.n)))
      else some ((s.take p).setPc p (.loop c'))
  | .release c r =>
    some { s.setPc p .user with
      lock := none
      done := update s.done p (s.done p ++ [(c, r)]) }

/-- `consoleintr`, for one character. -/
def intr (s : State) (c : UInt8) : State :=
  { s with
    input := (s.input.intr c).1
    sleeping := fun p => s.sleeping p && !(s.input.intr c).2
    log := s.log ++ (s.input.intr c).1.line.queue.drop s.input.line.queue.length }

/-- `consoleintr`, when `getc` gives the characters `cs`. -/
def consoleintr (s : State) (cs : List UInt8) : State := cs.foldl intr s

end State

/-- The steps: an interrupt with the characters that are there, and a process that starts a call,
goes on with it or is killed. -/
inductive Act
  | intr (cs : List UInt8)
  | read (p : ℕ) (n : ℤ)
  | go (p : ℕ)
  | kill (p : ℕ)

/-- The state after a step. -/
def State.next (s : State) : Act → Option State
  | .intr cs => if s.lock = none then some (s.consoleintr cs) else none
  | .read p n =>
    match s.pc p with
    | .user => some (s.setPc p (.acquire ⟨n, n, []⟩))
    | _ => none
  | .go p => s.go p
  | .kill p => some { s with
      killed := update s.killed p true
      sleeping := update s.sleeping p false }

/-- A console on which nothing has been typed, with the indices at `i`. -/
def idle (buf : ℕ → UInt8) (i : ℕ) : State where
  input := ⟨buf, i, i, i⟩
  lock := none
  pc _ := .user
  sleeping _ := false
  killed _ := false
  log := []
  taken := []
  done _ := []

/-- The runs on a console. -/
def system : System State Act where
  init s := ∃ buf, ∃ i < 2 ^ 32, s = idle buf i
  step s a t := s.next a = some t

/-- **A round of a read:** the call returns when it has stored the `n` bytes or a newline, sleeps
when nothing is committed, and returns at a ^D, which it takes if it has stored nothing. -/
def Line.round (l : Line) (killed : Bool) (c : ReadCall) : Line × Pc :=
  if c.target ≤ c.dst.length then (l, .release c c.dst.length)
  else
    match l.queue with
    | [] => (l, if killed then .release c (-1) else .acquire c)
    | b :: q =>
      if b = ctrl 'D' then
        (if c.dst = [] then { l with queue := q } else l, .release c c.dst.length)
      else
        ({ l with queue := q },
          if b = newline then .release (c.store b) (c.dst.length + 1) else .loop (c.store b))

/-! ### The invariant -/

/-- A call that goes on: it has stored no ^D and no newline, and not too much. -/
structure ReadCall.Going (c : ReadCall) : Prop where
  target : c.n + c.dst.length = c.target
  length_le : (c.dst.length : ℤ) ≤ max 0 c.target
  noEof : ctrl 'D' ∉ c.dst
  noNewline : newline ∉ c.dst

/-- A call that returns `r`: it has stored at most the `n` bytes, no ^D, and a newline only at the
end; it returns the number of bytes that it has stored, or -1 if the process was killed. -/
structure ReadCall.Returns (c : ReadCall) (r : ℤ) : Prop where
  length_le : (c.dst.length : ℤ) ≤ max 0 c.target
  noEof : ctrl 'D' ∉ c.dst
  noNewline : newline ∉ c.dst.dropLast
  result : r = c.dst.length ∨ r = -1

namespace Pc

/-- The points in the code at which a process holds the lock. -/
def Locked : Pc → Prop
  | .loop _ | .release _ _ => True
  | _ => False

/-- The bytes that the current call has stored. -/
def dst : Pc → List UInt8
  | .user => []
  | .acquire c | .loop c | .release c _ => c.dst

/-- What is known of the current call. -/
def Ok : Pc → Prop
  | .user => True
  | .acquire c | .loop c => c.Going
  | .release c r => c.Returns r

end Pc

namespace State

/-- The bytes that process `p` has taken, less the ^D's. -/
def bytesOf (s : State) (p : ℕ) : List UInt8 :=
  (s.taken.filter fun x => x.1 = p ∧ x.2 ≠ ctrl 'D').map Prod.snd

/-- The bytes that process `p` has been given, in the order of its calls. -/
def given (s : State) (p : ℕ) : List UInt8 :=
  ((s.done p).flatMap fun x => x.1.dst) ++ (s.pc p).dst

end State

/-- **The invariant.** -/
structure Inv (s : State) : Prop where
  holds : s.input.Holds s.input.line
  lock : ∀ p, (s.pc p).Locked → s.lock = some p
  log : s.log = s.taken.map Prod.snd ++ s.input.line.queue
  order : ∀ p, s.given p = s.bytesOf p
  call : ∀ p, (s.pc p).Ok
  returns : ∀ p, ∀ x ∈ s.done p, x.1.Returns x.2
  asleep : ∀ p, s.sleeping p = true → s.input.line.queue = []

section Step

variable {s t : State} {p : ℕ} {k : Pc}

theorem setPc_self : (s.setPc p k).pc p = k := update_self ..

/-- A step of process `p` keeps the invariant when it does so for the console and for `p`. -/
theorem Inv.of_step (h : Inv s) (hpc : t.pc = update s.pc p k)
    (hlock : t.lock = s.lock ∨ s.lock = none ∨ s.lock = some p)
    (hmine : k.Locked → t.lock = some p) (hholds : t.input.Holds t.input.line)
    (hlog : t.log = t.taken.map Prod.snd ++ t.input.line.queue)
    (hdone : ∀ a, a ≠ p → t.done a = s.done a)
    (hbytes : ∀ a, a ≠ p → t.bytesOf a = s.bytesOf a)
    (horder : ((t.done p).flatMap fun x => x.1.dst) ++ k.dst = t.bytesOf p)
    (hcall : k.Ok) (hreturns : ∀ x ∈ t.done p, x.1.Returns x.2)
    (hasleep : ∀ a, t.sleeping a = true → t.input.line.queue = []) : Inv t where
  holds := hholds
  lock a ha := by
    rw [hpc, update_apply] at ha
    split_ifs at ha with hap
    · rw [hap]
      exact hmine ha
    · exact held_of_ne hlock (h.lock a ha) hap
  log := hlog
  order a := by
    rw [State.given, hpc, update_apply]
    split_ifs with hap
    · rwa [hap]
    · rw [hbytes a hap, hdone a hap]
      exact h.order a
  call a := by
    rw [hpc, update_apply]
    split_ifs with hap
    · exact hcall
    · exact h.call a
  returns a := by
    by_cases hap : a = p
    · rwa [hap]
    · rw [hdone a hap]
      exact h.returns a
  asleep := hasleep

/-- A step that takes nothing and only moves process `p` to another point in the code. -/
theorem Inv.move (h : Inv s) (hpc : t.pc = update s.pc p k)
    (hlock : t.lock = s.lock ∨ s.lock = none ∨ s.lock = some p)
    (hmine : k.Locked → t.lock = some p) (hinput : t.input = s.input)
    (hlog : t.log = s.log) (htaken : t.taken = s.taken) (hdone : t.done = s.done)
    (hdst : k.dst = (s.pc p).dst) (hcall : k.Ok)
    (hasleep : ∀ a, t.sleeping a = true → s.input.line.queue = []) : Inv t := by
  have hbytes (a : ℕ) : t.bytesOf a = s.bytesOf a := by rw [State.bytesOf, htaken, State.bytesOf]
  refine h.of_step hpc hlock hmine (hinput ▸ h.holds) ?_ (fun a _ => by rw [hdone])
    (fun a _ => hbytes a) ?_ hcall ?_ (hinput ▸ hasleep)
  · rw [hlog, htaken, hinput]
    exact h.log
  · rw [hbytes, hdone, hdst]
    exact h.order p
  · rw [hdone]
    exact h.returns p

/-- One more byte taken. -/
theorem bytesOf_take {b : UInt8} (h : t.taken = s.taken ++ [(p, b)]) (a : ℕ) :
    t.bytesOf a = if a = p ∧ b ≠ ctrl 'D' then s.bytesOf a ++ [b] else s.bytesOf a := by
  rw [State.bytesOf, h, List.filter_append, List.map_append]
  by_cases ha : a = p
  · by_cases hb : b = ctrl 'D'
    · simp [State.bytesOf, hb]
    · simp [State.bytesOf, ha, hb]
  · simp [State.bytesOf, ha, Ne.symm ha]

/-- **Taking a byte:** the process `p` takes `b`, and stores it unless it is a ^D. -/
theorem Inv.take {b : UInt8} {q : List UInt8} (h : Inv s) (hq : s.input.line.queue = b :: q)
    (hlock : s.lock = some p) (hdst : k.dst = (s.pc p).dst ++ if b = ctrl 'D' then [] else [b])
    (hcall : k.Ok) :
    Inv ((s.take p).setPc p k) ∧
      (s.input.advance).line = { s.input.line with queue := q } := by
  have hholds : s.input.Holds ⟨b :: q, s.input.line.pending⟩ := hq ▸ h.holds
  have hadv := hholds.advance
  have hline := hadv.line_eq
  have hfront := hholds.front
  have hbytes (a : ℕ) : ((s.take p).setPc p k).bytesOf a =
      if a = p ∧ b ≠ ctrl 'D' then s.bytesOf a ++ [b] else s.bytesOf a :=
    bytesOf_take (p := p) (by rw [← hfront]; rfl) a
  refine ⟨h.of_step rfl (.inl rfl) (fun _ => hlock) ?_ ?_ (fun a _ => rfl) (fun a ha => ?_) ?_ hcall
    (h.returns p) (fun a ha => ?_), hline⟩
  · change s.input.advance.Holds s.input.advance.line
    rw [hline]
    exact hadv
  · change s.log = (s.taken ++ [(p, s.input.front)]).map Prod.snd ++ s.input.advance.line.queue
    rw [hline, hfront, h.log, hq]
    simp
  · rw [hbytes, if_neg fun hc => ha hc.1]
  · rw [hbytes, ← h.order p, hdst, ← List.append_assoc]
    change s.given p ++ _ = _
    split_ifs <;> simp_all
  · have := h.asleep a ha
    rw [hq] at this
    cases this

/-- A call that stops. -/
theorem ReadCall.Going.stop {c : ReadCall} {r : ℤ} (h : c.Going)
    (hr : r = c.dst.length ∨ r = -1) : c.Returns r :=
  ⟨h.length_le, h.noEof, fun hmem => h.noNewline (List.dropLast_subset _ hmem), hr⟩

/-- One more byte. -/
theorem ReadCall.Going.store {c : ReadCall} {b : UInt8} (h : c.Going) (hn : 0 < c.n)
    (hD : b ≠ ctrl 'D') :
    (b ≠ newline → (c.store b).Going) ∧ (c.store b).Returns (c.dst.length + 1) := by
  obtain ⟨htarget, hle, heof, hnew⟩ := h
  have hlen : ((c.store b).dst.length : ℤ) = c.dst.length + 1 := by simp [ReadCall.store]
  have hmax : ((c.store b).dst.length : ℤ) ≤ max 0 (c.store b).target := by
    rw [hlen]
    simp only [ReadCall.store]
    omega
  have heof' : ctrl 'D' ∉ (c.store b).dst := by
    simp only [ReadCall.store, List.mem_append, List.mem_singleton, not_or]
    exact ⟨heof, hD.symm⟩
  refine ⟨fun hb => ⟨?_, hmax, heof', ?_⟩, hmax, heof', ?_, .inl hlen.symm⟩
  · rw [hlen]
    simp only [ReadCall.store]
    omega
  · simp only [ReadCall.store, List.mem_append, List.mem_singleton, not_or]
    exact ⟨hnew, hb.symm⟩
  · rw [ReadCall.store, List.dropLast_concat]
    exact hnew

/-- **A round of the loop** of `consoleread`. -/
theorem Inv.loop {c : ReadCall} (h : Inv s) (hpc : s.pc p = .loop c) (hstep : s.go p = some t) :
    Inv t ∧ (t.input.line, t.pc p) = s.input.line.round (s.killed p) c := by
  have hlock : s.lock = some p := h.lock p (by rw [hpc]; trivial)
  have hgoing : c.Going := by simpa [hpc, Pc.Ok] using h.call p
  have htarget := hgoing.target
  have hdst : (s.pc p).dst = c.dst := by rw [hpc]; rfl
  have hres : c.target - c.n = c.dst.length := by omega
  have hdone : c.n ≤ 0 ↔ c.target ≤ c.dst.length := by omega
  have hempty := h.holds.r_eq_w_iff
  rw [State.go, hpc] at hstep
  simp only [hres] at hstep
  by_cases hn : c.n ≤ 0
  · rw [if_pos hn] at hstep
    cases hstep
    rw [Line.round, if_pos (hdone.mp hn), setPc_self]
    exact ⟨h.move rfl (.inl rfl) (fun _ => hlock) rfl rfl rfl rfl hdst.symm
      (hgoing.stop (.inl rfl)) h.asleep, rfl⟩
  rw [if_neg hn] at hstep
  rw [Line.round, if_neg (mt hdone.mpr hn)]
  cases hq : s.input.line.queue with
  | nil =>
    rw [if_pos (hempty.mpr hq)] at hstep
    dsimp only
    cases hk : s.killed p with
    | true =>
      simp only [hk, if_true] at hstep
      cases hstep
      rw [setPc_self]
      exact ⟨h.move rfl (.inl rfl) (fun _ => hlock) rfl rfl rfl rfl hdst.symm
        (hgoing.stop (.inr rfl)) h.asleep, rfl⟩
    | false =>
      simp only [hk, Bool.false_eq_true, if_false] at hstep
      cases hstep
      exact ⟨h.move rfl (.inr (.inr hlock)) False.elim rfl rfl rfl rfl hdst.symm hgoing
        fun _ _ => hq, by simp [State.setPc]⟩
  | cons b q =>
    have hne : s.input.r ≠ s.input.w := fun he => by simp [hempty.mp he] at hq
    have hholds : s.input.Holds ⟨b :: q, s.input.line.pending⟩ := hq ▸ h.holds
    rw [if_neg hne, hholds.front] at hstep
    dsimp only
    by_cases hD : b = ctrl 'D'
    · rw [if_pos hD] at hstep ⊢
      by_cases hlt : c.n < c.target
      · -- the ^D is left for the next read
        have hdne : c.dst ≠ [] := fun he => by simp [he] at htarget; omega
        rw [if_pos hlt, h.holds.retreat_advance] at hstep
        cases hstep
        rw [if_neg hdne, setPc_self]
        exact ⟨h.move rfl (.inl rfl) (fun _ => hlock) rfl rfl rfl rfl hdst.symm
          (hgoing.stop (.inl rfl)) h.asleep, rfl⟩
      · have hde : c.dst = [] := List.eq_nil_of_length_eq_zero (by omega)
        rw [if_neg hlt] at hstep
        cases hstep
        obtain ⟨hinv, hline⟩ := h.take (k := .release c c.dst.length) hq hlock
          (by rw [hdst, if_pos hD, List.append_nil]; rfl) (hgoing.stop (.inl rfl))
        refine ⟨hinv, ?_⟩
        rw [if_pos hde, setPc_self]
        exact congrArg (·, _) hline
    · rw [if_neg hD] at hstep ⊢
      obtain ⟨hgo, hret⟩ := hgoing.store (by omega) hD
      have hres' : (c.store b).target - (c.store b).n = c.dst.length + 1 := by
        simp only [ReadCall.store]
        omega
      have hdst' : (c.store b).dst = (s.pc p).dst ++ if b = ctrl 'D' then [] else [b] := by
        rw [hdst, if_neg hD]
        rfl
      by_cases hnew : b = newline
      · rw [if_pos hnew, hres'] at hstep
        cases hstep
        obtain ⟨hinv, hline⟩ := h.take (k := .release (c.store b) (c.dst.length + 1)) hq hlock
          hdst' hret
        refine ⟨hinv, ?_⟩
        rw [if_pos hnew, setPc_self]
        exact congrArg (·, _) hline
      · rw [if_neg hnew] at hstep
        cases hstep
        obtain ⟨hinv, hline⟩ := h.take (k := .loop (c.store b)) hq hlock hdst' (hgo hnew)
        refine ⟨hinv, ?_⟩
        rw [if_neg hnew, setPc_self]
        exact congrArg (·, _) hline

/-- **A step of a reader** keeps the invariant. -/
theorem inv_go (h : Inv s) (hstep : s.go p = some t) : Inv t := by
  cases hpc : s.pc p with
  | user => simp [State.go, hpc] at hstep
  | acquire c =>
    rw [State.go, hpc] at hstep
    simp only at hstep
    split_ifs at hstep with hfree
    cases hstep
    have hdst : (s.pc p).dst = c.dst := by rw [hpc]; rfl
    have hgoing : c.Going := by simpa [hpc, Pc.Ok] using h.call p
    exact h.move rfl (.inr (.inl hfree.1)) (fun _ => rfl) rfl rfl rfl rfl hdst.symm hgoing h.asleep
  | loop c => exact (h.loop hpc hstep).1
  | release c r =>
    have hlock : s.lock = some p := h.lock p (by rw [hpc]; trivial)
    have hret : c.Returns r := by simpa [hpc, Pc.Ok] using h.call p
    have hdst : (s.pc p).dst = c.dst := by rw [hpc]; rfl
    rw [State.go, hpc] at hstep
    cases hstep
    refine h.of_step rfl (.inr (.inr hlock)) False.elim h.holds h.log
      (fun a ha => update_of_ne ha _ _) (fun a _ => rfl) ?_ trivial (fun x hx => ?_) h.asleep
    · refine Eq.trans ?_ (h.order p)
      rw [State.given, hdst]
      simp [Pc.dst]
    · dsimp only at hx
      rw [update_self] at hx
      rcases List.mem_append.mp hx with hx | hx
      · exact h.returns p x hx
      · rw [List.mem_singleton.mp hx]
        exact hret

/-- What a character commits is appended to the queue. -/
theorem queue_type (l : Line) (c : UInt8) :
    (l.type c).queue = l.queue ++ (l.type c).queue.drop l.queue.length := by
  unfold Line.type Line.append
  split_ifs <;> simp

/-- **A character** keeps the invariant. -/
theorem inv_intr (h : Inv s) (c : UInt8) : Inv (s.intr c) := by
  obtain ⟨hholds, hwake⟩ := h.holds.intr c
  have hline := hholds.line_eq
  refine ⟨?_, h.lock, ?_, h.order, h.call, h.returns, fun p hp => ?_⟩
  · change (s.input.intr c).1.Holds (s.input.intr c).1.line
    rw [hline]
    exact hholds
  · change s.log ++ _ = s.taken.map Prod.snd ++ (s.input.intr c).1.line.queue
    rw [hline, h.log, List.append_assoc, ← queue_type]
  · change (s.input.intr c).1.line.queue = []
    simp only [State.intr, Bool.and_eq_true, Bool.not_eq_true'] at hp
    rw [hline, hwake hp.2]
    exact h.asleep p hp.1

/-- **An interrupt** keeps the invariant. -/
theorem inv_consoleintr (h : Inv s) (cs : List UInt8) : Inv (s.consoleintr cs) := by
  induction cs generalizing s with
  | nil => exact h
  | cons c cs ih => exact ih (inv_intr h c)

end Step

/-- **The step lemma.** -/
theorem inv_step {s t : State} {a : Act} (h : Inv s) (hstep : s.next a = some t) : Inv t := by
  cases a with
  | intr cs =>
    rw [State.next] at hstep
    split_ifs at hstep with hfree
    cases hstep
    exact inv_consoleintr h cs
  | read p n =>
    rw [State.next] at hstep
    cases hpc : s.pc p with
    | user =>
      rw [hpc] at hstep
      cases hstep
      refine h.move rfl (.inl rfl) False.elim rfl rfl rfl rfl ?_ ?_ h.asleep
      · rw [hpc]
        rfl
      · exact ⟨by simp, by simp, by simp, by simp⟩
    | acquire c | loop c | release c r =>
      rw [hpc] at hstep
      cases hstep
  | go p => exact inv_go h hstep
  | kill p =>
    cases hstep
    refine ⟨h.holds, h.lock, h.log, h.order, h.call, h.returns, fun a ha => ?_⟩
    dsimp only at ha
    by_cases hap : a = p
    · rw [hap, update_self] at ha
      cases ha
    · rw [update_of_ne hap] at ha
      exact h.asleep a ha

/-- An empty buffer, at any index. -/
theorem inv_idle {buf : ℕ → UInt8} {i : ℕ} (hi : i < 2 ^ 32) : Inv (idle buf i) := by
  have hholds : (idle buf i).input.Holds ⟨[], []⟩ :=
    ⟨RingBuffer.holds_nil hi rfl, (Nat.mod_eq_of_lt hi).symm, by simp, fun _ => rfl⟩
  have hline := hholds.line_eq
  refine ⟨hline ▸ hholds, by simp [idle, Pc.Locked], ?_, ?_, by simp [idle, Pc.Ok],
    by simp [idle], by simp [idle]⟩
  · rw [hline]
    rfl
  · intro p
    rfl

/-- The invariant in every reachable state. -/
theorem inv_reachable {s : State} (hreach : system.Reachable s) : Inv s := by
  refine hreach.invariant (I := Inv) ?_ ?_
  · rintro _ ⟨buf, i, hi, rfl⟩
    exact inv_idle hi
  · exact fun s a t h hstep => inv_step h hstep

/-- **The line discipline.** In every state of every run: the queue of the committed bytes and the
pending line have at most `INPUT_BUF` bytes; typing a character does to them what `Line.type` says,
and a round of a read what `Line.round` says; the committed bytes are those that have been taken
followed by the queue; the bytes that a process has been given by its calls are those that it has
taken, less the ^D's; and every call that has returned has stored at most the number of bytes that
was asked for, no ^D, and a newline only at the end. -/
theorem line_discipline {s : State} (hreach : system.Reachable s) :
    s.input.line.queue.length + s.input.line.pending.length ≤ INPUT_BUF ∧
    (∀ c, (s.input.intr c).1.line = s.input.line.type c) ∧
    (∀ p c t, s.pc p = .loop c → s.go p = some t →
      (t.input.line, t.pc p) = s.input.line.round (s.killed p) c) ∧
    s.log = s.taken.map Prod.snd ++ s.input.line.queue ∧
    (∀ p, s.given p = s.bytesOf p) ∧
    ∀ p, ∀ x ∈ s.done p, x.1.Returns x.2 := by
  have h := inv_reachable hreach
  exact ⟨h.holds.length_le, fun c => (h.holds.intr c).1.line_eq,
    fun p c t hpc hstep => (h.loop hpc hstep).2, h.log, h.order, h.returns⟩

/-- A line typed and read while the indices wrap around. -/
theorem line_discipline_wrap : ∃ s, system.Reachable s ∧ s.input.r = 1 ∧
    (s.done 0).map (fun x => (x.1.dst, x.2)) = [([97, 10], 2)] ∧ s.bytesOf 0 = [97, 10] ∧
      s.log = s.taken.map Prod.snd ++ s.input.line.queue := by
  have h0 : system.Reachable (idle (fun _ => 0) (2 ^ 32 - 1)) :=
    .init ⟨fun _ => 0, 2 ^ 32 - 1, by decide, rfl⟩
  have hrun : ([.read 0 5, .intr [98, 8, 97, 13], .go 0, .go 0, .go 0, .go 0].foldlM State.next
      (idle (fun _ => 0) (2 ^ 32 - 1))).map
        (fun s => (s.input.r, (s.done 0).map (fun x => (x.1.dst, x.2)), s.given 0)) =
      some (1, [([97, 10], 2)], [97, 10]) := by decide +kernel
  obtain ⟨s, hs, heq⟩ := Option.map_eq_some_iff.mp hrun
  obtain ⟨hr, hdone, hgiven⟩ := Prod.mk.inj heq |>.imp_right Prod.mk.inj
  have hreach := h0.foldlM (fun _ _ _ h => h) hs
  obtain ⟨-, -, -, hlog, horder, -⟩ := line_discipline hreach
  exact ⟨s, hreach, hr, hdone, horder 0 ▸ hgiven, hlog⟩

/-- **^P is not a character of the line:** it is neither appended nor dropped for want of room. -/
theorem ctrl_p_not_appended : ∃ s, system.Reachable s ∧
    s.input.line.queue.length + s.input.line.pending.length < INPUT_BUF ∧
      (s.input.intr (ctrl 'P')).1.line = s.input.line := by
  refine ⟨idle (fun _ => 0) 0, .init ⟨fun _ => 0, 0, by decide, rfl⟩, by decide +kernel, ?_⟩
  decide +kernel

end Xv6.Console
