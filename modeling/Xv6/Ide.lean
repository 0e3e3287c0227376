import Xv6.LinkedQueue
import Xv6.Transition

/-!
# The Disk Queue

`iderw`, `ideintr` and `idestart` of `ide.c`, run by any number of processes on distinct locked
buffers, and the disk. A step is a critical section of `idelock`: `iderw` up to its first `sleep`,
what it does when it is woken up, and the interrupt handler. In between the disk executes the
command that it was given, and then it interrupts once. It makes no errors.

The commands that have been submitted by `iderw`, given to the disk by `idestart` and completed by
`ideintr` are kept as ghost state, and so is the number of its command in a call of `iderw`.

## Main definitions

* `State.rwBegin`, `State.rwTest`, `State.ideintr`, `State.idestart`: the code.
* `replay`: the sectors of the disk after a list of commands.

## Main results

* `Inv.step`: the invariant is preserved by every step.
* `ide_queue`: **the disk queue is first-in first-out**, its head is the command that the disk is
  executing, and when `iderw` returns the transfer has happened.
-/

open Transition
open Function (update update_apply update_eq_self update_of_ne update_self)

namespace Xv6.Ide

/-- `struct buf`, less its links. -/
structure Buf (D : Type) where
  /-- `B_BUSY` -/
  busy : Bool
  /-- `B_VALID` -/
  valid : Bool
  /-- `B_DIRTY` -/
  dirty : Bool
  dev : ℕ
  sector : ℕ
  data : D

/-- `(b->flags & (B_VALID|B_DIRTY)) == B_VALID`. -/
def Buf.clean {D : Type} (b : Buf D) : Bool := b.valid && !b.dirty

/-- The drive and the sector that `idestart` selects, with the four bytes that it sends to the
ports 0x1f3 to 0x1f6. -/
def Buf.addr {D : Type} (b : Buf D) : ℕ × ℕ :=
  (b.dev % 2, b.sector % 256 + b.sector / 2 ^ 8 % 256 * 2 ^ 8 + b.sector / 2 ^ 16 % 256 * 2 ^ 16 +
    b.sector / 2 ^ 24 % 16 * 2 ^ 24)

/-- **The drives are 0 and 1 and have sectors with 28-bit numbers**: for those the bytes select the
sector of the buffer. -/
theorem Buf.addr_eq {D : Type} {b : Buf D} (hdev : b.dev < 2) (hsector : b.sector < 2 ^ 28) :
    b.addr = (b.dev, b.sector) := by
  refine Prod.ext (Nat.mod_eq_of_lt hdev) ?_
  simp only [Buf.addr]
  omega

/-- A command for the disk, with the buffer that it is for. -/
structure Cmd (D : Type) where
  buf : ℕ
  write : Bool
  addr : ℕ × ℕ
  data : D

/-- The command for a buffer. -/
def Buf.cmd {D : Type} (b : Buf D) (i : ℕ) : Cmd D := ⟨i, b.dirty, b.addr, b.data⟩

/-- What the disk is doing. -/
inductive Device (D : Type)
  | idle
  | busy (c : Cmd D)
  /-- the command has been executed, `v` has been read, and the disk interrupts -/
  | ready (c : Cmd D) (v : D)

/-- Where a process is in `iderw(b)`. -/
inductive Pc
  /-- not in `iderw` -/
  | user
  /-- at `acquire(&idelock)` -/
  | enter (b : ℕ)
  /-- in the loop, at the end of `sleep`; the command is number `k` -/
  | wait (b k : ℕ)
  /-- about to return -/
  | ret (b k : ℕ)

/-- The buffer of the call. -/
def Pc.buf : Pc → Option ℕ
  | .user => none
  | .enter b | .wait b _ | .ret b _ => some b

/-- The buffers, the queue, the disk and the processes. -/
structure State (D : Type) where
  bufs : ℕ → Buf D
  /-- `idequeue`, and the `qnext` of the buffers -/
  queue : LinkedQueue ℕ
  device : Device D
  disk : ℕ × ℕ → D
  pc : ℕ → Pc
  /-- the buffer that a process sleeps on -/
  sleeping : ℕ → Option ℕ
  /-- ghost: the commands that `iderw` has appended to the queue -/
  submitted : List (Cmd D)
  /-- ghost: the commands that `idestart` has given to the disk -/
  started : List (Cmd D)
  /-- ghost: the commands that `ideintr` has completed -/
  completed : List (Cmd D)

variable {D : Type}

namespace State

/-- The command for buffer `b`. -/
def cmd (s : State D) (b : ℕ) : Cmd D := (s.bufs b).cmd b

/-- Go on at `k`. -/
def setPc (s : State D) (p : ℕ) (k : Pc) : State D := { s with pc := update s.pc p k }

/-- `idestart(b)`. -/
def idestart (s : State D) (b : ℕ) : State D :=
  { s with device := .busy (s.cmd b), started := s.started ++ [s.cmd b] }

/-- The test of the loop of `iderw`: return, or sleep. -/
def rwTest (s : State D) (p b k : ℕ) : State D :=
  if (s.bufs b).clean then s.setPc p (.ret b k)
  else { s.setPc p (.wait b k) with sleeping := update s.sleeping p (some b) }

/-- Store the queue `q` with buffer `b` appended, and start the disk if necessary. -/
def submit (s : State D) (q : LinkedQueue ℕ) (b : ℕ) : State D :=
  let s := { s with queue := q, submitted := s.submitted ++ [s.cmd b] }
  if q.head = some b then s.idestart b else s

/-- `iderw(b)` from the acquisition of the lock to the first `sleep`; the walk to the end of the
queue takes at most `n` rounds. -/
def rwBegin (s : State D) (n p b : ℕ) : Option (State D) :=
  (s.queue.append n b).map fun q => (s.submit q b).rwTest p b s.submitted.length

/-- `wakeup(b)`. -/
def wakeup (s : State D) (b : ℕ) : State D :=
  { s with sleeping := fun p => if s.sleeping p = some b then none else s.sleeping p }

/-- The first part of `ideintr`: take buffer `b` off the queue; `v` is what can be read. -/
def finish (s : State D) (b : ℕ) (c : Cmd D) (v : D) : State D :=
  let buf := s.bufs b
  let buf' := { buf with
    data := if buf.dirty then buf.data else v
    valid := true
    dirty := false }
  { s with
    device := .idle
    queue := s.queue.pop b
    bufs := update s.bufs b buf'
    completed := s.completed ++ [c] }.wakeup b

/-- The second part of `ideintr`: start the disk on the next buffer in the queue. -/
def startNext (s : State D) : State D :=
  match s.queue.head with
  | none => s
  | some b => s.idestart b

/-- `ideintr`, after the disk has executed the command `c`; `v` is what can be read. -/
def ideintr (s : State D) (c : Cmd D) (v : D) : State D :=
  match s.queue.head with
  | none => { s with device := .idle }
  | some b => (s.finish b c v).startNext

end State

/-- The sectors of the disk after a command. -/
def transfer (disk : ℕ × ℕ → D) (c : Cmd D) : ℕ × ℕ → D :=
  if c.write then update disk c.addr c.data else disk

/-- The sectors of the disk after a list of commands. -/
def replay (disk : ℕ × ℕ → D) (cs : List (Cmd D)) : ℕ × ℕ → D := cs.foldl transfer disk

/-- Who does what. -/
inductive Act (D : Type)
  | call (p b : ℕ)
  | go (p : ℕ)
  | kill (p : ℕ)
  | modify (b : ℕ) (buf : Buf D)
  | execute
  | intr

/-- The steps, with `N` buffers. A call of `iderw` that panics does not go on. -/
inductive Step (N : ℕ) (havedisk1 : Bool) : State D → Act D → State D → Prop
  /-- a process calls `iderw` on a buffer that no other process has given to it -/
  | call {s p b} : s.pc p = .user → b < N → (∀ p', (s.pc p').buf ≠ some b) →
      (s.bufs b).busy = true → (s.bufs b).clean = false →
      ((s.bufs b).dev = 0 ∨ havedisk1 = true) →
      Step N havedisk1 s (.call p b) (s.setPc p (.enter b))
  | begin {s t p b} : s.pc p = .enter b → s.rwBegin (N + 1) p b = some t →
      Step N havedisk1 s (.go p) t
  | test {s p b k} : s.pc p = .wait b k → s.sleeping p = none →
      Step N havedisk1 s (.go p) (s.rwTest p b k)
  | ret {s p b k} : s.pc p = .ret b k → Step N havedisk1 s (.go p) (s.setPc p .user)
  /-- `kill` wakes a process up -/
  | kill {s p} : Step N havedisk1 s (.kill p)
      { s with sleeping := update s.sleeping p none }
  /-- a buffer is changed by whoever holds it, outside of `iderw` -/
  | modify {s b buf} : (∀ p, (s.pc p).buf ≠ some b) →
      Step N havedisk1 s (.modify b buf) { s with bufs := update s.bufs b buf }
  | execute {s c} : s.device = .busy c →
      Step N havedisk1 s .execute
        { s with device := .ready c (s.disk c.addr), disk := transfer s.disk c }
  | intr {s c v} : s.device = .ready c v → Step N havedisk1 s .intr (s.ideintr c v)

/-- The runs, from an empty queue and a disk with the sectors `disk`. -/
def system (N : ℕ) (havedisk1 : Bool) (disk : ℕ × ℕ → D) : System (State D) (Act D) where
  init s := ∃ bufs next, s = ⟨bufs, ⟨none, next⟩, .idle, disk, fun _ => .user, fun _ => none, [],
    [], []⟩
  step := Step N havedisk1

/-! ### The invariant -/

/-- The command that has been executed and not completed. -/
def Device.executed : Device D → List (Cmd D)
  | .ready c _ => [c]
  | _ => []

/-- **The head of the queue is the command that the disk is executing.** -/
def Executes (disk : ℕ × ℕ → D) (s : State D) : List ℕ → Prop
  | [] => s.device = .idle
  | b :: _ => s.device = .busy (s.cmd b) ∨
      ∃ v, s.device = .ready (s.cmd b) v ∧
        ((s.bufs b).dirty = false → v = replay disk s.completed (s.bufs b).addr)

/-- The queue, the commands and the disk. -/
structure Queued (disk : ℕ × ℕ → D) (s : State D) (q : List ℕ) : Prop where
  links : s.queue.Holds q
  pending : ∀ b ∈ q, (s.bufs b).clean = false
  submitted : s.submitted = s.completed ++ q.map s.cmd
  started : s.started = s.completed ++ (q.take 1).map s.cmd
  device : Executes disk s q
  disk : s.disk = replay disk (s.completed ++ s.device.executed)

/-- **The transfer has happened:** command `k` was that of buffer `b`, it has been completed, and
the buffer has the data that were written, or the data that were in its sector. -/
structure Done (disk : ℕ × ℕ → D) (s : State D) (b k : ℕ) : Prop where
  clean : (s.bufs b).clean = true
  transfer : ∃ c, s.completed[k]? = some c ∧ c.buf = b ∧ c.addr = (s.bufs b).addr ∧
    (s.bufs b).data = if c.write then c.data else replay disk (s.completed.take k) c.addr

/-- What holds of a process in `iderw`. -/
def ProcOk (disk : ℕ × ℕ → D) (s : State D) (q : List ℕ) (p : ℕ) : Prop :=
  match s.pc p with
  | .user => s.sleeping p = none
  | .enter b => s.sleeping p = none ∧ b ∉ q ∧ (s.bufs b).clean = false
  | .wait b k => (∃ j, q[j]? = some b ∧ k = s.completed.length + j ∧
      (s.sleeping p = none ∨ s.sleeping p = some b)) ∨
      s.sleeping p = none ∧ b ∉ q ∧ Done disk s b k
  | .ret b k => s.sleeping p = none ∧ b ∉ q ∧ Done disk s b k

/-- **The invariant.** -/
structure Inv (N : ℕ) (disk : ℕ × ℕ → D) (s : State D) (q : List ℕ) : Prop where
  queued : Queued disk s q
  proc : ∀ p, ProcOk disk s q p
  distinct : ∀ p p' b, (s.pc p).buf = some b → (s.pc p').buf = some b → p = p'
  lt : ∀ p b, (s.pc p).buf = some b → b < N
  waited : ∀ b ∈ q, ∃ p k, s.pc p = .wait b k

section Step

variable {N : ℕ} {disk : ℕ × ℕ → D} {s t : State D} {q : List ℕ} {p b k : ℕ}

@[simp] theorem setPc_self {c : Pc} : (s.setPc p c).pc p = c := update_self ..

/-- A transfer that has happened stays so while the buffer is left alone. -/
theorem Done.mono {cs : List (Cmd D)} (h : Done disk s b k) (hbuf : t.bufs b = s.bufs b)
    (hcompleted : t.completed = s.completed ++ cs) : Done disk t b k := by
  obtain ⟨hclean, c, hc, hb, haddr, hdata⟩ := h
  obtain ⟨hk, -⟩ := List.getElem?_eq_some_iff.mp hc
  refine ⟨by rw [hbuf]; exact hclean, c, ?_, hb, by rw [hbuf]; exact haddr, ?_⟩
  · rw [hcompleted, List.getElem?_append_left hk]
    exact hc
  · rw [hbuf, hcompleted, List.take_append_of_le_length (Nat.le_of_lt hk)]
    exact hdata

theorem Done.of_same (h : Done disk s b k) (hbuf : t.bufs b = s.bufs b)
    (hcompleted : t.completed = s.completed) : Done disk t b k :=
  h.mono hbuf (hcompleted.trans (List.append_nil _).symm)

/-- What holds of a process does not depend on what others do. -/
theorem ProcOk.congr (h : ProcOk disk s q p) (hpc : t.pc p = s.pc p)
    (hsleep : t.sleeping p = s.sleeping p)
    (hbuf : ∀ b, (s.pc p).buf = some b → t.bufs b = s.bufs b)
    (hcompleted : t.completed = s.completed) : ProcOk disk t q p := by
  unfold ProcOk at h ⊢
  rw [hpc, hsleep]
  cases hk : s.pc p with
  | user => simpa [hk] using h
  | enter b =>
    rw [hk] at h
    dsimp only at h ⊢
    rwa [hbuf b (by rw [hk]; rfl)]
  | wait b k =>
    rw [hk] at h
    dsimp only at h ⊢
    rw [hcompleted]
    exact h.imp_right fun ⟨h1, h2, h3⟩ =>
      ⟨h1, h2, h3.of_same (hbuf b (by rw [hk]; rfl)) hcompleted⟩
  | ret b k =>
    rw [hk] at h
    dsimp only at h ⊢
    exact ⟨h.1, h.2.1, h.2.2.of_same (hbuf b (by rw [hk]; rfl)) hcompleted⟩

/-- The queue does not depend on where the processes are. -/
theorem Queued.procs (h : Queued disk s q) (pc : ℕ → Pc) (sleeping : ℕ → Option ℕ) :
    Queued disk { s with pc := pc, sleeping := sleeping } q :=
  { h with }

/-- Process `p` moves to `c`. -/
theorem Inv.of_pc {c : Pc} {q' : List ℕ} (h : Inv N disk s q)
    (hpc : t.pc = update s.pc p c) (hqueued : Queued disk t q')
    (hproc : ∀ a, ProcOk disk t q' a)
    (hbuf : ∀ b, c.buf = some b → b < N ∧ ∀ p', p' ≠ p → (s.pc p').buf ≠ some b)
    (hwaits : ∀ b ∈ q', (∃ k, c = .wait b k) ∨ b ∈ q ∧ ∀ k, s.pc p ≠ .wait b k) :
    Inv N disk t q' := by
  refine ⟨hqueued, hproc, fun a a' b ha ha' => ?_, fun a b ha => ?_, fun b hb => ?_⟩
  · rw [hpc, update_apply] at ha ha'
    split_ifs at ha ha' with hap hap' hap'
    · rw [hap, hap']
    · exact absurd ha' ((hbuf b ha).2 a' hap')
    · exact absurd ha ((hbuf b ha').2 a hap)
    · exact h.distinct a a' b ha ha'
  · rw [hpc, update_apply] at ha
    split_ifs at ha
    · exact (hbuf b ha).1
    · exact h.lt a b ha
  · rw [hpc]
    rcases hwaits b hb with ⟨k, hk⟩ | ⟨hbq, hne⟩
    · exact ⟨p, k, by rw [update_self, hk]⟩
    · obtain ⟨a, k, ha⟩ := h.waited b hbq
      have hap : a ≠ p := by
        rintro rfl
        exact hne k ha
      exact ⟨a, k, by rw [update_of_ne hap, ha]⟩

/-- A step that moves process `p` within a call, or out of it, and leaves the queue alone. -/
theorem Inv.move {c : Pc} (h : Inv N disk s q)
    (hpc : t.pc = update s.pc p c) (hsleep : ∀ a, a ≠ p → t.sleeping a = s.sleeping a)
    (hbufs : t.bufs = s.bufs) (hcompleted : t.completed = s.completed) (hqueued : Queued disk t q)
    (hproc : ProcOk disk t q p)
    (hbuf : ∀ b, c.buf = some b → b < N ∧ ∀ p', p' ≠ p → (s.pc p').buf ≠ some b)
    (hwaits : ∀ b ∈ q, ∀ k, s.pc p = .wait b k → ∃ k, c = .wait b k) : Inv N disk t q := by
  refine h.of_pc hpc hqueued (fun a => ?_) hbuf fun b hb => ?_
  · by_cases hap : a = p
    · exact hap ▸ hproc
    · refine (h.proc a).congr ?_ (hsleep a hap) (fun b _ => by rw [hbufs]) hcompleted
      rw [hpc, update_of_ne hap]
  · by_cases hk : ∃ k, s.pc p = .wait b k
    · obtain ⟨k, hk⟩ := hk
      exact .inl (hwaits b hb k hk)
    · exact .inr ⟨hb, fun k hpk => hk ⟨k, hpk⟩⟩

/-- A process is the only one with its buffer. -/
theorem Inv.buf_ne (h : Inv N disk s q) (hb : (s.pc p).buf = some b) :
    b < N ∧ ∀ p', p' ≠ p → (s.pc p').buf ≠ some b :=
  ⟨h.lt p b hb, fun p' hne hb' => hne (h.distinct p' p b hb' hb)⟩

/-- A buffer that no call has is not in the queue. -/
theorem Inv.not_mem (h : Inv N disk s q) (hb : ∀ p, (s.pc p).buf ≠ some b) : b ∉ q := fun hmem => by
  obtain ⟨p, k, hp⟩ := h.waited b hmem
  exact hb p (by rw [hp]; rfl)

/-- **A call of `iderw`.** -/
theorem Inv.call (h : Inv N disk s q) (hpc : s.pc p = .user) (hlt : b < N)
    (hfree : ∀ p', (s.pc p').buf ≠ some b) (hclean : (s.bufs b).clean = false) :
    Inv N disk (s.setPc p (.enter b)) q := by
  have hsleep : s.sleeping p = none := by simpa [ProcOk, hpc] using h.proc p
  refine h.move (c := .enter b) rfl (fun _ _ => rfl) rfl rfl (h.queued.procs _ _) ?_ ?_ ?_
  · rw [ProcOk, setPc_self]
    exact ⟨hsleep, h.not_mem hfree, hclean⟩
  · intro b' hb'
    cases hb'
    exact ⟨hlt, fun p' _ => hfree p'⟩
  · intro b' _ k hk
    rw [hpc] at hk
    cases hk

/-- **A process in the loop of `iderw`** that is awake. -/
theorem Inv.test (h : Inv N disk s q) (hpc : s.pc p = .wait b k) :
    Inv N disk (s.rwTest p b k) q := by
  have hbuf : (s.pc p).buf = some b := by rw [hpc]; rfl
  have hproc := h.proc p
  rw [ProcOk, hpc] at hproc
  dsimp only at hproc
  rw [State.rwTest]
  cases hclean : (s.bufs b).clean with
  | true =>
    -- the buffer is not in the queue any more
    have hdone : s.sleeping p = none ∧ b ∉ q ∧ Done disk s b k := by
      refine hproc.resolve_left fun ⟨j, hj, _⟩ => ?_
      have := h.queued.pending b (List.mem_of_getElem? hj)
      rw [hclean] at this
      cases this
    rw [if_pos rfl]
    refine h.move (c := .ret b k) rfl (fun _ _ => rfl) rfl rfl (h.queued.procs _ _) ?_ ?_ ?_
    · rw [ProcOk, setPc_self]
      exact ⟨hdone.1, hdone.2.1, hdone.2.2.of_same rfl rfl⟩
    · exact fun b' hb' => h.buf_ne (hb' ▸ hbuf)
    · intro b' hb' k' hk'
      rw [hpc] at hk'
      cases hk'
      exact absurd hb' hdone.2.1
  | false =>
    obtain ⟨j, hj, hk, -⟩ := hproc.resolve_right fun ⟨_, _, hdone⟩ => by
      rw [hdone.clean] at hclean
      cases hclean
    rw [if_neg (by simp)]
    refine h.move (c := .wait b k) rfl (fun a ha => update_of_ne ha _ _) rfl rfl
      (h.queued.procs _ _) ?_ ?_ ?_
    · simp only [ProcOk, State.setPc, update_self]
      exact .inl ⟨j, hj, hk, .inr trivial⟩
    · exact fun b' hb' => h.buf_ne (hb' ▸ hbuf)
    · intro b' _ k' hk'
      rw [hpc] at hk'
      cases hk'
      exact ⟨k, rfl⟩

/-- **A process returns.** -/
theorem Inv.ret (h : Inv N disk s q) (hpc : s.pc p = .ret b k) :
    Inv N disk (s.setPc p .user) q := by
  have hproc := h.proc p
  rw [ProcOk, hpc] at hproc
  refine h.move (c := .user) rfl (fun _ _ => rfl) rfl rfl (h.queued.procs _ _) ?_ ?_ ?_
  · rw [ProcOk, setPc_self]
    exact hproc.1
  · intro b' hb'
    cases hb'
  · intro b' _ k' hk'
    rw [hpc] at hk'
    cases hk'

/-- **A process is killed**, and woken up. -/
theorem Inv.kill (h : Inv N disk s q) :
    Inv N disk { s with sleeping := update s.sleeping p none } q := by
  refine h.move (p := p) (c := s.pc p) ?_ (fun a ha => update_of_ne ha _ _) rfl rfl
    (h.queued.procs _ _) ?_ (fun b hb => h.buf_ne hb) (fun b _ k hk => ⟨k, hk⟩)
  · rw [update_eq_self]
  · have hproc := h.proc p
    unfold ProcOk at hproc ⊢
    cases hpc : s.pc p with
    | user => simp
    | enter b =>
      rw [hpc] at hproc
      simp only [update_self, true_and]
      exact hproc.2
    | wait b k =>
      rw [hpc] at hproc
      simp only [update_self, true_and, true_or, and_true]
      exact hproc.imp (fun ⟨j, hj, hk, _⟩ => ⟨j, hj, hk⟩) fun ⟨_, hb, hdone⟩ =>
        ⟨hb, hdone.of_same rfl rfl⟩
    | ret b k =>
      rw [hpc] at hproc
      simp only [update_self, true_and]
      exact ⟨hproc.2.1, hproc.2.2.of_same rfl rfl⟩

/-- The commands in the queue stay while their buffers are left alone. -/
theorem map_cmd_congr {l : List ℕ} (h : ∀ b ∈ l, t.bufs b = s.bufs b) :
    l.map t.cmd = l.map s.cmd :=
  List.map_congr_left fun b hb => by rw [State.cmd, h b hb, State.cmd]

/-- The queue depends on its buffers and on the device. -/
theorem Executes.congr (h : Executes disk s q) (hbufs : ∀ b ∈ q, t.bufs b = s.bufs b)
    (hdevice : t.device = s.device) (hcompleted : t.completed = s.completed) :
    Executes disk t q := by
  cases q with
  | nil => exact hdevice.trans h
  | cons b q =>
    have hb := hbufs b List.mem_cons_self
    rw [Executes, hdevice, hcompleted, hb, State.cmd, hb]
    exact h

/-- **A buffer is changed** that no call has. -/
theorem Inv.modify {buf : Buf D} (h : Inv N disk s q) (hfree : ∀ p, (s.pc p).buf ≠ some b) :
    Inv N disk { s with bufs := update s.bufs b buf } q := by
  have hmem := h.not_mem hfree
  have hsame (b' : ℕ) (hb' : b' ∈ q) : update s.bufs b buf b' = s.bufs b' :=
    update_of_ne (ne_of_mem_of_not_mem hb' hmem) _ _
  refine ⟨⟨h.queued.links, fun b' hb' => ?_, ?_, ?_, ?_, h.queued.disk⟩, fun p => ?_, h.distinct,
    h.lt, h.waited⟩
  · dsimp only
    rw [hsame b' hb']
    exact h.queued.pending b' hb'
  · rw [map_cmd_congr (s := s) hsame]
    exact h.queued.submitted
  · rw [map_cmd_congr (s := s) fun b' hb' => hsame b' (List.mem_of_mem_take hb')]
    exact h.queued.started
  · exact h.queued.device.congr hsame rfl rfl
  · refine (h.proc p).congr rfl rfl (fun b' hb' => ?_) rfl
    have hne : b' ≠ b := by
      rintro rfl
      exact hfree p hb'
    exact update_of_ne hne _ _

theorem replay_concat (cs : List (Cmd D)) (c : Cmd D) :
    replay disk (cs ++ [c]) = transfer (replay disk cs) c := by
  rw [replay, List.foldl_append]
  rfl

/-- **The disk executes its command.** -/
theorem Inv.execute {c : Cmd D} (h : Inv N disk s q) (hdev : s.device = .busy c) :
    Inv N disk { s with device := .ready c (s.disk c.addr), disk := transfer s.disk c } q := by
  have hdisk : s.disk = replay disk s.completed := by
    rw [h.queued.disk, hdev]
    exact congrArg _ (List.append_nil _)
  refine ⟨⟨h.queued.links, h.queued.pending, h.queued.submitted, h.queued.started, ?_, ?_⟩,
    fun p => (h.proc p).congr rfl rfl (fun _ _ => rfl) rfl, h.distinct, h.lt, h.waited⟩
  · have hexec := h.queued.device
    cases q with
    | nil =>
      rw [Executes, hdev] at hexec
      cases hexec
    | cons b q =>
      rw [Executes, hdev] at hexec
      obtain hcmd | ⟨v, hv, -⟩ := hexec
      · obtain rfl := Device.busy.inj hcmd
        exact .inr ⟨_, rfl, fun _ => congrFun hdisk _⟩
      · cases hv
  · dsimp only [Device.executed]
    rw [replay_concat, hdisk]

/-- Appending a buffer to the queue, and starting the disk if it is idle. -/
theorem Queued.submit {L : LinkedQueue ℕ} (h : Queued disk s q) (hmem : b ∉ q)
    (hclean : (s.bufs b).clean = false) (hL : L.Holds (q ++ [b])) :
    Queued disk (s.submit L b) (q ++ [b]) := by
  have hpending : ∀ a ∈ q ++ [b], (s.bufs a).clean = false := fun a ha => by
    rcases List.mem_append.mp ha with ha | ha
    · exact h.pending a ha
    · exact List.mem_singleton.mp ha ▸ hclean
  have hsubmitted : s.submitted ++ [s.cmd b] = s.completed ++ (q ++ [b]).map s.cmd := by
    rw [h.submitted, List.map_append, List.append_assoc]
    rfl
  have hdevice := h.device
  have hstarted := h.started
  rw [State.submit]
  cases q with
  | nil =>
    have hidle : s.device = .idle := hdevice
    have hhead : L.head = some b := hL.head_eq
    rw [if_pos hhead]
    refine ⟨hL, hpending, hsubmitted, ?_, .inl rfl, ?_⟩
    · simp only [State.idestart, hstarted, List.take_nil, List.map_nil, List.append_nil]
      rfl
    · have hdisk := h.disk
      rw [hidle] at hdisk
      exact hdisk
  | cons a q =>
    have hab : a ≠ b := fun he => hmem (he ▸ List.mem_cons_self)
    rw [hL.head_eq, if_neg (by simpa using hab)]
    exact ⟨hL, hpending, hsubmitted, hstarted, hdevice, h.disk⟩

/-- What holds of a process when another one appends the buffer `b`. -/
theorem ProcOk.snoc (h : ProcOk disk s q p) (hne : (s.pc p).buf ≠ some b) :
    ProcOk disk s (q ++ [b]) p := by
  have hmem {a : ℕ} (ha : (s.pc p).buf = some a) (haq : a ∉ q) : a ∉ q ++ [b] := by
    simp only [List.mem_append, List.mem_singleton, not_or]
    refine ⟨haq, ?_⟩
    rintro rfl
    exact hne ha
  unfold ProcOk at h ⊢
  cases hpc : s.pc p with
  | user => simpa [hpc] using h
  | enter a | ret a k =>
    rw [hpc] at h
    exact ⟨h.1, hmem (by rw [hpc]; rfl) h.2.1, h.2.2⟩
  | wait a k =>
    rw [hpc] at h
    refine h.imp (fun ⟨j, hj, hk⟩ => ⟨j, ?_, hk⟩) fun ⟨h1, h2, h3⟩ =>
      ⟨h1, hmem (by rw [hpc]; rfl) h2, h3⟩
    obtain ⟨hlt, -⟩ := List.getElem?_eq_some_iff.mp hj
    rw [List.getElem?_append_left hlt]
    exact hj

/-- The queue has room for all buffers. -/
theorem Inv.length_le (h : Inv N disk s q) : q.length ≤ N := by
  have hsub : q ⊆ List.range N := fun b hb => by
    obtain ⟨p, k, hp⟩ := h.waited b hb
    exact List.mem_range.mpr (h.lt p b (by rw [hp]; rfl))
  have := (List.subperm_of_subset h.queued.links.nodup hsub).length_le
  rwa [List.length_range] at this

/-- What `submit` leaves alone. -/
theorem submit_frame (s : State D) (L : LinkedQueue ℕ) (b : ℕ) :
    (s.submit L b).pc = s.pc ∧ (s.submit L b).sleeping = s.sleeping ∧
      (s.submit L b).bufs = s.bufs ∧ (s.submit L b).completed = s.completed := by
  rw [State.submit]
  split_ifs <;> exact ⟨rfl, rfl, rfl, rfl⟩

/-- **`iderw` appends its buffer** and starts the disk if it is idle. -/
theorem Inv.begin (h : Inv N disk s q) (hpc : s.pc p = .enter b) :
    ∃ t, s.rwBegin (N + 1) p b = some t ∧ Inv N disk t (q ++ [b]) := by
  have hbuf : (s.pc p).buf = some b := by rw [hpc]; rfl
  have hproc := h.proc p
  rw [ProcOk, hpc] at hproc
  obtain ⟨-, hmem, hclean⟩ := hproc
  obtain ⟨L, happ, hL⟩ := h.queued.links.append hmem (Nat.lt_succ_of_le h.length_le)
  obtain ⟨hpc', hsleep, hbufs, hcompleted⟩ := submit_frame s L b
  have hnumber : s.submitted.length = s.completed.length + q.length := by
    rw [h.queued.submitted, List.length_append, List.length_map]
  have hrun : s.rwBegin (N + 1) p b =
      some ((s.submit L b).rwTest p b s.submitted.length) := by
    rw [State.rwBegin, happ]
    rfl
  refine ⟨_, hrun, ?_⟩
  rw [State.rwTest, hbufs, hclean, if_neg (by simp)]
  refine h.of_pc (p := p) (c := .wait b s.submitted.length) ?_
    ((h.queued.submit hmem hclean hL).procs _ _) (fun a => ?_) (fun b' hb' => h.buf_ne (hb' ▸ hbuf))
    fun b' hb' => ?_
  · rw [State.setPc, hpc']
  · by_cases hap : a = p
    · simp only [ProcOk, State.setPc, hap, update_self, hcompleted]
      exact .inl ⟨q.length, List.getElem?_concat_length, hnumber, .inr trivial⟩
    · have hne : (s.pc a).buf ≠ some b := (h.buf_ne hbuf).2 a hap
      refine ((h.proc a).snoc hne).congr ?_ ?_ (fun b' _ => ?_) hcompleted
      · simp only [State.setPc, update_of_ne hap, hpc']
      · simp only [update_of_ne hap, hsleep]
      · simp only [State.setPc, hbufs]
  · rcases List.mem_append.mp hb' with hb' | hb'
    · refine .inr ⟨hb', fun k hk => ?_⟩
      rw [hpc] at hk
      cases hk
    · exact .inl ⟨_, by rw [List.mem_singleton.mp hb']⟩

/-- Completing the command at the head of the queue and starting the next one. -/
theorem Queued.finish {v : D} (h : Queued disk s (b :: q)) (hdev : s.device = .ready (s.cmd b) v) :
    Queued disk (s.finish b (s.cmd b) v).startNext q := by
  have hmem : b ∉ q := (List.nodup_cons.mp h.links.nodup).1
  have hbufs (a : ℕ) (ha : a ∈ q) : (s.finish b (s.cmd b) v).bufs a = s.bufs a :=
    update_of_ne (ne_of_mem_of_not_mem ha hmem) _ _
  have hpending (a : ℕ) (ha : a ∈ q) : ((s.finish b (s.cmd b) v).bufs a).clean = false := by
    rw [hbufs a ha]
    exact h.pending a (List.mem_cons_of_mem b ha)
  have hcmd := map_cmd_congr hbufs
  have hsubmitted : s.submitted =
      (s.completed ++ [s.cmd b]) ++ q.map (s.finish b (s.cmd b) v).cmd := by
    rw [h.submitted, hcmd, List.append_assoc]
    rfl
  have hstarted : s.started = s.completed ++ [s.cmd b] := h.started
  have hdisk : s.disk = replay disk (s.completed ++ [s.cmd b]) := by
    rw [h.disk, hdev]
    rfl
  have hlinks := h.links.pop
  rw [State.startNext, show (s.finish b (s.cmd b) v).queue.head = q.head? from hlinks.head_eq]
  cases q with
  | nil =>
    refine ⟨hlinks, hpending, hsubmitted, ?_, rfl, ?_⟩
    · exact hstarted.trans (List.append_nil _).symm
    · exact hdisk.trans (congrArg _ (List.append_nil _).symm)
  | cons a q =>
    refine ⟨hlinks, hpending, hsubmitted, ?_, .inl rfl, ?_⟩
    · exact congrArg (· ++ _) hstarted
    · exact hdisk.trans (congrArg _ (List.append_nil _).symm)

/-- What holds of a process when the command at the head of the queue is completed. -/
theorem ProcOk.finish {v : D} (h : ProcOk disk s (b :: q) p) (hnodup : (b :: q).Nodup)
    (hv : (s.bufs b).dirty = false → v = replay disk s.completed (s.bufs b).addr) :
    ProcOk disk (s.finish b (s.cmd b) v) q p := by
  have hmem : b ∉ q := (List.nodup_cons.mp hnodup).1
  have hself : (s.finish b (s.cmd b) v).bufs b = { s.bufs b with
      data := if (s.bufs b).dirty then (s.bufs b).data else v
      valid := true
      dirty := false } := update_self ..
  have hother {a : ℕ} (ha : a ≠ b) : (s.finish b (s.cmd b) v).bufs a = s.bufs a :=
    update_of_ne ha _ _
  have hcompleted : (s.finish b (s.cmd b) v).completed = s.completed ++ [s.cmd b] := rfl
  have hawake (hn : s.sleeping p = none ∨ s.sleeping p = some b) :
      (s.finish b (s.cmd b) v).sleeping p = none := by
    rcases hn with hn | hn <;> simp [State.finish, State.wakeup, hn]
  unfold ProcOk at h ⊢
  rw [show (s.finish b (s.cmd b) v).pc p = s.pc p from rfl]
  cases hpc : s.pc p with
  | user =>
    rw [hpc] at h
    exact hawake (.inl h)
  | enter a =>
    rw [hpc] at h
    obtain ⟨hab, haq⟩ := not_or.mp (List.mem_cons.not.mp h.2.1)
    refine ⟨hawake (.inl h.1), haq, ?_⟩
    rw [hother hab]
    exact h.2.2
  | ret a k =>
    rw [hpc] at h
    obtain ⟨hab, haq⟩ := not_or.mp (List.mem_cons.not.mp h.2.1)
    exact ⟨hawake (.inl h.1), haq, h.2.2.mono (hother hab) hcompleted⟩
  | wait a k =>
    rw [hpc] at h
    rcases h with ⟨j, hj, hk, hsleep⟩ | ⟨hsleep, hmem', hdone⟩
    · cases j with
      | zero =>
        -- the process whose command this is
        obtain rfl : b = a := Option.some.inj hj
        refine .inr ⟨hawake hsleep, hmem, by rw [hself]; rfl, s.cmd b, ?_, rfl, by rw [hself]; rfl,
          ?_⟩
        · rw [hcompleted, hk, Nat.add_zero, List.getElem?_concat_length]
        · rw [hself, hcompleted, hk, Nat.add_zero, List.take_left]
          change (if (s.bufs b).dirty then (s.bufs b).data else v) =
            if (s.bufs b).dirty then (s.bufs b).data else replay disk s.completed (s.bufs b).addr
          cases hd : (s.bufs b).dirty with
          | true => rfl
          | false => exact hv hd
      | succ j =>
        have hj' : q[j]? = some a := hj
        have hab : a ≠ b := ne_of_mem_of_not_mem (List.mem_of_getElem? hj') hmem
        refine .inl ⟨j, hj', ?_, ?_⟩
        · rw [hcompleted, List.length_append, List.length_singleton, hk]
          omega
        · rcases hsleep with hn | hn
          · exact .inl (hawake (.inl hn))
          · right
            simp [State.finish, State.wakeup, hn, hab]
    · obtain ⟨hab, haq⟩ := not_or.mp (List.mem_cons.not.mp hmem')
      exact .inr ⟨hawake (.inl hsleep), haq, hdone.mono (hother hab) hcompleted⟩

/-- What `startNext` leaves alone. -/
theorem startNext_frame (s : State D) :
    s.startNext.pc = s.pc ∧ s.startNext.sleeping = s.sleeping ∧
      s.startNext.bufs = s.bufs ∧ s.startNext.completed = s.completed := by
  rw [State.startNext]
  split <;> exact ⟨rfl, rfl, rfl, rfl⟩

/-- **The interrupt handler** completes the command at the head of the queue. -/
theorem Inv.intr {c : Cmd D} {v : D} (h : Inv N disk s q) (hdev : s.device = .ready c v) :
    Inv N disk (s.ideintr c v) q.tail := by
  cases q with
  | nil =>
    have hidle : s.device = .idle := h.queued.device
    rw [hdev] at hidle
    cases hidle
  | cons b q =>
    obtain ⟨hv, rfl⟩ : ((s.bufs b).dirty = false → v = replay disk s.completed (s.bufs b).addr) ∧
        c = s.cmd b := by
      rcases h.queued.device with hbusy | ⟨v', hready, hv⟩
      · rw [hdev] at hbusy
        cases hbusy
      · rw [hdev] at hready
        obtain ⟨rfl, rfl⟩ := Device.ready.inj hready
        exact ⟨hv, rfl⟩
    have hhead : s.queue.head = some b := h.queued.links.head_eq
    rw [State.ideintr, hhead]
    obtain ⟨hpc, hsleep, hbufs, hcompleted⟩ := startNext_frame (s.finish b (s.cmd b) v)
    have hpc' : (s.finish b (s.cmd b) v).startNext.pc = s.pc := hpc
    refine ⟨h.queued.finish hdev, fun p => ?_, ?_, ?_, fun a ha => ?_⟩
    · exact ((h.proc p).finish h.queued.links.nodup hv).congr (congrFun hpc p) (congrFun hsleep p)
        (fun a _ => congrFun hbufs a) hcompleted
    · dsimp only
      rw [hpc']
      exact h.distinct
    · dsimp only
      rw [hpc']
      exact h.lt
    · dsimp only
      rw [hpc']
      exact h.waited a (List.mem_cons_of_mem b ha)

/-- **The step lemma.** -/
theorem Inv.step {havedisk1 : Bool} {a : Act D} (h : Inv N disk s q)
    (hstep : Step N havedisk1 s a t) : ∃ q', Inv N disk t q' := by
  cases hstep with
  | call hpc hlt hfree _ hclean _ => exact ⟨q, h.call hpc hlt hfree hclean⟩
  | begin hpc hrun =>
    obtain ⟨t', hrun', hinv⟩ := h.begin hpc
    obtain rfl := Option.some.inj (hrun.symm.trans hrun')
    exact ⟨_, hinv⟩
  | test hpc => exact ⟨q, h.test hpc⟩
  | ret hpc => exact ⟨q, h.ret hpc⟩
  | kill => exact ⟨q, h.kill⟩
  | modify hfree => exact ⟨q, h.modify hfree⟩
  | execute hdev => exact ⟨q, h.execute hdev⟩
  | intr hdev => exact ⟨_, h.intr hdev⟩

end Step

section Main

variable {N : ℕ} {havedisk1 : Bool} {disk : ℕ × ℕ → D} {s : State D}

/-- The invariant in every reachable state, for some queue. -/
theorem inv_reachable (hreach : (system N havedisk1 disk).Reachable s) :
    ∃ q, Inv N disk s q := by
  refine hreach.invariant (I := fun s => ∃ q, Inv N disk s q) ?_ ?_
  · rintro _ ⟨bufs, next, rfl⟩
    refine ⟨[], ⟨LinkedQueue.holds_nil rfl, by simp, rfl, rfl, rfl, rfl⟩, fun p => rfl, ?_, ?_,
      by simp⟩
    · intro p p' b hb
      cases hb
    · intro p b hb
      cases hb
  · rintro s a t ⟨q, h⟩ hstep
    exact h.step hstep

/-- What the disk has in a sector after a command that writes it. -/
theorem replay_write {cs : List (Cmd D)} {c : Cmd D} {k : ℕ} (hc : cs[k]? = some c)
    (hw : c.write = true) : replay disk (cs.take (k + 1)) c.addr = c.data := by
  rw [List.take_add_one, hc, Option.toList_some, replay_concat, transfer, if_pos hw,
    update_self]

/-- **The disk queue.** In every state of every run: `idequeue` is a list of different buffers; the
commands that `iderw` has submitted are those that have been completed, followed by those of the
queue, and the commands that have been started are those that have been completed, followed by that
of the head of the queue; the command of a buffer goes to its drive and sector; the disk is idle if
the queue is empty, and else it executes the command of its head, or has executed it and
interrupts; the sectors of the disk are those that result from the commands executed so far, in
order; a process that sleeps waits for a buffer in the queue; and a call of `iderw` that has the
lock can append its buffer.

When a call of `iderw` returns, its buffer is valid and clean, its command has been completed, and
if the buffer was dirty its data were in its sector after the command, and else the buffer has the
data that were in its sector. -/
theorem ide_queue (hreach : (system N havedisk1 disk).Reachable s) :
    (∃ q, s.queue.Holds q ∧ s.submitted = s.completed ++ q.map s.cmd ∧
      s.started = s.completed ++ (q.take 1).map s.cmd ∧
      (∀ b ∈ q, (s.bufs b).dev < 2 → (s.bufs b).sector < 2 ^ 28 →
        (s.cmd b).addr = ((s.bufs b).dev, (s.bufs b).sector)) ∧
      (q = [] → s.device = .idle) ∧
      (∀ b, q.head? = some b → s.device = .busy (s.cmd b) ∨ ∃ v, s.device = .ready (s.cmd b) v) ∧
      (∀ p b, s.sleeping p = some b → b ∈ q) ∧
      ∀ p b, s.pc p = .enter b → ∃ t, s.rwBegin (N + 1) p b = some t) ∧
    s.disk = replay disk (s.completed ++ s.device.executed) ∧
    ∀ p b k, s.pc p = .ret b k →
      (s.bufs b).valid = true ∧ (s.bufs b).dirty = false ∧
      ∃ c, s.submitted[k]? = some c ∧ s.completed[k]? = some c ∧ c.buf = b ∧
        ((s.bufs b).dev < 2 → (s.bufs b).sector < 2 ^ 28 →
          c.addr = ((s.bufs b).dev, (s.bufs b).sector) ∧
          (c.write = true → (s.bufs b).data = c.data ∧
            replay disk (s.completed.take (k + 1)) ((s.bufs b).dev, (s.bufs b).sector) = c.data) ∧
          (c.write = false → (s.bufs b).data =
            replay disk (s.completed.take k) ((s.bufs b).dev, (s.bufs b).sector))) := by
  obtain ⟨q, h⟩ := inv_reachable hreach
  refine ⟨⟨q, h.queued.links, h.queued.submitted, h.queued.started,
    fun b _ hdev hsector => Buf.addr_eq hdev hsector, ?_, fun b hb => ?_, fun p b hb => ?_,
    fun p b hpc => ?_⟩, h.queued.disk, fun p b k hpc => ?_⟩
  · rintro rfl
    exact h.queued.device
  · obtain ⟨q, rfl⟩ := List.head?_eq_some_iff.mp hb
    exact h.queued.device.imp_right fun ⟨v, hv, _⟩ => ⟨v, hv⟩
  · have hproc := h.proc p
    unfold ProcOk at hproc
    cases hpc : s.pc p with
    | wait b' k =>
      simp only [hpc, hb] at hproc
      rcases hproc with ⟨j, hj, -, hsleep⟩ | ⟨hsleep, -⟩
      · obtain rfl : b = b' := by simpa using hsleep
        exact List.mem_of_getElem? hj
      · cases hsleep
    | user | enter _ | ret _ _ => simp [hpc, hb] at hproc
  · obtain ⟨t, ht, -⟩ := h.begin hpc
    exact ⟨t, ht⟩
  · have hproc := h.proc p
    rw [ProcOk, hpc] at hproc
    obtain ⟨-, -, hclean, c, hc, hbuf, haddr, hdata⟩ := hproc
    obtain ⟨hvalid, hdirty⟩ : (s.bufs b).valid = true ∧ (s.bufs b).dirty = false := by
      simpa [Buf.clean] using hclean
    obtain ⟨hk, -⟩ := List.getElem?_eq_some_iff.mp hc
    refine ⟨hvalid, hdirty, c, ?_, hc, hbuf, fun hdev hsector => ?_⟩
    · rw [h.queued.submitted, List.getElem?_append_left hk]
      exact hc
    · have haddr' := haddr.trans (Buf.addr_eq hdev hsector)
      rw [← haddr']
      refine ⟨rfl, fun hw => ?_, fun hw => ?_⟩
      · rw [hw, if_pos rfl] at hdata
        exact ⟨hdata, replay_write hc hw⟩
      · rwa [hw, if_neg Bool.false_ne_true] at hdata

end Main

/-- Two processes at the same time: one writes a buffer to sector 5, and the other, which has to
wait for the disk in the queue, reads sector 5 into its own buffer. When both calls have returned,
the second buffer has the data of the first. -/
theorem ide_queue_write : ∃ s, (system 2 false fun _ => 0).Reachable s ∧
    s.pc 0 = .ret 0 0 ∧ s.pc 1 = .ret 1 1 ∧ (s.bufs 0).dirty = false ∧
      (s.bufs 1).valid = true ∧ (s.bufs 1).data = 7 := by
  let s₀ : State ℕ := ⟨fun b => ⟨true, false, b = 0, 0, 5, if b = 0 then 7 else 0⟩,
    ⟨none, fun _ => none⟩, .idle, fun _ => 0, fun _ => .user, fun _ => none, [], [], []⟩
  have h0 : (system 2 false fun _ => 0).Reachable s₀ := .init ⟨_, _, rfl⟩
  have hcall : Step 2 false s₀ (.call 0 0) (s₀.setPc 0 (.enter 0)) :=
    .call rfl (by decide) (fun _ => by simp [s₀, Pc.buf]) rfl rfl (.inl rfl)
  have hcall' : Step 2 false (s₀.setPc 0 (.enter 0)) (.call 1 1)
      ((s₀.setPc 0 (.enter 0)).setPc 1 (.enter 1)) := by
    refine .call rfl (by decide) (fun p => ?_) rfl rfl (.inl rfl)
    simp only [s₀, State.setPc, update_apply]
    split_ifs <;> simp [Pc.buf]
  -- both buffers are appended before the disk has executed the first command
  have h1 := (h0.step hcall).step hcall'
  have h2 := h1.step (l := Act.go 0) (Step.begin (b := 0) rfl rfl)
  have h3 := h2.step (l := Act.go 1) (Step.begin (b := 1) rfl rfl)
  have h4 := (h3.step (l := Act.execute) (Step.execute rfl)).step (l := Act.intr) (Step.intr rfl)
  have h5 := (h4.step (l := Act.execute) (Step.execute rfl)).step (l := Act.intr) (Step.intr rfl)
  have h6 := h5.step (l := Act.go 1) (Step.test (b := 1) (k := 1) rfl rfl)
  have h7 := h6.step (l := Act.go 0) (Step.test (b := 0) (k := 0) rfl rfl)
  obtain ⟨-, -, hret⟩ := ide_queue h7
  obtain ⟨-, hdirty, c, -, hc, -, hwrote⟩ := hret 0 0 0 rfl
  obtain ⟨hvalid, -, c', -, hc', -, hread⟩ := hret 1 1 1 rfl
  obtain ⟨-, hw, -⟩ := hwrote (by decide) (by decide)
  obtain ⟨-, -, hr⟩ := hread (by decide) (by decide)
  obtain rfl := Option.some.inj hc
  obtain rfl := Option.some.inj hc'
  exact ⟨_, h7, rfl, rfl, hdirty, hvalid, (hr rfl).trans (hw rfl).2⟩

end Xv6.Ide
