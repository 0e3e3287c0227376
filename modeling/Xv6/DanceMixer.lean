import Xv6.Threads

/-!
# The Dance Mixer

The threads of `mp3/2_dance_mixer.py`. Leaders and followers wait in two lines, each for a
semaphore of its own. While a song plays, the band releases the leaders in order; a leader takes
the first follower out of its line, meets it, dances and goes back in line, and so does the
follower. When the song is over the band waits until both lines have been reported full.

A permit of `leaderReady`, `followerReady` or `signal` carries the thread that released it, and
`leaderOf` records who took a follower out of the line. These are ghost data: no step depends on
them, and the value of a semaphore is the number of its permits.

The clock of the band is not modelled: a song can end whenever the band looks at it. The exception
of `popleft()` on an empty deque ends the thread and gives the lock back.

## Main results

* `Step`: the steps of the threads, one for every operation on a shared object.
* `next`, `step_of_next`, `reachable_of_run`: the steps as a function, for runs that are computed.
-/

open Transition
open Function (update)

namespace Xv6.DanceMixer

/-- Where a leader stands. -/
inductive LeaderPc
  /-- at the acquisition of `leaderLock` for the first `append` -/
  | start
  /-- at that `append` -/
  | startIn
  /-- at the release of `leaderLock` after it -/
  | startOut
  /-- at `leader.acquire()` -/
  | wait
  /-- at `followerLock.acquire()` -/
  | look
  /-- at `len(followers) == 0` -/
  | test
  /-- at the `followerLock.release()` before waiting -/
  | goWait
  /-- at `followerInLine.acquire()` -/
  | inLine
  /-- at the `followerLock.release()` of the other branch -/
  | go
  /-- at the acquisition of `followerLock` in `release_follower` -/
  | popAcquire
  /-- at `followers.popleft()` -/
  | pop
  /-- at the release of `followerLock`, with the follower `f` -/
  | popRelease (f : ℕ)
  /-- at `follower.release()` -/
  | free (f : ℕ)
  /-- at `leaderReady.release()` -/
  | leaderReady (f : ℕ)
  /-- at `followerReady.acquire()` -/
  | followerReady (f : ℕ)
  /-- at `signal.release()` -/
  | signal (f : ℕ)
  /-- at the acquisition of `leaderLock` in `l_line_up` -/
  | back
  /-- at `leaders.append(leader)` -/
  | append
  /-- at `len(leaders) == NUM_LEADERS` -/
  | testFull
  /-- at `leaderLineFull.release()` -/
  | full
  /-- at the release of `leaderLock` in `l_line_up` -/
  | backRelease
  /-- ended by an exception -/
  | dead
  deriving DecidableEq, Repr

/-- Where a follower stands. -/
inductive FollowerPc
  /-- at the acquisition of `followerLock` for the first `append` -/
  | start
  /-- at that `append` -/
  | startIn
  /-- at the release of `followerLock` after it -/
  | startOut
  /-- at `follower.acquire()` -/
  | wait
  /-- at `followerReady.release()` -/
  | followerReady
  /-- at `leaderReady.acquire()` -/
  | leaderReady
  /-- at `signal.acquire()` -/
  | signal
  /-- at `ready.release()` -/
  | ready
  /-- at the acquisition of `followerLock` in `f_line_up` -/
  | back
  /-- at `followers.append(follower)` -/
  | append
  /-- at the tests of `len(followers)` -/
  | testFull
  /-- at `followerLineFull.release()` -/
  | full
  /-- at `followerInLine.release()` -/
  | inLine
  /-- at the release of `followerLock` in `f_line_up` -/
  | backRelease
  deriving DecidableEq, Repr

/-- Where the band stands. -/
inductive BandPc
  /-- at the head of the loop of `start_music`, and at the test of `len(leaders)` -/
  | song
  /-- at the acquisition of `leaderLock` -/
  | lock
  /-- at `ready.acquire()` -/
  | ready
  /-- at `leaders.popleft()` -/
  | pop
  /-- at the release of `leaderLock`, with the leader `l` -/
  | popRelease (l : ℕ)
  /-- at `leader.release()` -/
  | free (l : ℕ)
  /-- at `leaderLineFull.acquire()` -/
  | leaderLineFull
  /-- at `followerLineFull.acquire()` -/
  | followerLineFull
  /-- past both -/
  | ended
  deriving DecidableEq, Repr

/-- The objects that the threads share, and the threads. -/
structure State where
  leaders : List ℕ
  followers : List ℕ
  leaderLock : Bool
  followerLock : Bool
  /-- the leaders whose permits are there -/
  leaderReady : List ℕ
  /-- the followers whose permits are there -/
  followerReady : List ℕ
  /-- the leaders whose permits are there -/
  signal : List ℕ
  leaderLineFull : ℕ
  followerLineFull : ℕ
  ready : ℕ
  followerInLine : ℕ
  /-- the semaphore `person` of a leader -/
  leaderPerson : ℕ → ℕ
  /-- the semaphore `person` of a follower -/
  followerPerson : ℕ → ℕ
  leader : ℕ → LeaderPc
  follower : ℕ → FollowerPc
  band : BandPc
  /-- ghost: the leader that has last taken the follower out of the line -/
  leaderOf : ℕ → Option ℕ

namespace State

/-- Change where a leader stands. -/
@[simp] def setLeader (s : State) (i : ℕ) (c : LeaderPc) : State :=
  { s with leader := update s.leader i c }

/-- Change where a follower stands. -/
@[simp] def setFollower (s : State) (j : ℕ) (c : FollowerPc) : State :=
  { s with follower := update s.follower j c }

end State

section Model

variable (L F : ℕ)

/-- The steps of `leader_thread(i)`, with `NUM_LEADERS = L`. -/
inductive LeaderStep (i : ℕ) : State → State → Prop
  | start {s} : s.leader i = .start → s.leaderLock = false →
      LeaderStep i s { s.setLeader i .startIn with leaderLock := true }
  | startIn {s} : s.leader i = .startIn →
      LeaderStep i s { s.setLeader i .startOut with leaders := s.leaders ++ [i] }
  | startOut {s} : s.leader i = .startOut →
      LeaderStep i s { s.setLeader i .wait with leaderLock := false }
  | wait {s k} : s.leader i = .wait → s.leaderPerson i = k + 1 →
      LeaderStep i s { s.setLeader i .look with
        leaderPerson := update s.leaderPerson i k }
  | look {s} : s.leader i = .look → s.followerLock = false →
      LeaderStep i s { s.setLeader i .test with followerLock := true }
  | testEmpty {s} : s.leader i = .test → s.followers = [] → LeaderStep i s (s.setLeader i .goWait)
  | test {s} : s.leader i = .test → s.followers ≠ [] → LeaderStep i s (s.setLeader i .go)
  | goWait {s} : s.leader i = .goWait →
      LeaderStep i s { s.setLeader i .inLine with followerLock := false }
  | inLine {s k} : s.leader i = .inLine → s.followerInLine = k + 1 →
      LeaderStep i s { s.setLeader i .popAcquire with followerInLine := k }
  | go {s} : s.leader i = .go →
      LeaderStep i s { s.setLeader i .popAcquire with followerLock := false }
  | popAcquire {s} : s.leader i = .popAcquire → s.followerLock = false →
      LeaderStep i s { s.setLeader i .pop with followerLock := true }
  | pop {s f fs} : s.leader i = .pop → s.followers = f :: fs →
      LeaderStep i s { s.setLeader i (.popRelease f) with
        followers := fs, leaderOf := update s.leaderOf f (some i) }
  | popEmpty {s} : s.leader i = .pop → s.followers = [] →
      LeaderStep i s { s.setLeader i .dead with followerLock := false }
  | popRelease {s f} : s.leader i = .popRelease f →
      LeaderStep i s { s.setLeader i (.free f) with followerLock := false }
  | free {s f} : s.leader i = .free f →
      LeaderStep i s { s.setLeader i (.leaderReady f) with
        followerPerson := update s.followerPerson f (s.followerPerson f + 1) }
  | leaderReady {s f} : s.leader i = .leaderReady f →
      LeaderStep i s { s.setLeader i (.followerReady f) with leaderReady := i :: s.leaderReady }
  | followerReady {s f j js} : s.leader i = .followerReady f → s.followerReady = j :: js →
      LeaderStep i s { s.setLeader i (.signal f) with followerReady := js }
  | signal {s f} : s.leader i = .signal f →
      LeaderStep i s { s.setLeader i .back with signal := i :: s.signal }
  | back {s} : s.leader i = .back → s.leaderLock = false →
      LeaderStep i s { s.setLeader i .append with leaderLock := true }
  | append {s} : s.leader i = .append →
      LeaderStep i s { s.setLeader i .testFull with leaders := s.leaders ++ [i] }
  | testFull {s} : s.leader i = .testFull → s.leaders.length = L →
      LeaderStep i s (s.setLeader i .full)
  | testNotFull {s} : s.leader i = .testFull → s.leaders.length ≠ L →
      LeaderStep i s (s.setLeader i .backRelease)
  | full {s} : s.leader i = .full →
      LeaderStep i s { s.setLeader i .backRelease with leaderLineFull := s.leaderLineFull + 1 }
  | backRelease {s} : s.leader i = .backRelease →
      LeaderStep i s { s.setLeader i .wait with leaderLock := false }

/-- The steps of `follower_thread(j)`, with `NUM_FOLLOWERS = F`. -/
inductive FollowerStep (j : ℕ) : State → State → Prop
  | start {s} : s.follower j = .start → s.followerLock = false →
      FollowerStep j s { s.setFollower j .startIn with followerLock := true }
  | startIn {s} : s.follower j = .startIn →
      FollowerStep j s { s.setFollower j .startOut with followers := s.followers ++ [j] }
  | startOut {s} : s.follower j = .startOut →
      FollowerStep j s { s.setFollower j .wait with followerLock := false }
  | wait {s k} : s.follower j = .wait → s.followerPerson j = k + 1 →
      FollowerStep j s { s.setFollower j .followerReady with
        followerPerson := update s.followerPerson j k }
  | followerReady {s} : s.follower j = .followerReady →
      FollowerStep j s { s.setFollower j .leaderReady with followerReady := j :: s.followerReady }
  | leaderReady {s l ls} : s.follower j = .leaderReady → s.leaderReady = l :: ls →
      FollowerStep j s { s.setFollower j .signal with leaderReady := ls }
  | signal {s l ls} : s.follower j = .signal → s.signal = l :: ls →
      FollowerStep j s { s.setFollower j .ready with signal := ls }
  | ready {s} : s.follower j = .ready →
      FollowerStep j s { s.setFollower j .back with ready := s.ready + 1 }
  | back {s} : s.follower j = .back → s.followerLock = false →
      FollowerStep j s { s.setFollower j .append with followerLock := true }
  | append {s} : s.follower j = .append →
      FollowerStep j s { s.setFollower j .testFull with followers := s.followers ++ [j] }
  | testFull {s} : s.follower j = .testFull → s.followers.length = F →
      FollowerStep j s (s.setFollower j .full)
  | testSome {s} : s.follower j = .testFull → s.followers.length ≠ F → 0 < s.followers.length →
      FollowerStep j s (s.setFollower j .inLine)
  | testNone {s} : s.follower j = .testFull → s.followers.length ≠ F → s.followers.length = 0 →
      FollowerStep j s (s.setFollower j .backRelease)
  | full {s} : s.follower j = .full →
      FollowerStep j s { s.setFollower j .backRelease with
        followerLineFull := s.followerLineFull + 1 }
  | inLine {s} : s.follower j = .inLine →
      FollowerStep j s { s.setFollower j .backRelease with
        followerInLine := s.followerInLine + 1 }
  | backRelease {s} : s.follower j = .backRelease →
      FollowerStep j s { s.setFollower j .wait with followerLock := false }

/-- The steps of `band()`; `over` is what its clock says when it looks at it. -/
inductive BandStep : Bool → State → State → Prop
  | look {s} : s.band = .song → s.leaders ≠ [] → BandStep false s { s with band := .lock }
  | timeUp {s} : s.band = .song → BandStep true s { s with band := .leaderLineFull }
  | lock {s b} : s.band = .lock → s.leaderLock = false →
      BandStep b s { s with band := .ready, leaderLock := true }
  | ready {s b k} : s.band = .ready → s.ready = k + 1 →
      BandStep b s { s with band := .pop, ready := k }
  | pop {s b l ls} : s.band = .pop → s.leaders = l :: ls →
      BandStep b s { s with band := .popRelease l, leaders := ls }
  | popRelease {s b l} : s.band = .popRelease l →
      BandStep b s { s with band := .free l, leaderLock := false }
  | free {s b l} : s.band = .free l →
      BandStep b s { s with
        band := .song
        leaderPerson := update s.leaderPerson l (s.leaderPerson l + 1) }
  | leaderLineFull {s b k} : s.band = .leaderLineFull → s.leaderLineFull = k + 1 →
      BandStep b s { s with band := .followerLineFull, leaderLineFull := k }
  | followerLineFull {s b k} : s.band = .followerLineFull → s.followerLineFull = k + 1 →
      BandStep b s { s with band := .ended, followerLineFull := k }
  | ended {s b} : s.band = .ended → BandStep b s { s with band := .song }

/-- Which thread takes a step. -/
inductive Act
  | leader (i : ℕ)
  | follower (j : ℕ)
  | band (done : Bool)
  deriving DecidableEq, Repr

/-- The steps of the threads. -/
inductive Step : State → Act → State → Prop
  | leader {s t i} : i < L → LeaderStep L i s t → Step s (.leader i) t
  | follower {s t j} : j < F → FollowerStep F j s t → Step s (.follower j) t
  | band {s t b} : BandStep b s t → Step s (.band b) t

/-- The state in which `main` starts the threads. -/
def initState : State where
  leaders := []
  followers := []
  leaderLock := false
  followerLock := false
  leaderReady := []
  followerReady := []
  signal := []
  leaderLineFull := 0
  followerLineFull := 0
  ready := 1
  followerInLine := 0
  leaderPerson _ := 0
  followerPerson _ := 0
  leader _ := .start
  follower _ := .start
  band := .song
  leaderOf _ := none

/-- The runs of the program. -/
def system : System State Act where
  init s := s = initState
  step := Step L F

/-! ### Steps as a function -/

/-- A step that waits for a lock. -/
def whenFree (locked : Bool) (t : State) : Option State := if locked then none else some t

/-- A step that waits for a permit, given what is left of the permits. -/
def whenPos (permits : ℕ) (t : ℕ → State) : Option State :=
  match permits with
  | 0 => none
  | k + 1 => some (t k)

/-- A step that needs the first element of a list, given the element and the rest. -/
def whenCons (l : List ℕ) (t : ℕ → List ℕ → State) : Option State :=
  match l with
  | [] => none
  | a :: as => some (t a as)

/-- The step of a leader, if it can take one. -/
def leaderNext (s : State) (i : ℕ) : Option State :=
  match s.leader i with
  | .start => whenFree s.leaderLock { s.setLeader i .startIn with leaderLock := true }
  | .startIn => some { s.setLeader i .startOut with leaders := s.leaders ++ [i] }
  | .startOut => some { s.setLeader i .wait with leaderLock := false }
  | .wait => whenPos (s.leaderPerson i) fun k =>
    { s.setLeader i .look with leaderPerson := update s.leaderPerson i k }
  | .look => whenFree s.followerLock { s.setLeader i .test with followerLock := true }
  | .test => some (s.setLeader i (if s.followers = [] then .goWait else .go))
  | .goWait => some { s.setLeader i .inLine with followerLock := false }
  | .inLine => whenPos s.followerInLine fun k =>
    { s.setLeader i .popAcquire with followerInLine := k }
  | .go => some { s.setLeader i .popAcquire with followerLock := false }
  | .popAcquire => whenFree s.followerLock { s.setLeader i .pop with followerLock := true }
  | .pop =>
    match s.followers with
    | [] => some { s.setLeader i .dead with followerLock := false }
    | f :: fs => some { s.setLeader i (.popRelease f) with
        followers := fs, leaderOf := update s.leaderOf f (some i) }
  | .popRelease f => some { s.setLeader i (.free f) with followerLock := false }
  | .free f => some { s.setLeader i (.leaderReady f) with
      followerPerson := update s.followerPerson f (s.followerPerson f + 1) }
  | .leaderReady f =>
    some { s.setLeader i (.followerReady f) with leaderReady := i :: s.leaderReady }
  | .followerReady f => whenCons s.followerReady fun _ js =>
    { s.setLeader i (.signal f) with followerReady := js }
  | .signal _ => some { s.setLeader i .back with signal := i :: s.signal }
  | .back => whenFree s.leaderLock { s.setLeader i .append with leaderLock := true }
  | .append => some { s.setLeader i .testFull with leaders := s.leaders ++ [i] }
  | .testFull => some (s.setLeader i (if s.leaders.length = L then .full else .backRelease))
  | .full => some { s.setLeader i .backRelease with leaderLineFull := s.leaderLineFull + 1 }
  | .backRelease => some { s.setLeader i .wait with leaderLock := false }
  | .dead => none

/-- The step of a follower, if it can take one. -/
def followerNext (s : State) (j : ℕ) : Option State :=
  match s.follower j with
  | .start => whenFree s.followerLock { s.setFollower j .startIn with followerLock := true }
  | .startIn => some { s.setFollower j .startOut with followers := s.followers ++ [j] }
  | .startOut => some { s.setFollower j .wait with followerLock := false }
  | .wait => whenPos (s.followerPerson j) fun k =>
    { s.setFollower j .followerReady with
      followerPerson := update s.followerPerson j k }
  | .followerReady =>
    some { s.setFollower j .leaderReady with followerReady := j :: s.followerReady }
  | .leaderReady => whenCons s.leaderReady fun _ ls =>
    { s.setFollower j .signal with leaderReady := ls }
  | .signal => whenCons s.signal fun _ ls => { s.setFollower j .ready with signal := ls }
  | .ready => some { s.setFollower j .back with ready := s.ready + 1 }
  | .back => whenFree s.followerLock { s.setFollower j .append with followerLock := true }
  | .append => some { s.setFollower j .testFull with followers := s.followers ++ [j] }
  | .testFull =>
    if s.followers.length = F then some (s.setFollower j .full)
    else if 0 < s.followers.length then some (s.setFollower j .inLine)
    else some (s.setFollower j .backRelease)
  | .full => some { s.setFollower j .backRelease with
      followerLineFull := s.followerLineFull + 1 }
  | .inLine => some { s.setFollower j .backRelease with
      followerInLine := s.followerInLine + 1 }
  | .backRelease => some { s.setFollower j .wait with followerLock := false }

/-- The step of the band, if it can take one. -/
def bandNext (s : State) (done : Bool) : Option State :=
  match s.band with
  | .song =>
    if done then some { s with band := .leaderLineFull }
    else if s.leaders = [] then none
    else some { s with band := .lock }
  | .lock => whenFree s.leaderLock { s with band := .ready, leaderLock := true }
  | .ready => whenPos s.ready fun k => { s with band := .pop, ready := k }
  | .pop => whenCons s.leaders fun l ls => { s with band := .popRelease l, leaders := ls }
  | .popRelease l => some { s with band := .free l, leaderLock := false }
  | .free l => some { s with
      band := .song
      leaderPerson := update s.leaderPerson l (s.leaderPerson l + 1) }
  | .leaderLineFull => whenPos s.leaderLineFull fun k =>
    { s with band := .followerLineFull, leaderLineFull := k }
  | .followerLineFull => whenPos s.followerLineFull fun k =>
    { s with band := .ended, followerLineFull := k }
  | .ended => some { s with band := .song }

/-- The step of a thread, if it can take one. -/
def next (s : State) : Act → Option State
  | .leader i => if i < L then leaderNext L s i else none
  | .follower j => if j < F then followerNext F s j else none
  | .band done => bandNext s done

end Model

section Sound

variable {L F i j : ℕ} {s t : State}

/-- The guard of a step that acquires a lock. -/
theorem whenFree_eq_some {b : Bool} {u : State} (h : whenFree b u = some t) :
    b = false ∧ u = t := by
  cases b with
  | false => exact ⟨rfl, Option.some.inj h⟩
  | true => cases h

/-- The guard of a step that takes a permit. -/
theorem whenPos_eq_some {n : ℕ} {f : ℕ → State} (h : whenPos n f = some t) :
    ∃ k, n = k + 1 ∧ f k = t := by
  cases n with
  | zero => cases h
  | succ k => exact ⟨k, rfl, Option.some.inj h⟩

/-- The guard of a step that takes the first of a list. -/
theorem whenCons_eq_some {l : List ℕ} {f : ℕ → List ℕ → State} (h : whenCons l f = some t) :
    ∃ a as, l = a :: as ∧ f a as = t := by
  cases l with
  | nil => cases h
  | cons a as => exact ⟨a, as, rfl, Option.some.inj h⟩

/-- The computed step of a leader is a step. -/
theorem leaderStep_of_next (h : leaderNext L s i = some t) : LeaderStep L i s t := by
  cases hpc : s.leader i <;> simp only [leaderNext, hpc] at h
  case dead => cases h
  case start | look | popAcquire | back =>
    obtain ⟨hfree, rfl⟩ := whenFree_eq_some h
    constructor <;> assumption
  case wait | inLine =>
    obtain ⟨k, hk, rfl⟩ := whenPos_eq_some h
    constructor <;> assumption
  case followerReady =>
    obtain ⟨a, as, hcons, rfl⟩ := whenCons_eq_some h
    exact .followerReady hpc hcons
  case test =>
    cases h
    by_cases he : s.followers = []
    · rw [if_pos he]
      exact .testEmpty hpc he
    · rw [if_neg he]
      exact .test hpc he
  case testFull =>
    cases h
    by_cases he : s.leaders.length = L
    · rw [if_pos he]
      exact .testFull hpc he
    · rw [if_neg he]
      exact .testNotFull hpc he
  case pop =>
    cases hf : s.followers with
    | nil =>
      rw [hf] at h
      cases h
      exact .popEmpty hpc hf
    | cons f fs =>
      rw [hf] at h
      cases h
      exact .pop hpc hf
  case backRelease =>
    cases h
    exact .backRelease hpc
  all_goals
    cases h
    constructor
    assumption

/-- The computed step of a follower is a step. -/
theorem followerStep_of_next (h : followerNext F s j = some t) : FollowerStep F j s t := by
  cases hpc : s.follower j <;> simp only [followerNext, hpc] at h
  case start | back =>
    obtain ⟨hfree, rfl⟩ := whenFree_eq_some h
    constructor <;> assumption
  case wait =>
    obtain ⟨k, hk, rfl⟩ := whenPos_eq_some h
    exact .wait hpc hk
  case leaderReady =>
    obtain ⟨a, as, hcons, rfl⟩ := whenCons_eq_some h
    exact .leaderReady hpc hcons
  case signal =>
    obtain ⟨a, as, hcons, rfl⟩ := whenCons_eq_some h
    exact .signal hpc hcons
  case testFull =>
    split_ifs at h with h1 h2 <;> cases h
    · exact .testFull hpc h1
    · exact .testSome hpc h1 h2
    · exact .testNone hpc h1 (by omega)
  case backRelease =>
    cases h
    exact .backRelease hpc
  all_goals
    cases h
    constructor
    assumption

/-- The computed step of the band is a step. -/
theorem bandStep_of_next {b : Bool} (h : bandNext s b = some t) : BandStep b s t := by
  cases hpc : s.band <;> simp only [bandNext, hpc] at h
  case song =>
    cases b with
    | true =>
      cases h
      exact .timeUp hpc
    | false =>
      simp only [Bool.false_eq_true, if_false] at h
      split_ifs at h with he
      cases h
      exact .look hpc he
  case lock =>
    obtain ⟨hfree, rfl⟩ := whenFree_eq_some h
    exact .lock hpc hfree
  case ready | leaderLineFull | followerLineFull =>
    obtain ⟨k, hk, rfl⟩ := whenPos_eq_some h
    constructor <;> assumption
  case pop =>
    obtain ⟨a, as, hcons, rfl⟩ := whenCons_eq_some h
    exact .pop hpc hcons
  all_goals
    cases h
    constructor
    assumption

/-- **What the function computes is a step.** -/
theorem step_of_next {a : Act} (h : next L F s a = some t) : Step L F s a t := by
  cases a with
  | leader i =>
    rw [next] at h
    split_ifs at h with hi
    exact .leader hi (leaderStep_of_next h)
  | follower j =>
    rw [next] at h
    split_ifs at h with hj
    exact .follower hj (followerStep_of_next h)
  | band b => exact .band (bandStep_of_next h)

/-- The step of a thread, if it can take one and the condition `C` holds. -/
def nextWhen (L F : ℕ) (C : State → Act → Prop) [∀ s, DecidablePred (C s)] (s : State) (a : Act) :
    Option State :=
  if C s a then next L F s a else none

/-- A run that the function computes. -/
theorem reachable_of_run {C : State → Act → Prop} [∀ s, DecidablePred (C s)] {as : List Act}
    (h : as.foldlM (nextWhen L F C) initState = some t) :
    ((system L F).restrict C).Reachable t := by
  have h0 : ((system L F).restrict C).Reachable initState := .init rfl
  refine h0.foldlM (fun s a u hu => ?_) h
  rw [nextWhen] at hu
  split_ifs at hu with hc
  exact ⟨step_of_next hu, hc⟩

end Sound

/-! ### Pieces of runs -/

/-- The first `append` of `l` leaders and `f` followers. -/
def starts (l f : ℕ) : List Act :=
  (List.range l).flatMap (fun i => List.replicate 3 (.leader i)) ++
    (List.range f).flatMap fun j => List.replicate 3 (.follower j)

/-- The band releases a leader. -/
def calls : List Act := List.replicate 6 (.band false)

/-- The band releases the leader `i`, which takes the follower `j` out of its line; they meet, and
the next leader can be released. -/
def dance (i j : ℕ) : List Act :=
  calls ++ List.replicate 9 (.leader i) ++ List.replicate 3 (.follower j) ++
    List.replicate 2 (.leader i) ++ List.replicate 2 (.follower j)

/-- The leader `i` and the follower `j` go back in line, the line of the leaders being full then. -/
def lineUp (i j : ℕ) : List Act := List.replicate 5 (.leader i) ++ List.replicate 5 (.follower j)

/-- The song is over, and the band takes its reports. -/
def stops : List Act := List.replicate 3 (.band true)

end Xv6.DanceMixer
