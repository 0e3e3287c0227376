import Xv6.QuietOps

/-!
# Rules for System Calls

A system call takes references to inodes, locks them, opens transactions, and gives everything
back. The functions of `fs.c` and `sysfile.c` are walked through here once, with any judgement
`Ok b L c b' M` that has the rules of `Rules`: the code `c`, started inside (`b = true`) or outside
a transaction and with the items `L`, ends inside or outside one as `b'` says and with the items
`M r` for its answer `r`.

## Main results

* `Rules.readi`, `Rules.writei`, `Rules.dirlookup`, `Rules.dirlink`, `Rules.namex`: `fs.c`.
* `Rules.fileclose`, `Rules.sysLink`, `Rules.sysUnlink`, `Rules.create`, `Rules.sysOpen`,
  `Rules.makeNode`, `Rules.sysChdir`: `file.c` and `sysfile.c`.
* `Rules.execFile`, `Rules.exitFiles`: what `exec` and `exit` do to files.
-/

namespace Xv6

/-- What a running call holds. -/
inductive Item
  /-- a reference to a cache entry -/
  | ref (a : ℕ)
  /-- a reference to a cache entry that the call has locked -/
  | lock (a : ℕ)
  /-- an open file that has been allocated and has no inode yet -/
  | file (f : ℕ)
  /-- the reference of the current directory of a process, which is about to change -/
  | cwd (q : ℕ)
  deriving DecidableEq

/-- The references among the answers of a lookup. -/
def found (r : Option ℕ) : List Item := r.toList.map .ref

/-- A locked inode that a function returns. -/
def locked (r : Option ℕ) : List Item := r.toList.map .lock

/-- The open files among the answers of `filealloc`. -/
def allocated (r : Option ℕ) : List Item := r.toList.map .file

/-- The references among the answers of `fileclose`. -/
def dropped : Option File → List Item
  | none => []
  | some ff => if ff.type = .inode then [.ref ff.ip] else []

/-- A judgement about the code of process `p`, with the rules that the functions need. -/
structure Rules (p : ℕ) where
  Ok {α : Type} : Bool → List Item → Fs α → Bool → (α → List Item) → Prop
  pure : ∀ {α : Type} {b L} {M : α → List Item} (r : α), M r = L → Ok b L (Pure.pure r) b M
  bind : ∀ {α β : Type} {b b' b'' L M N} {c : Fs α} {k : α → Fs β}, Ok b L c b' M →
    (∀ r, Ok b' (M r) (k r) b'' N) → Ok b L (c >>= k) b'' N
  fail : ∀ {α : Type} {b b' L} {M : α → List Item} (e : Fault), Ok b L (Xv6.fail e) b' M
  /-- the order of the items does not matter -/
  perm : ∀ {α : Type} {b b' L K M N} {c : Fs α}, L.Perm K → (∀ r, (M r).Perm (N r)) →
    Ok b K c b' M → Ok b L c b' N
  /-- code that touches neither the log nor a reference -/
  plain : ∀ {α : Type} {b L} {c : Fs α}, c.Only Op.Plain → Ok b L c b fun _ => L
  /-- code on blocks, in a transaction -/
  block : ∀ {α : Type} {L} {c : Fs α}, c.Only Op.Block → Ok true L c true fun _ => L
  bmap : ∀ {b L} (a bn : ℕ), Ok b L (Xv6.bmap a bn) b fun _ => L
  beginTrans : ∀ {L}, Ok false L Xv6.beginTrans true fun _ => L
  commitTrans : ∀ {L}, Ok true L Xv6.commitTrans false fun _ => L
  iget : ∀ {b L} (inum : ℕ), Ok b L (Xv6.iget inum) b fun a => .ref a :: L
  ilock : ∀ {b L a}, Ok b (.ref a :: L) (Xv6.ilock a) b fun _ => .lock a :: L
  iunlock : ∀ {b L a}, Ok b (.lock a :: L) (Xv6.iunlock a) b fun _ => .ref a :: L
  iput : ∀ {b L a}, Ok b (.ref a :: L) (Xv6.iput a) b fun _ => L
  filealloc : ∀ {b L}, Ok b L (perform .filealloc) b fun r => allocated r ++ L
  fileDrop : ∀ {b L f}, .file f ∉ L → Ok b L (perform (.fileDrop f)) b fun r => dropped r ++ L
  /-- an open file that the call has allocated -/
  fileDrop_new : ∀ {b L f}, Ok b (.file f :: L) (perform (.fileDrop f)) b fun r => dropped r ++ L
  setFile : ∀ {b L f a} (readable writable : Bool), Ok b (.file f :: .ref a :: L)
    (perform (.setFile f ⟨.inode, 0, readable, writable, a, 0⟩)) b fun _ => L
  /-- one more reference to the current directory -/
  idupCwd : ∀ {α : Type} {b b' L M} {k : ℕ → Fs α}, .cwd p ∉ L →
    (∀ a, Ok b (.ref a :: L) (k a) b' M) →
    Ok b L (do
      match ← perform .cwd with
      | some cwd => do k (← idup cwd)
      | none => Xv6.fail .undefined) b' M
  /-- the call takes over the reference of the current directory -/
  takeCwd : ∀ {α : Type} {b b' L M} {k : Option ℕ → Fs α}, .cwd p ∉ L → Ok b L (k none) b' M →
    (∀ a, Ok b (.ref a :: .cwd p :: L) (k (some a)) b' M) → Ok b L (perform .cwd >>= k) b' M
  setCwd : ∀ {b L} (v : Option ℕ), .cwd p ∉ L →
    Ok b (.cwd p :: (found v ++ L)) (perform (.setCwd v)) b fun _ => L

namespace Rules

variable {α β : Type} {p : ℕ} (R : Rules p) {b b' b'' : Bool} {L K : List Item} {a d f : ℕ}

/-! ### Structure -/

/-- Code that may find nothing comes first. -/
theorem option {c : Fs (Option α)} {k : Option α → Fs β} {M : Option α → List Item}
    {N : β → List Item} (hc : R.Ok b L c b' M) (hnone : R.Ok b' (M none) (k none) b'' N)
    (hsome : ∀ r, R.Ok b' (M (some r)) (k (some r)) b'' N) : R.Ok b L (c >>= k) b'' N := by
  refine R.bind hc fun r => ?_
  cases r with
  | none => exact hnone
  | some r => exact hsome r

/-- Both branches end with the same items. -/
theorem ite {q : Prop} [Decidable q] {c c' : Fs α} {M : α → List Item} (hc : R.Ok b L c b' M)
    (hc' : R.Ok b L c' b' M) : R.Ok b L (if q then c else c') b' M := by
  split_ifs
  · exact hc
  · exact hc'

/-- The first two items change places. -/
theorem swap {c : Fs α} {x y : Item} {M : α → List Item} (hc : R.Ok b (x :: y :: L) c b' M) :
    R.Ok b (y :: x :: L) c b' M :=
  R.perm (.swap _ _ _) (fun _ => .refl _) hc

/-- Code that works on an inode that the call has locked. -/
theorem locked {c : Fs α} (ha : .lock a ∈ L)
    (hc : ∀ K, R.Ok b (.lock a :: K) c b fun _ => .lock a :: K) : R.Ok b L c b fun _ => L :=
  R.perm (List.perm_cons_erase ha) (fun _ => (List.perm_cons_erase ha).symm) (hc _)

/-- One operation that touches neither the log nor a reference. -/
theorem perform {o : Op} (ho : o.Plain) : R.Ok b L (Xv6.perform o) b fun _ => L :=
  R.plain (Prog.only_lift ho)

theorem getInode : R.Ok b L (Xv6.getInode a) b fun _ => L := R.perform trivial

theorem updateInode (g : Dinode → Dinode) : R.Ok true L (Xv6.updateInode a g) true fun _ => L :=
  R.block (only_updateInode a g)

theorem iunlockput : R.Ok b (.lock a :: L) (Xv6.iunlockput a) b fun _ => L :=
  R.bind R.iunlock fun _ => R.iput

/-- `ialloc` returns a reference. -/
theorem ialloc (type : BitVec 16) : R.Ok true L (Xv6.ialloc type) true fun a => .ref a :: L := by
  refine R.bind (R.block only_readsb) fun sb => ?_
  generalize (List.range sb.ninodes).drop 1 = is
  induction is with
  | nil => exact R.fail _
  | cons i is ih =>
    exact R.bind (R.block (only_bread _)) fun bp =>
      R.ite (R.bind (R.block (only_logWrite _ _)) fun _ => R.iget i) ih

/-! ### Contents -/

/-- The console is read without the lock of its inode. -/
theorem consoleread (n : ℕ) :
    R.Ok b (.lock a :: L) (Xv6.consoleread a n) b fun _ => .lock a :: L :=
  R.bind R.iunlock fun _ => R.bind (R.perform (o := .devRead n) trivial) fun _ =>
    R.bind R.ilock fun _ => R.pure _ rfl

theorem consolewrite (src : List UInt8) :
    R.Ok b (.lock a :: L) (Xv6.consolewrite a src) b fun _ => .lock a :: L :=
  R.bind R.iunlock fun _ => R.bind R.ilock fun _ => R.pure _ rfl

/-- The loop of `readi` keeps the items. -/
theorem readiLoop (fuel off n : ℕ) : R.Ok b L (Xv6.readiLoop a fuel off n) b fun _ => L := by
  induction fuel generalizing off n with
  | zero => exact R.pure _ rfl
  | succ fuel ih =>
    exact R.ite (R.pure _ rfl) (R.bind (R.bmap a _) fun _ =>
      R.bind (R.perform (o := .bread _) trivial) fun _ => R.bind (ih _ _) fun _ => R.pure _ rfl)

/-- `readi` needs the lock of its inode. -/
theorem readi (ha : .lock a ∈ L) (off n : ℕ) : R.Ok b L (Xv6.readi a off n) b fun _ => L := by
  refine R.bind R.getInode fun v => ?_
  split_ifs
  · exact R.locked ha fun K => R.bind (R.consoleread n) fun _ => R.pure _ rfl
  · exact R.pure _ rfl
  · exact R.pure _ rfl
  all_goals exact R.bind (R.readiLoop _ _ _) fun _ => R.pure _ rfl

/-- `writei` needs the lock of its inode and a transaction. -/
theorem writei (ha : .lock a ∈ L) (src : List UInt8) (off : ℕ) :
    R.Ok true L (Xv6.writei a src off) true fun _ => L := by
  refine R.bind R.getInode fun v => ?_
  split_ifs
  · exact R.locked ha fun K => R.bind (R.consolewrite src) fun _ => R.pure _ rfl
  · exact R.pure _ rfl
  · exact R.pure _ rfl
  · exact R.pure _ rfl
  · refine R.block ((only_writeiLoop _ _ _ _).bind fun _ => (only_getInode a).bind fun v => ?_)
    split_ifs
    · exact (only_setDinode _ _).bind fun _ => (only_iupdate a).bind fun _ => trivial
    · trivial

/-! ### Directories and paths -/

theorem readDirent (ha : .lock a ∈ L) (e : Panic) (off : ℕ) :
    R.Ok b L (Xv6.readDirent e a off) b fun _ => L :=
  R.option (R.readi ha off DIRENT) (R.fail _) fun _ => R.ite (R.pure _ rfl) (R.fail _)

/-- `dirlookup` returns a reference if it finds the name. -/
theorem dirlookup (ha : .lock a ∈ L) (name : List UInt8) :
    R.Ok b L (Xv6.dirlookup a name) b fun r => found (r.map Prod.fst) ++ L := by
  have hscan : ∀ ks, R.Ok b L (dirScan a name ks) b fun _ => L := by
    intro ks
    induction ks with
    | nil => exact R.pure _ rfl
    | cons k ks ih =>
      exact R.bind (R.readDirent ha _ _) fun de => R.ite ih (R.ite (R.pure _ rfl) ih)
  exact R.bind R.getInode fun v => R.ite (R.fail _) (R.option (hscan _) (R.pure _ rfl)
    fun x => R.bind (R.iget x.2) fun ip => R.pure _ rfl)

/-- `dirlink` gives back the reference that its `dirlookup` may return. -/
theorem dirlink (ha : .lock a ∈ L) (name : List UInt8) (inum : ℕ) :
    R.Ok true L (Xv6.dirlink a name inum) true fun _ => L := by
  have hscan : ∀ last ks, R.Ok true L (findSlot a last ks) true fun _ => L := by
    intro last ks
    induction ks with
    | nil => exact R.pure _ rfl
    | cons k ks ih => exact R.bind (R.readDirent ha _ _) fun de => R.ite (R.pure _ rfl) ih
  refine R.option (R.dirlookup ha name) ?_ fun x => R.bind R.iput fun _ => R.pure _ rfl
  exact R.bind R.getInode fun v => R.bind (hscan _ _) fun off =>
    R.option (R.writei ha _ off) (R.fail _) fun m => R.ite (R.pure _ rfl) (R.fail _)

/-- **The loop of `namex`** gives back every reference but the one to the inode it has found. -/
theorem namexLoop {fuel : ℕ} {path : List UInt8} (hfuel : path.length < fuel) (parent : Bool) :
    R.Ok b (.ref a :: L) (Xv6.namexLoop parent fuel a path) b
      fun r => found (r.map Prod.fst) ++ L := by
  induction fuel generalizing a path with
  | zero => omega
  | succ fuel ih =>
    rw [Xv6.namexLoop]
    cases hskip : skipelem path with
    | none => exact R.ite (R.bind R.iput fun _ => R.pure _ rfl) (R.pure _ rfl)
    | some y =>
      obtain ⟨name, rest⟩ := y
      have hrest := skipelem_length hskip
      refine R.bind R.ilock fun _ => R.bind R.getInode fun v =>
        R.ite (R.bind R.iunlockput fun _ => R.pure _ rfl)
          (R.ite (R.bind R.iunlock fun _ => R.pure _ rfl) ?_)
      exact R.option (R.dirlookup List.mem_cons_self name)
        (R.bind R.iunlockput fun _ => R.pure _ rfl) fun z =>
          R.swap (R.bind R.iunlockput fun _ => ih (by omega))

/-- `namex` returns a reference if it finds the path, and nothing is left locked. -/
theorem namex (hcwd : .cwd p ∉ L) (path : List UInt8) (parent : Bool) :
    R.Ok b L (Xv6.namex path parent) b fun r => found (r.map Prod.fst) ++ L := by
  have hloop : ∀ {a}, R.Ok b (.ref a :: L) (Xv6.namexLoop parent (path.length + 1) a path) b
      fun r => found (r.map Prod.fst) ++ L := R.namexLoop (Nat.lt_succ_self _) parent
  exact R.ite (R.bind (R.iget ROOTINO) fun _ => hloop) (R.idupCwd hcwd fun _ => hloop)

theorem namei (hcwd : .cwd p ∉ L) (path : List UInt8) :
    R.Ok b L (Xv6.namei path) b fun r => found r ++ L :=
  R.bind (R.namex hcwd path false) fun _ => R.pure _ rfl

/-! ### Open files -/

theorem argfd (fd : ℤ) : R.Ok b L (Xv6.argfd fd) b fun _ => L :=
  R.ite (R.pure _ rfl) (R.perform trivial)

/-- `fdalloc` takes no references. -/
theorem fdalloc (f : ℕ) : R.Ok b L (Xv6.fdalloc f) b fun _ => L := by
  unfold Xv6.fdalloc
  generalize List.range NOFILE = fds
  induction fds with
  | nil => exact R.pure _ rfl
  | cons fd fds ih =>
    exact R.option (R.perform (o := .ofile fd) trivial)
      (R.bind (R.perform (o := .setOfile fd (some f)) trivial) fun _ => R.pure _ rfl) fun _ => ih

/-- `fileclose` after its critical section. -/
theorem fileclose_of_drop (hdrop : R.Ok false K (Xv6.perform (.fileDrop f)) false
    fun r => dropped r ++ L) : R.Ok false K (Xv6.fileclose f) false fun _ => L := by
  refine R.option hdrop (R.pure _ rfl) fun ff => ?_
  dsimp only
  split_ifs with htype
  · have hitems : dropped (some ff) ++ L = .ref ff.ip :: L := by simp [dropped, htype]
    rw [hitems]
    exact R.bind R.beginTrans fun _ => R.bind R.iput fun _ => R.commitTrans
  · have hitems : dropped (some ff) ++ L = L := by simp [dropped, htype]
    rw [hitems]
    exact R.pure _ rfl

/-- **`fileclose`** gives back the reference of a file that is closed. -/
theorem fileclose (hf : .file f ∉ L) : R.Ok false L (Xv6.fileclose f) false fun _ => L :=
  R.fileclose_of_drop (R.fileDrop hf)

theorem sysClose (fd : ℤ) : R.Ok false [] (Xv6.sysClose fd) false fun _ => [] :=
  R.option (R.argfd fd) (R.pure _ rfl) fun f =>
    R.bind (R.perform (o := .setOfile fd.toNat none) trivial) fun _ =>
      R.bind (R.fileclose (by simp)) fun _ => R.pure _ rfl

/-! ### Links -/

theorem linkBad : R.Ok true (.ref a :: L) (Xv6.linkBad a) false fun _ => L :=
  R.bind R.ilock fun _ => R.bind (R.updateInode _) fun _ => R.bind R.iunlockput fun _ =>
    R.bind R.commitTrans fun _ => R.pure _ rfl

/-- `link`: each of its ends gives back what has been taken, inside the transaction. -/
theorem sysLink (old new : Option (List UInt8)) :
    R.Ok false [] (Xv6.sysLink old new) false fun _ => [] := by
  cases old with
  | none => exact R.pure _ rfl
  | some old =>
    cases new with
    | none => exact R.pure _ rfl
    | some new =>
      refine R.option (R.namei (by simp) old) (R.pure _ rfl) fun ip => ?_
      refine R.bind R.beginTrans fun _ => R.bind R.ilock fun _ => R.bind R.getInode fun v =>
        R.ite (R.bind R.iunlockput fun _ => R.bind R.commitTrans fun _ => R.pure _ rfl) ?_
      refine R.bind (R.updateInode _) fun _ => R.bind R.iunlock fun _ =>
        R.option (R.namex (by simp) new true) R.linkBad fun x => ?_
      exact R.bind R.ilock fun _ => R.bind R.getInode fun v =>
        R.bind (R.dirlink List.mem_cons_self x.2 _) fun r => R.ite
          (R.bind R.iunlockput fun _ => R.bind R.iput fun _ => R.bind R.commitTrans fun _ =>
            R.pure _ rfl)
          (R.bind R.iunlockput fun _ => R.linkBad)

/-- `isdirempty` only reads. -/
theorem isdirempty (ha : .lock a ∈ L) : R.Ok b L (Xv6.isdirempty a) b fun _ => L := by
  refine R.bind R.getInode fun v => ?_
  generalize (List.range (dirEntries v.din.size)).drop 2 = ks
  induction ks with
  | nil => exact R.pure _ rfl
  | cons k ks ih => exact R.bind (R.readDirent ha _ _) fun de => R.ite (R.pure _ rfl) ih

theorem unlinkBad : R.Ok true (.lock a :: L) (Xv6.unlinkBad a) false fun _ => L :=
  R.bind R.iunlockput fun _ => R.bind R.commitTrans fun _ => R.pure _ rfl

/-- `unlink` drops the directory `d` before the inode. -/
theorem unlinkEntry (off : ℕ) :
    R.Ok true (.lock a :: .lock d :: L) (Xv6.unlinkEntry d a off) false fun _ => L := by
  have hend : R.Ok true (.lock a :: .lock d :: L) (do
      Xv6.iunlockput d
      Xv6.updateInode a fun d => { d with nlink := d.nlink - 1 }
      Xv6.iunlockput a
      Xv6.commitTrans
      return true) false fun _ => L :=
    R.swap (R.bind R.iunlockput fun _ => R.bind (R.updateInode _) fun _ =>
      R.bind R.iunlockput fun _ => R.bind R.commitTrans fun _ => R.pure _ rfl)
  refine R.option (R.writei (List.mem_cons_of_mem _ List.mem_cons_self) _ off) (R.fail _)
    fun m => R.ite (R.bind R.getInode fun v => ?_) (R.fail _)
  dsimp only
  split_ifs
  · exact R.bind (R.updateInode _) fun _ => hend
  · exact hend

/-- `unlink` gives back both inodes on every path. -/
theorem sysUnlink (path : Option (List UInt8)) :
    R.Ok false [] (Xv6.sysUnlink path) false fun _ => [] := by
  cases path with
  | none => exact R.pure _ rfl
  | some path =>
    refine R.option (R.namex (by simp) path true) (R.pure _ rfl) fun x => ?_
    refine R.bind R.beginTrans fun _ => R.bind R.ilock fun _ => R.ite R.unlinkBad ?_
    refine R.option (R.dirlookup List.mem_cons_self x.2) R.unlinkBad fun y => ?_
    exact R.bind R.ilock fun _ => R.bind R.getInode fun v => R.ite (R.fail _)
      (R.ite
        (R.bind (R.isdirempty List.mem_cons_self) fun r => R.ite (R.unlinkEntry y.2)
          (R.bind R.iunlockput fun _ => R.unlinkBad))
        (R.unlinkEntry y.2))

/-! ### New files -/

theorem createDots (ha : .lock a ∈ L) : R.Ok true L (Xv6.createDots d a) true fun _ => L :=
  R.bind (R.updateInode _) fun _ => R.bind R.getInode fun _ => R.bind R.getInode fun _ =>
    R.bind (R.dirlink ha _ _) fun _ => R.ite
      (R.bind (R.dirlink ha _ _) fun _ => R.ite (R.pure _ rfl) (R.fail _)) (R.fail _)

/-- The part of `create` that makes an inode returns it locked. -/
theorem createNew (name : List UInt8) (type major minor : BitVec 16) :
    R.Ok true (.lock d :: L) (Xv6.createNew d name type major minor) true
      fun r => Xv6.locked r ++ L := by
  have hend : ∀ ip, R.Ok true (.lock ip :: .lock d :: L) (do
      let v ← Xv6.getInode ip
      if ← Xv6.dirlink d name v.inum then
        Xv6.iunlockput d
        return some ip
      else Xv6.fail (.panic .createDirlink)) true fun r => Xv6.locked r ++ L := fun ip =>
    R.bind R.getInode fun v =>
      R.bind (R.dirlink (List.mem_cons_of_mem _ List.mem_cons_self) name _) fun r =>
        R.ite (R.swap (R.bind R.iunlockput fun _ => R.pure _ rfl)) (R.fail _)
  refine R.bind (R.ialloc type) fun ip => R.bind R.ilock fun _ => R.bind (R.updateInode _)
    fun _ => ?_
  split_ifs
  · exact R.bind (R.createDots List.mem_cons_self) fun _ => hend ip
  · exact hend ip

/-- `create` returns a locked inode, new or found. -/
theorem create (hcwd : .cwd p ∉ L) (path : List UInt8) (type major minor : BitVec 16) :
    R.Ok true L (Xv6.create path type major minor) true fun r => Xv6.locked r ++ L := by
  refine R.option (R.namex hcwd path true) (R.pure _ rfl) fun x => R.bind R.ilock fun _ => ?_
  refine R.option (R.dirlookup List.mem_cons_self x.2) (R.createNew x.2 type major minor)
    fun y => R.swap (R.bind R.iunlockput fun _ => R.bind R.ilock fun _ => R.bind R.getInode
      fun v => R.ite (R.pure _ rfl) (R.bind R.iunlockput fun _ => R.pure _ rfl))

/-- The first part of `open` returns a locked inode, outside of a transaction. -/
theorem openInode (path : List UInt8) (omode : BitVec 32) :
    R.Ok false [] (Xv6.openInode path omode) false fun r => Xv6.locked r := by
  unfold Xv6.openInode
  split_ifs
  · exact R.bind R.beginTrans fun _ => R.bind (R.create (by simp) path _ _ _) fun r =>
      R.bind R.commitTrans fun _ => R.pure _ (List.append_nil _).symm
  · exact R.option (R.namei (by simp) path) (R.pure _ rfl) fun ip =>
      R.bind R.ilock fun _ => R.bind R.getInode fun v =>
        R.ite (R.bind R.iunlockput fun _ => R.pure _ rfl) (R.pure _ rfl)

/-- `open` passes its reference on to the file, or gives it back. -/
theorem sysOpen (path : Option (List UInt8)) (omode : BitVec 32) :
    R.Ok false [] (Xv6.sysOpen path omode) false fun _ => [] := by
  cases path with
  | none => exact R.pure _ rfl
  | some path =>
    refine R.option (R.openInode path omode) (R.pure _ rfl) fun ip => ?_
    refine R.option R.filealloc (R.bind R.iunlockput fun _ => R.pure _ rfl) fun f => ?_
    refine R.option (R.fdalloc f) ?_ fun fd => ?_
    · exact R.bind (R.fileclose_of_drop R.fileDrop_new) fun _ => R.bind R.iunlockput fun _ =>
        R.pure _ rfl
    · exact R.swap (R.bind R.iunlock fun _ =>
        R.swap (R.bind (R.setFile _ _) fun _ => R.pure _ rfl))

/-- `mkdir` and `mknod` give back what `create` returns. -/
theorem makeNode (path : Option (List UInt8)) (type major minor : BitVec 16) :
    R.Ok false [] (Xv6.makeNode path type major minor) false fun _ => [] := by
  refine R.bind R.beginTrans fun _ => ?_
  cases path with
  | none => exact R.bind R.commitTrans fun _ => R.pure _ rfl
  | some path =>
    exact R.option (R.create (by simp) path type major minor)
      (R.bind R.commitTrans fun _ => R.pure _ rfl) fun ip =>
        R.bind R.iunlockput fun _ => R.bind R.commitTrans fun _ => R.pure _ rfl

/-! ### Programs and processes -/

/-- `chdir` gives back the old directory and keeps the new one. -/
theorem sysChdir (path : Option (List UInt8)) :
    R.Ok false [] (Xv6.sysChdir path) false fun _ => [] := by
  cases path with
  | none => exact R.pure _ rfl
  | some path =>
    refine R.option (R.namei (by simp) path) (R.pure _ rfl) fun ip => ?_
    refine R.bind R.ilock fun _ => R.bind R.getInode fun v =>
      R.ite (R.bind R.iunlockput fun _ => R.pure _ rfl) (R.bind R.iunlock fun _ => ?_)
    -- the old reference is given back before the directory is replaced
    have hset : R.Ok false [.cwd p, .ref ip] (Xv6.perform (.setCwd (some ip))) false fun _ => [] :=
      R.setCwd (some ip) (by simp)
    exact R.takeCwd (by simp) (R.fail _) fun c =>
      R.bind R.iput fun _ => R.bind hset fun _ => R.pure _ rfl

/-- `loaduvm` only reads. -/
theorem loaduvm (ha : .lock a ∈ L) (pte : ℕ → Bool) (addr offset sz : ℕ) :
    R.Ok b L (Xv6.loaduvm pte addr a offset sz) b fun _ => L := by
  refine R.ite (R.fail _) ?_
  generalize List.range ((sz + (Vm.PGSIZE - 1)) / Vm.PGSIZE) = ks
  induction ks with
  | nil => exact R.pure _ rfl
  | cons k ks ih =>
    exact R.ite (R.option (R.readi ha _ _) (R.pure _ rfl) fun bs => R.ite ih (R.pure _ rfl))
      (R.fail _)

/-- The loop of `exec` over the program headers only reads. -/
theorem loadElf (ha : .lock a ∈ L) (mem : Memory) :
    R.Ok b L (Xv6.loadElf mem a) b fun _ => L := by
  have hloop : ∀ phoff is, R.Ok b L (loadProgram mem a phoff is) b fun _ => L := by
    intro phoff is
    induction is with
    | nil => exact R.pure _ rfl
    | cons i is ih =>
      exact R.option (R.readi ha _ _) (R.pure _ rfl) fun ph => R.ite (R.pure _ rfl)
        (R.ite ih (R.ite (R.pure _ rfl) (R.ite (R.pure _ rfl)
          (R.bind (R.loaduvm ha _ _ _ _) fun r => R.ite ih (R.pure _ rfl)))))
  exact R.option (R.readi ha _ _) (R.pure _ rfl) fun elf => R.ite (R.pure _ rfl) (hloop _ _)

/-- `exec` gives back its inode on every path. -/
theorem execFile (mem : Memory) (path : Option (List UInt8)) :
    R.Ok false [] (Xv6.execFile mem path) false fun _ => [] := by
  cases path with
  | none => exact R.pure _ rfl
  | some path =>
    exact R.option (R.namei (by simp) path) (R.pure _ rfl) fun ip => R.bind R.ilock fun _ =>
      R.bind (R.loadElf List.mem_cons_self mem) fun _ => R.bind R.iunlockput fun _ => R.pure _ rfl

/-- `exit` closes the files and gives back the directory. -/
theorem exitFiles : R.Ok false [] Xv6.exitFiles false fun _ => [] := by
  have hclose : ∀ fds, R.Ok false [] (closeFds fds) false fun _ => [] := by
    intro fds
    induction fds with
    | nil => exact R.pure _ rfl
    | cons fd fds ih =>
      exact R.option (R.perform (o := .ofile fd) trivial) ih fun f =>
        R.bind (R.fileclose (by simp)) fun _ =>
          R.bind (R.perform (o := .setOfile fd none) trivial) fun _ => ih
  have hset : R.Ok false [.cwd p] (Xv6.perform (.setCwd none)) false fun _ => [] :=
    R.setCwd none (by simp)
  exact R.bind (hclose _) fun _ => R.takeCwd (by simp) (R.fail _) fun c =>
    R.bind R.iput fun _ => hset

end Rules

end Xv6
