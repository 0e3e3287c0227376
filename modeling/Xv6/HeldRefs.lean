import Xv6.CallRules
import Xv6.InodeCache
import Xv6.RefCount

/-!
# References That a Call Holds

An entry of the inode cache is referred to by current directories, by open files and by the calls
that are running. `Holds L s` says that the counts of the cache are right when a call holds the
items `L`: references, some of them locked, and open files that it has allocated. `Leaves L c L'`
says that the code `c`, started with the items `L`, ends with the items `L'` if it returns.
References are taken with `iget` and `idup`, turned into locked ones with `ilock`, and given back
with `iput`.

## Main results

* `Holds.entry`, `Holds.setFile`: an entry of the cache or of the table of open files changes.
* `leaves_iget`, `leaves_ilock`, `leaves_iunlock`, `leaves_iput`: the inode cache.
-/

namespace Xv6

/-- `NPROC` (`param.h`). -/
def NPROC : ℕ := 64

/-- The number of references to the entry `a` among the items. -/
def refsTo (L : List Item) (a : ℕ) : ℕ := L.count (.ref a) + L.count (.lock a)

/-- The cache entry that an open file refers to. -/
def File.inode (v : File) : Option ℕ := if 0 < v.ref ∧ v.type = .inode then some v.ip else none

/-- The file is open and has neither an inode nor a pipe. -/
def File.isNew (v : File) : Bool := decide (0 < v.ref) && decide (v.type = .none)

/-- The current directory of a process, unless a call holds its reference. -/
def Sys.cwdOf (s : Sys) (L : List Item) (q : ℕ) : Option ℕ :=
  if Item.cwd q ∈ L then none else (s.proc q).cwd

/-- The number of processes whose current directory is the entry `a`. -/
def Sys.cwdRefs (s : Sys) (L : List Item) (a : ℕ) : ℕ :=
  RefCount.count (Finset.range NPROC) (s.cwdOf L) a

/-- The number of open files that refer to the entry `a`. -/
def Sys.fileRefs (s : Sys) (a : ℕ) : ℕ :=
  RefCount.count (Finset.range NFILE) (fun f => (s.ftable f).inode) a

/-- The state in the middle of a call that holds the items `L`. -/
structure Holds (L : List Item) (s : Sys) : Prop where
  uniq : s.Uniq
  lt : ∀ a, 0 < (s.icache a).ref → a < NINODE
  count : ∀ a, (s.icache a).ref = (s.cwdRefs L a + s.fileRefs a + refsTo L a : ℕ)
  busy : ∀ a, L.count (.lock a) = (s.icache a).busy.toNat
  lt_file : ∀ f, 0 < (s.ftable f).ref → f < NFILE
  closed : ∀ f, (s.ftable f).ref = 0 → (s.ftable f).type = .none
  fresh : ∀ f, L.count (.file f) ≤ (s.ftable f).isNew.toNat

/-- The code ends with the items `L'` if it returns. -/
def Leaves {α : Type} (md : Mode) (p : ℕ) (L : List Item) (c : Fs α) (L' : α → List Item) : Prop :=
  ∀ s, Holds L s → Prog.wp (exec md p) c (fun r t => Holds (L' r) t) (fun _ => True) s

section Rules

variable {α β : Type} {md : Mode} {p : ℕ} {L M K X Y : List Item} {s t : Sys} {a f : ℕ}

theorem refsTo_append : refsTo (L ++ M) a = refsTo L a + refsTo M a := by
  simp only [refsTo, List.count_append]
  omega

namespace Holds

/-- The order of the items does not matter. -/
theorem perm (h : Holds L s) (hp : L.Perm M) : Holds M s where
  uniq := h.uniq
  lt := h.lt
  count b := by
    have hcwd : s.cwdOf M = s.cwdOf L := funext fun q => by simp only [Sys.cwdOf, hp.mem_iff]
    rw [Sys.cwdRefs, hcwd, refsTo, ← hp.count_eq, ← hp.count_eq]
    exact h.count b
  busy b := by
    rw [← hp.count_eq]
    exact h.busy b
  lt_file := h.lt_file
  closed := h.closed
  fresh g := by
    rw [← hp.count_eq]
    exact h.fresh g

/-- A reference that the call holds is counted. -/
theorem ref_pos (h : Holds L s) (ha : Item.ref a ∈ L ∨ Item.lock a ∈ L) :
    0 < (s.icache a).ref := by
  have hpos : 0 < refsTo L a := by
    rcases ha with ha | ha
    · exact Nat.add_pos_left (List.count_pos_iff.mpr ha) _
    · exact Nat.add_pos_right _ (List.count_pos_iff.mpr ha)
  rw [h.count]
  omega

/-- The current directory of a process is counted. -/
theorem cwd_pos (h : Holds L s) {q : ℕ} (hq : q < NPROC) (hcwd : s.cwdOf L q = some a) :
    0 < (s.icache a).ref := by
  have hpos : 0 < s.cwdRefs L a := RefCount.count_pos (Finset.mem_range.mpr hq) hcwd
  rw [h.count]
  omega

/-- A change that touches no reference. -/
theorem of_same (h : Holds L s) (he : SameRefs s t) : Holds L t where
  uniq b hb c hc rb rc hi := by
    rw [he.ref] at rb rc
    rw [he.inum, he.inum] at hi
    exact h.uniq b hb c hc rb rc hi
  lt b hb := h.lt b (he.ref b ▸ hb)
  count b := by
    have hcwd : t.cwdOf L = s.cwdOf L := funext fun q => by simp only [Sys.cwdOf, he.cwd]
    rw [he.ref, Sys.cwdRefs, hcwd, Sys.fileRefs, he.ftable]
    exact h.count b
  busy b := by
    rw [he.busy]
    exact h.busy b
  lt_file g hg := h.lt_file g (he.ftable ▸ hg)
  closed g hg := by
    rw [he.ftable] at hg ⊢
    exact h.closed g hg
  fresh g := by
    rw [he.ftable]
    exact h.fresh g

/-- Items that are not current directories. -/
theorem cwdOf_append (hX : ∀ q, X.count (.cwd q) = 0) : s.cwdOf (X ++ L) = s.cwdOf L := by
  funext q
  simp only [Sys.cwdOf, List.mem_append, List.count_eq_zero.mp (hX q), false_or]

/-- **A cache entry changes**, and the call holds `Y` instead of `X` of it. -/
theorem entry {v : Inode} (h : Holds (X ++ L) s)
    (hitem : ∀ i ∈ X ++ Y, i = .ref a ∨ i = .lock a)
    (huniq : 0 < v.ref → ∀ b < NINODE, b ≠ a → 0 < (s.icache b).ref →
      (s.icache b).inum ≠ v.inum)
    (hlt : 0 < v.ref → a < NINODE)
    (href : v.ref + refsTo X a = (s.icache a).ref + refsTo Y a)
    (hbusy : v.busy.toNat + X.count (.lock a) = (s.icache a).busy.toNat + Y.count (.lock a)) :
    Holds (Y ++ L) (s.setInode a v) := by
  have hX : ∀ i, i ≠ .ref a → i ≠ .lock a → X.count i = 0 := fun i h1 h2 =>
    List.count_eq_zero.mpr fun hi => (hitem i (List.mem_append_left _ hi)).elim h1 h2
  have hY : ∀ i, i ≠ .ref a → i ≠ .lock a → Y.count i = 0 := fun i h1 h2 =>
    List.count_eq_zero.mpr fun hi => (hitem i (List.mem_append_right _ hi)).elim h1 h2
  have hcwd : (s.setInode a v).cwdOf (Y ++ L) = s.cwdOf (X ++ L) := by
    rw [cwdOf_append fun q => hX _ (by simp) (by simp),
      cwdOf_append fun q => hY _ (by simp) (by simp)]
    rfl
  have hfiles : ∀ b, (s.setInode a v).fileRefs b = s.fileRefs b := fun _ => rfl
  refine ⟨h.uniq.setInode huniq, fun b hb => ?_, fun b => ?_, fun b => ?_, h.lt_file, h.closed,
    fun g => ?_⟩
  · rw [setInode_icache] at hb
    split_ifs at hb with he
    · exact he ▸ hlt hb
    · exact h.lt b hb
  · have hb := h.count b
    rw [refsTo_append] at hb ⊢
    rw [setInode_icache, Sys.cwdRefs, hcwd, ← Sys.cwdRefs, hfiles]
    split_ifs with he
    · rw [he] at hb ⊢
      push_cast at hb ⊢
      omega
    · have h1 : refsTo X b = 0 := by simp [refsTo, hX, he]
      have h2 : refsTo Y b = 0 := by simp [refsTo, hY, he]
      rw [hb, h1, h2]
  · have hb := h.busy b
    rw [List.count_append] at hb ⊢
    rw [setInode_icache]
    split_ifs with he
    · rw [he] at hb ⊢
      omega
    · rw [← hb, hX _ (by simp) (by simpa using he), hY _ (by simp) (by simpa using he)]
  · have hg := h.fresh g
    rw [List.count_append, hX _ (by simp) (by simp)] at hg
    rw [List.count_append, hY _ (by simp) (by simp)]
    exact hg

/-- **An open file changes**, and the call holds `Y` instead of `X`. -/
theorem setFile {v : File} (h : Holds (X ++ L) s)
    (hitem : ∀ i ∈ X ++ Y, i = .file f ∨ ∃ b, i = .ref b) (hlt : f < NFILE)
    (hmove : ∀ b, X.count (.ref b) + (if (s.ftable f).inode = some b then 1 else 0) =
      Y.count (.ref b) + if v.inode = some b then 1 else 0)
    (hclosed : v.ref = 0 → v.type = .none)
    (hfresh : (Y ++ L).count (.file f) ≤ v.isNew.toNat) : Holds (Y ++ L) (s.setFile f v) := by
  have hX : ∀ i, i ≠ .file f → (∀ b, i ≠ .ref b) → X.count i = 0 := fun i h1 h2 =>
    List.count_eq_zero.mpr fun hi =>
      (hitem i (List.mem_append_left _ hi)).elim h1 fun ⟨b, hb⟩ => h2 b hb
  have hY : ∀ i, i ≠ .file f → (∀ b, i ≠ .ref b) → Y.count i = 0 := fun i h1 h2 =>
    List.count_eq_zero.mpr fun hi =>
      (hitem i (List.mem_append_right _ hi)).elim h1 fun ⟨b, hb⟩ => h2 b hb
  have hcwd : (s.setFile f v).cwdOf (Y ++ L) = s.cwdOf (X ++ L) := by
    rw [cwdOf_append fun q => hX _ (by simp) (by simp),
      cwdOf_append fun q => hY _ (by simp) (by simp)]
    rfl
  have hfile : ∀ g, (s.setFile f v).ftable g = if g = f then v else s.ftable g := fun g => by
    simp [Sys.setFile, Function.update_apply]
  have hinode : (fun g => ((s.setFile f v).ftable g).inode) =
      Function.update (fun g => (s.ftable g).inode) f v.inode := by
    funext g
    rw [hfile, Function.update_apply]
    split_ifs
    · rfl
    · rfl
  refine ⟨h.uniq, h.lt, fun b => ?_, fun b => ?_, fun g hg => ?_, fun g hg => ?_, fun g => ?_⟩
  · have hb := h.count b
    have hupd := RefCount.count_update (h := fun g => (s.ftable g).inode)
      (Finset.mem_range.mpr hlt) v.inode b
    have hmv := hmove b
    have h1 : refsTo X b = X.count (.ref b) := by simp [refsTo, hX]
    have h2 : refsTo Y b = Y.count (.ref b) := by simp [refsTo, hY]
    rw [refsTo_append, h1] at hb
    rw [refsTo_append, h2, Sys.cwdRefs, hcwd, ← Sys.cwdRefs, Sys.fileRefs, hinode]
    change (s.icache b).ref = _
    rw [hb, Sys.fileRefs]
    congr 1
    omega
  · have hb := h.busy b
    rw [List.count_append, hX _ (by simp) (by simp)] at hb
    rw [List.count_append, hY _ (by simp) (by simp)]
    exact hb
  · rw [hfile] at hg
    split_ifs at hg with he
    · exact he ▸ hlt
    · exact h.lt_file g hg
  · rw [hfile] at hg ⊢
    split_ifs at hg ⊢
    · exact hclosed hg
    · exact h.closed g hg
  · have hg := h.fresh g
    rw [hfile]
    split_ifs with he
    · exact he ▸ hfresh
    · rw [List.count_append, hX _ (by simpa using he) (by simp)] at hg
      rw [List.count_append, hY _ (by simpa using he) (by simp)]
      exact hg

end Holds

namespace Leaves

theorem bind {c : Fs α} {k : α → Fs β} {M : α → List Item} {N : β → List Item}
    (hc : Leaves md p L c M) (hk : ∀ r, Leaves md p (M r) (k r) N) : Leaves md p L (c >>= k) N :=
  fun s h => Prog.wp.bind (hc s h) (fun r t ht => hk r t ht) fun _ _ => trivial

theorem pure {M : α → List Item} (r : α) (hr : M r = L) : Leaves md p L (Pure.pure r) M := by
  intro s h
  change Holds (M r) s
  rwa [hr]

theorem fail {M : α → List Item} (e : Fault) : Leaves md p L (Xv6.fail e) M :=
  fun _ _ => trivial

theorem perm {c : Fs α} {M N : α → List Item} (hp : L.Perm K) (hr : ∀ r, (M r).Perm (N r))
    (hc : Leaves md p K c M) : Leaves md p L c N :=
  fun s h => Prog.wp_mono (hc s (h.perm hp)) (fun r _ ht => ht.perm (hr r)) fun _ he => he

/-- Quiet code. -/
theorem quiet {c : Fs α} (hc : c.Only Op.Quiet) : Leaves md p L c fun _ => L :=
  fun _ h => Prog.wp_mono (wp_quiet hc) (fun _ _ ht => h.of_same ht) fun _ he => he

/-- Code on blocks. -/
theorem block {c : Fs α} (hc : c.Only Op.Block) : Leaves md p L c fun _ => L :=
  .quiet (hc.mono fun _ => Op.Block.quiet)

end Leaves

/-- One operation. -/
theorem wp_exec {o : Op} {Q : o.Ret → Sys → Prop}
    (h : ∀ r t, exec md p o s = .ok (r, t) → Q r t) :
    Prog.wp (exec md p) (perform o) Q (fun _ => True) s := by
  cases hr : exec md p o s with
  | error e => exact Prog.wp_of_error ((Prog.run_lift o s).trans hr) trivial
  | ok x => exact Prog.wp_of_ok ((Prog.run_lift o s).trans hr) (h _ _ hr)

/-! ### The inode cache -/

/-- One more reference to an entry that has one. -/
theorem Holds.addRef (h : Holds L s) (hpos : 0 < (s.icache a).ref) :
    Holds (.ref a :: L) (s.setInode a { s.icache a with ref := (s.icache a).ref + 1 }) := by
  refine Holds.entry (X := []) (Y := [.ref a]) h (by simp) (fun _ => ?_) (fun _ => h.lt a hpos)
    ?_ ?_
  · exact h.uniq.inum_ne (h.lt a hpos) hpos
  · simp [refsTo]
  · simp

/-- `iget` takes a reference. -/
theorem leaves_iget (inum : ℕ) : Leaves md p L (iget inum) fun a => .ref a :: L := by
  intro s h
  refine wp_exec fun a t hexec => ?_
  simp only [exec] at hexec
  split at hexec
  · -- the inode is cached
    rename_i b hf
    cases hexec
    have hb := List.find?_some hf
    simp only [decide_eq_true_eq] at hb
    exact h.addRef hb.1
  · rename_i hnone
    split at hexec
    · -- a free entry, which nobody refers to
      rename_i b hf
      obtain ⟨rfl, rfl⟩ := Prod.mk.inj (Except.ok.inj hexec)
      have hlt : b < NINODE := List.mem_range.mp (List.mem_of_find?_eq_some hf)
      have h0 : (s.icache b).ref = 0 := by simpa using List.find?_some hf
      have hcount := h.count b
      have hbusy := h.busy b
      have hrefs : refsTo L b = L.count (.ref b) + L.count (.lock b) := rfl
      refine Holds.entry (X := []) (Y := [.ref b]) h (by simp) (fun _ c hc hne hpos he => ?_)
        (fun _ => hlt) (by simp [refsTo, h0]) ?_
      · have := List.find?_eq_none.mp hnone c (List.mem_range.mpr hc)
        simp [hpos, he] at this
      · simp only [Bool.toNat_false, List.count_nil, List.count_singleton]
        rw [← hbusy]
        simp only [beq_iff_eq, reduceCtorEq, if_false]
        omega
    · cases hexec

/-- `idup` takes one more reference. -/
theorem Holds.idup (h : Holds L s) (hpos : 0 < (s.icache a).ref) :
    Prog.wp (exec md p) (Xv6.idup a) (fun r t => Holds (.ref r :: L) t) (fun _ => True) s := by
  refine Prog.wp.bind (R := fun _ t => Holds (.ref a :: L) t) (F := fun _ => True)
    (wp_exec fun _ t hexec => ?_) (fun _ t ht => ht) fun _ _ => trivial
  cases hexec
  exact h.addRef hpos

/-- An entry that the call refers to is locked, unlocked or otherwise changed. -/
theorem Holds.change {x : Item} {v : Inode} (h : Holds (x :: L) s) (hx : x = .ref a ∨ x = .lock a)
    (hY : ∀ i ∈ Y, i = .ref a ∨ i = .lock a) (hinum : v.inum = (s.icache a).inum)
    (href : v.ref + refsTo [x] a = (s.icache a).ref + refsTo Y a)
    (hbusy : v.busy.toNat + [x].count (.lock a) = (s.icache a).busy.toNat + Y.count (.lock a)) :
    Holds (Y ++ L) (s.setInode a v) := by
  have hpos : 0 < (s.icache a).ref := by
    refine h.ref_pos ?_
    rcases hx with rfl | rfl
    · exact Or.inl List.mem_cons_self
    · exact Or.inr List.mem_cons_self
  refine Holds.entry (X := [x]) h (fun i hi => ?_) (fun _ => ?_) (fun _ => h.lt a hpos) href hbusy
  · rcases List.mem_cons.mp hi with rfl | hi
    · exact hx
    · exact hY i hi
  · rw [hinum]
    exact h.uniq.inum_ne (h.lt a hpos) hpos

/-- The lock goes with a reference. -/
theorem leaves_lock : Leaves md p (.ref a :: L) (perform (.lock a)) fun _ => .lock a :: L := by
  intro s h
  refine wp_exec fun _ t hexec => ?_
  simp only [exec] at hexec
  split_ifs at hexec with h1 h2
  cases hexec
  have hbusy : (s.icache a).busy = false := by simpa using h2
  exact h.change (Y := [.lock a]) (Or.inl rfl) (by simp) rfl (by simp [refsTo]) (by simp [hbusy])

/-- `iunlock` leaves the reference. -/
theorem leaves_iunlock : Leaves md p (.lock a :: L) (iunlock a) fun _ => .ref a :: L := by
  intro s h
  refine wp_exec fun _ t hexec => ?_
  simp only [exec] at hexec
  split_ifs at hexec with h1
  cases hexec
  have hbusy : (s.icache a).busy = true := by
    by_contra hb
    exact h1 (Or.inl hb)
  exact h.change (Y := [.ref a]) (Or.inr rfl) (by simp) rfl (by simp [refsTo]) (by simp [hbusy])

/-- `ilock` turns a reference into a locked one. -/
theorem leaves_ilock : Leaves md p (.ref a :: L) (ilock a) fun _ => .lock a :: L := by
  refine leaves_lock.bind fun _ => .block ((only_getInode a).bind fun v => ?_)
  split_ifs
  · trivial
  · refine (only_bread _).bind fun bp => (only_setDinode _ _).bind fun _ =>
      (only_perform (o := .setValid a) trivial).bind fun _ => ?_
    split_ifs
    · exact only_fail _
    · trivial

/-- **`iput`** gives a reference back, whether or not it frees the inode. -/
theorem leaves_iput : Leaves md p (.ref a :: L) (iput a) fun _ => L := by
  have henter : Leaves md p (.ref a :: L) (perform (.putEnter a))
      fun r => if r then .lock a :: L else L := by
    intro s h
    refine wp_exec fun r t hexec => ?_
    simp only [exec] at hexec
    split_ifs at hexec with h1 h2
    · cases hexec
      have hbusy : (s.icache a).busy = false := by simpa using h2
      exact h.change (Y := [.lock a]) (Or.inl rfl) (by simp) rfl (by simp [refsTo])
        (by simp [hbusy])
    · cases hexec
      exact h.change (Y := []) (Or.inl rfl) (by simp) rfl (by simp [refsTo]) (by simp)
  have hleave : Leaves md p (.lock a :: L) (perform (.putLeave a)) fun _ => L := by
    intro s h
    refine wp_exec fun r t hexec => ?_
    cases hexec
    have hbusy := h.busy a
    rw [List.count_cons_self] at hbusy
    refine h.change (Y := []) (Or.inr rfl) (by simp) rfl (by simp [refsTo]) ?_
    have := Bool.toNat_le (s.icache a).busy
    simp only [Bool.toNat_false, List.count_singleton_self, List.count_nil]
    omega
  refine henter.bind fun r => ?_
  cases r with
  | false => exact .pure _ rfl
  | true =>
    -- the entry is locked while its inode is freed
    refine Leaves.bind (.block (only_perform (o := .mark (.free a)) trivial)) fun _ =>
      (Leaves.block (only_itrunc a)).bind fun _ => (Leaves.block (only_getInode a)).bind fun _ =>
        (Leaves.block (only_setDinode _ _)).bind fun _ =>
          (Leaves.block (only_iupdate a)).bind fun _ => hleave

/-- A process whose current directory is counted takes one more reference to it. -/
theorem Leaves.idupCwd {M : α → List Item} {k : ℕ → Fs α} (hp : p < NPROC) (hcwd : .cwd p ∉ L)
    (hk : ∀ a, Leaves md p (.ref a :: L) (k a) M) :
    Leaves md p L (do
      match ← perform .cwd with
      | some cwd => do k (← Xv6.idup cwd)
      | none => Xv6.fail .undefined) M := by
  intro s h
  refine Prog.wp_bind_of_ok (run_perform .cwd) ?_
  cases hc : (s.proc p).cwd with
  | none => exact Leaves.fail .undefined s h
  | some c =>
    have hpos : 0 < (s.icache c).ref := h.cwd_pos hp ((if_neg hcwd).trans hc)
    exact Prog.wp.bind (h.idup hpos) (fun r t ht => hk r t ht) fun _ _ => trivial

end Rules

end Xv6
