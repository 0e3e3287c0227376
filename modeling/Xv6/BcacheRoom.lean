import Xv6.BcacheCalls

/-!
# Room in the Buffer Cache

`bget` panics with "no buffers" when its block is not cached and every buffer is busy or dirty. The
processes here call `readi` and `dirlookup`, and inside a transaction `writei` and `itrunc`, in any
interleaving; one transaction is open at a time, and `log_write` is called only by the process in
it.

A buffer is dirty between `log_write` and the end of `commit_trans`, and its sector is in the log
all that time. So the buffers in the way are those that the processes hold and those of the sectors
in the log.

## Main definitions

* `World.next`: the steps.
* `Room`: the invariant.

## Main results

* `holds_card_le`: a process holds four buffers at most.
* `bget_finds`: **`bget` finds its block or an unused buffer as long as the buffers held and the
  sectors logged are fewer than the buffers.** Eleven processes that read eleven files are enough to
  use all of them up (`bget_no_buffers`).
-/

open Transition Transition.System
open Function (update update_apply update_of_ne update_self)

namespace Xv6.Bcache

/-- The number of buffers. -/
def NBUF : ℕ := 10

/-! ### The system -/

/-- What a process calls. -/
inductive Call
  | readi (ip : Locked) (off m : ℕ)
  | dirlookup (dp : Locked) (name : List UInt8)
  | writei (ip : Locked) (src : List UInt8) (off : ℕ)
  | itrunc (ip : Locked)
  | commitTrans

section Model

variable {n : ℕ} {ι : Type}

def Call.code : Call → Code n Unit
  | .readi ip off m => do let _ ← Bcache.readi ip off m
  | .dirlookup dp name => do let _ ← Bcache.dirlookup dp name
  | .writei ip src off => do let _ ← Bcache.writei ip src off
  | .itrunc ip => do let _ ← Bcache.itrunc ip
  | .commitTrans => Bcache.commitTrans

/-- The calls that are made inside a transaction. -/
def Call.inTrans : Call → Bool
  | .readi _ _ _ | .dirlookup _ _ => false
  | .writei _ _ _ | .itrunc _ | .commitTrans => true

/-- The process is between two calls. -/
def Ctl.idle : Ctl n → Bool
  | .run (.ret _) => true
  | _ => false

/-- The process is about to look at the log. -/
def Ctl.usesLog : Ctl n → Bool
  | .run (.op .getLog _) => true
  | _ => false

/-- The block that the process is about to look for in `bget`. -/
def Ctl.wanted : Ctl n → Option (ℕ × ℕ)
  | .run (.op (.bread dev sector) _) => some (dev, sector)
  | _ => none

/-- The cache, and the process whose transaction is open. -/
structure World (n : ℕ) (ι : Type) where
  cache : State n ι
  owner : Option ι

/-- The steps. -/
inductive Event (ι : Type)
  | go (p : ι)
  | serve (p : ι)
  | beginTrans (p : ι)
  | start (p : ι) (c : Call)

variable [DecidableEq ι]

/-- What comes next. A process looks at the log only inside its transaction, which ends when
`log.busy` is cleared. -/
def World.next (s : World n ι) : Event ι → Option (World n ι)
  | .go p =>
    if (s.cache.ctl p).usesLog ∧ s.owner ≠ some p then none
    else (s.cache.go p).map fun c => ⟨c, if c.log.busy then s.owner else none⟩
  | .serve p => (s.cache.serve p).map fun c => ⟨c, s.owner⟩
  | .beginTrans p =>
    if (s.cache.ctl p).idle ∧ ¬ s.cache.log.busy then
      some ⟨{ s.cache with log := { s.cache.log with busy := true } }, some p⟩
    else none
  | .start p c =>
    if (s.cache.ctl p).idle ∧ (c.inTrans → s.owner = some p) then
      some ⟨s.cache.setCtl p (.run c.code), s.owner⟩
    else none

/-- The runs over the disk `d`, from an empty log. -/
def calls (n : ℕ) (ι : Type) [DecidableEq ι] (d : ℕ × ℕ → Block) :
    System (World n ι) (Event ι) where
  init s := ∃ L : Log, L.lh = [] ∧ L.busy = false ∧ s = ⟨boot n ι d L, none⟩
  step s a t := s.next a = some t

/-! ### The invariant -/

/-- The process is inside `bwrite` with the buffer. -/
def Ctl.Writing : Ctl n → Fin n → Prop
  | .iderw b (.bwrite _), a | .wait b (.bwrite _), a => b = a
  | _, _ => False

/-- What the rest of a process keeps, wherever it is. -/
def CtlKeeps (m : ℕ) (V : View n) (H U : Finset (Fin n)) : Ctl n → Prop
  | .run c => Keeps m V H U c
  | .asleep _ dev sector k => Keeps m V H U (.op (.bread dev sector) k)
  | .check b _ _ k | .iderw b (.bread _ _ k) | .wait b (.bread _ _ k) => Keeps m V H U (k b)
  | .iderw b (.bwrite k) | .wait b (.bwrite k) => V.log ≠ none ∧ Keeps m V H (U.erase b) k

/-- **What the process knows is so.** -/
structure Sees (s : World n ι) (p : ι) (V : View n) : Prop where
  sane : V.sane
  key : ∀ b ∈ s.cache.holds p, V.key b = (s.cache.buf b).key
  log : ∀ L, V.log = some L → s.owner = some p ∧ L = s.cache.log
  logged : s.owner = some p → ∀ x ∈ V.dirty, x ∈ s.cache.log.lh
  dirty : s.owner = some p → ∀ b, (s.cache.buf b).dirty = true →
    (s.cache.buf b).sector ∈ V.dirty ∨ (s.cache.ctl p).Writing b

/-- **The invariant.** -/
structure Room (m : ℕ) (d : ℕ × ℕ → Block) (s : World n ι) : Prop where
  inv : Inv d s.cache
  busy : s.cache.log.busy = true ↔ s.owner ≠ none
  short : s.cache.log.lh.length ≤ LOGSIZE
  closed : s.owner = none → s.cache.log.lh = [] ∧ ∀ b, (s.cache.buf b).dirty = false
  root : ∀ p, ∀ b ∈ s.cache.holds p, (s.cache.buf b).dev = ROOTDEV
  rootDirty : ∀ b, (s.cache.buf b).dirty = true → (s.cache.buf b).dev = ROOTDEV
  card : ∀ p, (s.cache.holds p).card ≤ m
  view : ∀ p, ∃ V, Sees s p V ∧ CtlKeeps m V (s.cache.holds p) (s.cache.unsaved p) (s.cache.ctl p)

section Lemmas

variable {m : ℕ} {d : ℕ × ℕ → Block} {s t : World n ι} {p q : ι} {b : Fin n} {c c' : Ctl n}
  {V : View n} {H U : Finset (Fin n)}

omit [DecidableEq ι] in
theorem CtlKeeps.woke (h : CtlKeeps m V H U c) (hw : Woke c c') : CtlKeeps m V H U c' := by
  obtain rfl | ⟨b, dev, sector, k, rfl, rfl⟩ := hw
  · exact h
  · exact h

theorem Woke.writing (hw : Woke c c') : c'.Writing b ↔ c.Writing b := by
  obtain rfl | ⟨a, dev, sector, k, rfl, rfl⟩ := hw
  · rfl
  · rfl

/-- **A step of process `p`**: what the others know is still so. -/
theorem Room.move (h : Room m d s) (p : ι) (hinv : Inv d t.cache)
    (hctl : ∀ q, q ≠ p → Woke (s.cache.ctl q) (t.cache.ctl q))
    (hholds : ∀ q, q ≠ p → t.cache.holds q = s.cache.holds q)
    (hunsaved : ∀ q, q ≠ p → t.cache.unsaved q = s.cache.unsaved q)
    (hkey : ∀ q, q ≠ p → ∀ b ∈ s.cache.holds q, (t.cache.buf b).key = (s.cache.buf b).key)
    (howner : ∀ q, q ≠ p → (t.owner = some q ↔ s.owner = some q))
    (hlog : ∀ q, q ≠ p → s.owner = some q → t.cache.log = s.cache.log)
    (hdirty : ∀ q, q ≠ p → s.owner = some q → ∀ b, (t.cache.buf b).dirty = true →
      (s.cache.buf b).dirty = true ∧ (t.cache.buf b).sector = (s.cache.buf b).sector)
    (hbusy : t.cache.log.busy = true ↔ t.owner ≠ none) (hshort : t.cache.log.lh.length ≤ LOGSIZE)
    (hnone : t.owner = none → t.cache.log.lh = [] ∧ ∀ b, (t.cache.buf b).dirty = false)
    (hroot : ∀ b ∈ t.cache.holds p, (t.cache.buf b).dev = ROOTDEV)
    (hrootDirty : ∀ b, (t.cache.buf b).dirty = true → (t.cache.buf b).dev = ROOTDEV)
    (hcard : (t.cache.holds p).card ≤ m)
    (hview : ∃ V, Sees t p V ∧
      CtlKeeps m V (t.cache.holds p) (t.cache.unsaved p) (t.cache.ctl p)) : Room m d t where
  inv := hinv
  busy := hbusy
  short := hshort
  closed := hnone
  root q b hb := by
    by_cases hq : q = p
    · exact hroot b (hq ▸ hb)
    · rw [hholds q hq] at hb
      exact (congrArg Prod.fst (hkey q hq b hb)).trans (h.root q b hb)
  rootDirty := hrootDirty
  card q := by
    by_cases hq : q = p
    · exact hq ▸ hcard
    · rw [hholds q hq]
      exact h.card q
  view q := by
    by_cases hq : q = p
    · exact hq ▸ hview
    obtain ⟨V, hV, hk⟩ := h.view q
    rw [hholds q hq, hunsaved q hq]
    refine ⟨V, ⟨hV.sane, fun b hb => ?_, fun L hL => ?_, fun ho x hx => ?_, fun ho b hb => ?_⟩,
      hk.woke (hctl q hq)⟩
    · rw [hholds q hq] at hb
      rw [hkey q hq b hb]
      exact hV.key b hb
    · obtain ⟨ho, rfl⟩ := hV.log L hL
      exact ⟨(howner q hq).mpr ho, (hlog q hq ho).symm⟩
    · rw [howner q hq] at ho
      rw [hlog q hq ho]
      exact hV.logged ho x hx
    · rw [howner q hq] at ho
      obtain ⟨hs, hsector⟩ := hdirty q hq ho b hb
      rw [hsector, (hctl q hq).writing]
      exact hV.dirty ho b hs

/-- **A step that leaves log and keys alone**, and makes no buffer dirty. -/
theorem Room.quiet (h : Room m d s) (hV : Sees s p V) (hinv : Inv d t.cache)
    (hctl : ∀ q, q ≠ p → Woke (s.cache.ctl q) (t.cache.ctl q))
    (hholds : ∀ q, q ≠ p → t.cache.holds q = s.cache.holds q)
    (hsub : t.cache.holds p ⊆ s.cache.holds p)
    (hunsaved : ∀ q, q ≠ p → t.cache.unsaved q = s.cache.unsaved q)
    (hbuf : ∀ b, (t.cache.buf b).key = (s.cache.buf b).key ∧
      ((t.cache.buf b).dirty = true → (s.cache.buf b).dirty = true))
    (howner : t.owner = s.owner) (hlog : t.cache.log = s.cache.log) (hc : t.cache.ctl p = c)
    (hw : ∀ b, (t.cache.buf b).dirty = true → (s.cache.ctl p).Writing b → c.Writing b)
    (hk : CtlKeeps m V (t.cache.holds p) (t.cache.unsaved p) c) : Room m d t := by
  have hdev (b : Fin n) : (t.cache.buf b).dev = (s.cache.buf b).dev := congrArg Prod.fst (hbuf b).1
  have hsector (b : Fin n) : (t.cache.buf b).sector = (s.cache.buf b).sector :=
    congrArg Prod.snd (hbuf b).1
  refine h.move p hinv hctl hholds hunsaved (fun _ _ b _ => (hbuf b).1)
    (fun _ _ => by rw [howner]) (fun _ _ _ => hlog)
    (fun _ _ _ b hb => ⟨(hbuf b).2 hb, hsector b⟩) ?_ ?_ (fun ho => ?_)
    (fun b hb => ?_) (fun b hb => ?_) ?_
    ⟨V, ⟨hV.sane, fun b hb => ?_, fun L hL => ?_, fun ho => ?_, fun ho b hb => ?_⟩, hc ▸ hk⟩
  · rw [hlog, howner]
    exact h.busy
  · rw [hlog]
    exact h.short
  · rw [howner] at ho
    rw [hlog]
    refine ⟨(h.closed ho).1, fun b => ?_⟩
    have hs := (h.closed ho).2 b
    by_contra hb
    rw [(hbuf b).2 (by simpa using hb)] at hs
    cases hs
  · rw [hdev]
    exact h.root p b (hsub hb)
  · rw [hdev]
    exact h.rootDirty b ((hbuf b).2 hb)
  · exact (Finset.card_le_card hsub).trans (h.card p)
  · rw [(hbuf b).1]
    exact hV.key b (hsub hb)
  · rw [howner, hlog]
    exact hV.log L hL
  · rw [hlog]
    exact hV.logged (howner ▸ ho)
  · rw [hsector, hc]
    exact (hV.dirty (howner ▸ ho) b ((hbuf b).2 hb)).imp_right (hw b hb)

/-! ### The steps -/

/-- A buffer is changed that keeps its block, and does not become dirty. -/
theorem update_quiet {buf : Fin n → Buf} {v : Buf} (hkey : v.key = (buf b).key)
    (hdirty : v.dirty = true → (buf b).dirty = true) (a : Fin n) :
    (update buf b v a).key = (buf a).key ∧
      ((update buf b v a).dirty = true → (buf a).dirty = true) := by
  rw [update_apply]
  split_ifs with ha
  · rw [ha]
    exact ⟨hkey, hdirty⟩
  · exact ⟨rfl, id⟩

variable {u : State n ι} {o : Option ι} {dev sector : ℕ} {k : Fin n → Code n Unit}

omit [DecidableEq ι] in
/-- The owner stays while the log does. -/
theorem Room.keepOwner (h : Room m d s) (hu : u.log = s.cache.log) :
    (if u.log.busy then s.owner else none) = s.owner := by
  rw [hu]
  split_ifs with hbusy
  · rfl
  · by_contra hne
    exact hbusy (h.busy.mpr (Ne.symm hne))

/-- A step that changes nothing but what the process does next. -/
theorem Room.setCtl (h : Room m d s) (hinv : Inv d (s.cache.setCtl p c)) (hV : Sees s p V)
    (hk : CtlKeeps m V (s.cache.holds p) (s.cache.unsaved p) c)
    (hw : ∀ b, (s.cache.buf b).dirty = true → (s.cache.ctl p).Writing b → c.Writing b)
    (ho : o = s.owner) : Room m d ⟨s.cache.setCtl p c, o⟩ :=
  h.quiet hV hinv (fun _ hq => Or.inl (update_of_ne hq _ _)) (fun _ _ => rfl)
    (Finset.Subset.refl _) (fun _ _ => rfl) (fun _ => ⟨rfl, id⟩) ho rfl (update_self ..) hw hk

omit [DecidableEq ι] in
/-- The owner of a transaction reads the log. -/
theorem Sees.sawLog (hV : Sees s p V) (h : Room m d s) (ho : s.owner = some p) :
    Sees s p (V.sawLog s.cache.log) where
  sane := ⟨hV.sane, fun L hL => ((hV.log L hL).2).symm, hV.logged ho, h.short,
    h.busy.mpr (by rw [ho]; exact Option.some_ne_none p)⟩
  key := hV.key
  log L hL := ⟨ho, (Option.some.inj hL).symm⟩
  logged := hV.logged
  dirty := hV.dirty

omit [DecidableEq ι] in
/-- The holder of a buffer reads its device and sector. -/
theorem Sees.sawKey (hV : Sees s p V) (hroot : (s.cache.buf b).dev = ROOTDEV) :
    Sees s p (V.sawKey b (s.cache.buf b).key) where
  sane := ⟨hV.sane, hroot⟩
  key a ha := by
    by_cases hab : a = b
    · subst hab
      exact View.setKey_self ..
    · exact (View.setKey_of_ne _ _ hab).trans (hV.key a ha)
  log := hV.log
  logged := hV.logged
  dirty := hV.dirty

omit [DecidableEq ι] in
/-- Two buffers of the file system are for two sectors. -/
theorem Room.sector_ne (h : Room m d s) {a : Fin n} (ha : (s.cache.buf a).dev = ROOTDEV)
    (hb : (s.cache.buf b).dev = ROOTDEV) (hab : a ≠ b) :
    (s.cache.buf a).sector ≠ (s.cache.buf b).sector := fun he =>
  hab (h.inv.key a b (by rw [ha]; decide) (Prod.ext (ha.trans hb.symm) he))

/-- **`bget` returns a buffer.** -/
theorem Room.take {v : Buf} (h : Room m d s) (hinv : Inv d (s.cache.take p b v dev sector k))
    (hV : Sees s p V)
    (hk : Keeps m V (s.cache.holds p) (s.cache.unsaved p) (.op (.bread dev sector) k))
    (hrun : ∀ a, ¬ (s.cache.ctl p).Writing a) (hbusy : (s.cache.buf b).busy = false)
    (hkey : v.key = (dev, sector))
    (hdirty : v.dirty = true → (s.cache.buf b).dirty = true ∧ (s.cache.buf b).sector = v.sector)
    (ho : o = s.owner) : Room m d ⟨s.cache.take p b v dev sector k, o⟩ := by
  have hfree (q : ι) : b ∉ s.cache.holds q := fun hq => by
    rw [(h.inv.busy b).mpr ⟨q, hq⟩] at hbusy
    cases hbusy
  have hbufs (a : Fin n) : (s.cache.take p b v dev sector k).buf a =
      if a = b then v else s.cache.buf a := update_apply ..
  have hholds : (s.cache.take p b v dev sector k).holds p = insert b (s.cache.holds p) :=
    update_self ..
  have hctl : (s.cache.take p b v dev sector k).ctl p = .check b dev sector k :=
    update_self ..
  have hdirty' (a : Fin n) (ha : ((s.cache.take p b v dev sector k).buf a).dirty = true) :
      (s.cache.buf a).dirty = true ∧
        ((s.cache.take p b v dev sector k).buf a).sector = (s.cache.buf a).sector := by
    rw [hbufs] at ha ⊢
    split_ifs at ha ⊢ with hab
    · rw [hab]
      exact ⟨(hdirty ha).1, (hdirty ha).2.symm⟩
    · exact ⟨ha, rfl⟩
  obtain ⟨hcard, hroot, hk⟩ := hk
  have hdev : dev = ROOTDEV := hroot hV.sane
  have hvdev : v.dev = ROOTDEV := (congrArg Prod.fst hkey).trans hdev
  subst ho
  refine h.move p hinv (fun q hq => Or.inl (update_of_ne hq _ _))
    (fun q hq => update_of_ne hq _ _) (fun _ _ => rfl) (fun q _ a ha => ?_)
    (fun _ _ => Iff.rfl) (fun _ _ _ => rfl) (fun _ _ _ => hdirty') h.busy h.short (fun hn => ?_)
    (fun a ha => ?_) (fun a ha => ?_) ?_ ⟨V.setKey b (dev, sector), ⟨hV.sane, fun a ha => ?_,
      hV.log,
      hV.logged, fun ho a ha => ?_⟩, ?_⟩
  · dsimp only
    rw [hbufs, if_neg fun hab : a = b => hfree q (hab ▸ ha)]
  · refine ⟨(h.closed hn).1, fun a => ?_⟩
    by_contra hd
    have hs := (h.closed hn).2 a
    rw [(hdirty' a (by simpa using hd)).1] at hs
    cases hs
  · dsimp only at ha ⊢
    rw [hholds] at ha
    rw [hbufs]
    split_ifs with hab
    · exact hvdev
    · exact h.root p a (Finset.mem_of_mem_insert_of_ne ha hab)
  · dsimp only at ha ⊢
    rw [hbufs] at ha ⊢
    split_ifs at ha ⊢
    · exact hvdev
    · exact h.rootDirty a ha
  · dsimp only
    rw [hholds]
    exact (Finset.card_insert_le _ _).trans hcard
  · dsimp only at ha ⊢
    rw [hholds] at ha
    rw [hbufs]
    split_ifs with hab
    · rw [hab, hkey]
      exact View.setKey_self ..
    · exact (View.setKey_of_ne _ _ hab).trans
        (hV.key a (Finset.mem_of_mem_insert_of_ne ha hab))
  · dsimp only at ha ⊢
    obtain ⟨hs, hsector⟩ := hdirty' a ha
    rw [hsector]
    exact (hV.dirty ho a hs).imp_right fun hw => absurd hw (hrun a)
  · dsimp only
    rw [hctl, hholds]
    exact hk b (hfree p)

/-- **A buffer becomes dirty**, inside the transaction of the process that holds it. -/
theorem Room.dirtied {W : View n} (h : Room m d s) (hinv : Inv d t.cache)
    (hb : b ∈ s.cache.holds p) (ho : s.owner = some p) (hV : Sees s p V)
    (hbuf : t.cache.buf = update s.cache.buf b { s.cache.buf b with dirty := true })
    (hctl : ∀ q, q ≠ p → t.cache.ctl q = s.cache.ctl q) (hholds : t.cache.holds = s.cache.holds)
    (hunsaved : ∀ q, q ≠ p → t.cache.unsaved q = s.cache.unsaved q)
    (hlog : t.cache.log = s.cache.log) (howner : t.owner = s.owner) (hsane : W.sane)
    (hkey : W.key = V.key) (hseen : W.log = V.log) (hlogged : ∀ x ∈ W.dirty, x ∈ s.cache.log.lh)
    (hself : (s.cache.buf b).sector ∈ W.dirty ∨ (t.cache.ctl p).Writing b)
    (hother : ∀ a, a ≠ b → (s.cache.buf a).dirty = true →
      (s.cache.buf a).sector ∈ W.dirty ∨ (t.cache.ctl p).Writing a)
    (hk : CtlKeeps m W (s.cache.holds p) (t.cache.unsaved p) (t.cache.ctl p)) : Room m d t := by
  have hbufa (a : Fin n) (ha : a ≠ b) : t.cache.buf a = s.cache.buf a := by
    rw [hbuf, update_of_ne ha]
  have hkeys (a : Fin n) : (t.cache.buf a).key = (s.cache.buf a).key := by
    rw [hbuf, update_apply]
    split_ifs with ha
    · rw [ha]
      rfl
    · rfl
  have hdevs (a : Fin n) : (t.cache.buf a).dev = (s.cache.buf a).dev := congrArg Prod.fst (hkeys a)
  have hnot (q : ι) (hq : q ≠ p) : s.owner ≠ some q := fun hs =>
    hq (Option.some.inj (hs.symm.trans ho))
  refine h.move p hinv (fun q hq => Or.inl (hctl q hq)) (fun q _ => by rw [hholds]) hunsaved
    (fun _ _ a _ => hkeys a) (fun _ _ => by rw [howner]) (fun q hq hs => absurd hs (hnot q hq))
    (fun q hq hs => absurd hs (hnot q hq)) ?_ ?_ (fun hn => ?_) (fun a ha => ?_) (fun a ha => ?_) ?_
    ⟨W, ⟨hsane, fun a ha => ?_, fun L hL => ?_, fun _ => ?_, fun _ a ha => ?_⟩, ?_⟩
  · rw [hlog, howner]
    exact h.busy
  · rw [hlog]
    exact h.short
  · rw [howner, ho] at hn
    cases hn
  · rw [hdevs]
    rw [hholds] at ha
    exact h.root p a ha
  · rw [hdevs]
    by_cases hab : a = b
    · rw [hab]
      exact h.root p b hb
    · rw [hbufa a hab] at ha
      exact h.rootDirty a ha
  · rw [hholds]
    exact h.card p
  · rw [hkey, hkeys]
    rw [hholds] at ha
    exact hV.key a ha
  · rw [howner, hlog]
    exact hV.log L (hseen ▸ hL)
  · rw [hlog]
    exact hlogged
  · rw [show (t.cache.buf a).sector = (s.cache.buf a).sector from congrArg Prod.snd (hkeys a)]
    by_cases hab : a = b
    · rw [hab]
      exact hself
    · rw [hbufa a hab] at ha
      exact hother a hab ha
  · rw [hholds]
    exact hk

/-- `bwrite(b)`, up to the request. -/
theorem Room.bwrite {k : Unit → Code n Unit} {o : Option ι} (h : Room m d s)
    (hc : s.cache.ctl p = .run (.op (.bwrite b) k))
    (hinv : Inv d ((s.cache.setBuf b { s.cache.buf b with dirty := true }).setCtl p
      (.iderw b (.bwrite (k ()))))) (ho : o = s.owner) :
    Room m d ⟨(s.cache.setBuf b { s.cache.buf b with dirty := true }).setCtl p
      (.iderw b (.bwrite (k ()))), o⟩ := by
  obtain ⟨V, hV, hk⟩ := h.view p
  rw [hc] at hk
  obtain ⟨hb, hlog, hk⟩ := hk
  obtain ⟨L, hL⟩ := Option.ne_none_iff_exists'.mp (hlog hV.sane)
  have howner := (hV.log L hL).1
  have hctl : ((s.cache.setBuf b { s.cache.buf b with dirty := true }).setCtl p
      (.iderw b (.bwrite (k ())))).ctl p = .iderw b (.bwrite (k ())) := update_self ..
  refine h.dirtied (W := V.wrote b) hinv hb howner hV rfl
    (fun q hq => update_of_ne hq _ _) rfl (fun _ _ => rfl) rfl ho hV.sane rfl rfl
    (fun x hx => hV.logged howner x hx.1) (Or.inr ?_) (fun a hab ha => Or.inl ⟨?_, ?_⟩) ?_
  · dsimp only
    rw [hctl]
    rfl
  · refine (hV.dirty howner a ha).resolve_right ?_
    rw [hc]
    exact id
  · -- the sector of another buffer is another one
    change (s.cache.buf a).sector ≠ (V.key b).2
    rw [hV.key b hb]
    exact h.sector_ne (h.rootDirty a ha) (h.root p b hb) hab
  · dsimp only
    rw [hctl]
    exact ⟨hlog hV.sane, hk⟩

/-- `b->flags |= B_DIRTY` in `log_write(b)`. -/
theorem Room.setDirty {k : Unit → Code n Unit} {o : Option ι} (h : Room m d s)
    (hc : s.cache.ctl p = .run (.op (.setDirty b) k)) {u : State n ι}
    (hu : u = ({ s.cache with
      unsaved := update s.cache.unsaved p ((s.cache.unsaved p).erase b) }.setBuf b
        { s.cache.buf b with dirty := true } |>.setCtl p (.run (k ()))))
    (hinv : Inv d u) (ho : o = s.owner) : Room m d ⟨u, o⟩ := by
  obtain ⟨V, hV, hk⟩ := h.view p
  rw [hc] at hk
  obtain ⟨hb, hlog, hk⟩ := hk
  obtain ⟨L, hL, hmem⟩ := hlog hV.sane
  obtain ⟨howner, rfl⟩ := hV.log L hL
  subst hu
  have hsector : (V.key b).2 = (s.cache.buf b).sector := congrArg Prod.snd (hV.key b hb)
  refine h.dirtied (W := { V with dirty := insert (V.key b).2 V.dirty }) hinv hb howner hV
    rfl (fun q hq => update_of_ne hq _ _) rfl (fun q hq => update_of_ne hq _ _) rfl ho hV.sane rfl
    rfl (fun x hx => ?_) (Or.inl (Or.inl hsector.symm)) (fun a hab ha => Or.inl (Or.inr ?_)) ?_
  · obtain rfl | hx := hx
    · exact hmem
    · exact hV.logged howner x hx
  · refine (hV.dirty howner a ha).resolve_right ?_
    rw [hc]
    exact id
  · change CtlKeeps m _ _ (update s.cache.unsaved p _ p) (update s.cache.ctl p _ p)
    rw [update_self, update_self]
    exact hk

/-- The log is changed, or the transaction ends. -/
theorem Room.setLog {L : Log} {k : Unit → Code n Unit} (h : Room m d s)
    (hc : s.cache.ctl p = .run (.op (.setLog L) k)) {u : State n ι}
    (hu : u = { s.cache with log := L }.setCtl p (.run (k ()))) (hinv : Inv d u) :
    Room m d ⟨u, if u.log.busy then s.owner else none⟩ := by
  obtain ⟨V, hV, hk⟩ := h.view p
  rw [hc] at hk
  obtain ⟨hlog, hk⟩ := hk
  obtain ⟨hseen, hlogged, hshort, hempty⟩ := hlog hV.sane
  obtain ⟨L₀, hL₀⟩ := Option.ne_none_iff_exists'.mp hseen
  have howner := (hV.log L₀ hL₀).1
  have hwriting (a : Fin n) : ¬ (s.cache.ctl p).Writing a := by
    rw [hc]
    exact id
  have hnot (q : ι) (hq : q ≠ p) : s.owner ≠ some q := fun hs =>
    hq (Option.some.inj (hs.symm.trans howner))
  subst hu
  have hiff : L.busy = true ↔ (if L.busy then s.owner else none) ≠ none := by
    rw [howner]
    cases L.busy
    · simp
    · simp
  have hdirty (a : Fin n) (ha : (s.cache.buf a).dirty = true) : (s.cache.buf a).sector ∈ V.dirty :=
    (hV.dirty howner a ha).resolve_right (hwriting a)
  refine h.move p hinv (fun q hq => Or.inl (update_of_ne hq _ _)) (fun _ _ => rfl) (fun _ _ => rfl)
    (fun _ _ _ _ => rfl) (fun q hq => ?_) (fun q hq hs => absurd hs (hnot q hq))
    (fun q hq hs => absurd hs (hnot q hq)) hiff hshort (fun hn => ?_) (h.root p) h.rootDirty
    (h.card p)
    ⟨V.setLog L, ⟨hV.sane, hV.key, fun L₁ hL₁ => ?_, fun _ => hlogged,
      fun _ a ha => Or.inl (hdirty a ha)⟩, ?_⟩
  · refine iff_of_false (fun hs => ?_) (hnot q hq)
    dsimp only at hs
    split_ifs at hs
    exact hnot q hq hs
  · have hnil : L.lh = [] := hempty (by simpa using mt hiff.mp (not_not.mpr hn))
    refine ⟨hnil, fun a => ?_⟩
    by_contra hd
    have hmem := hlogged _ (hdirty a (eq_true_of_ne_false hd))
    rw [hnil] at hmem
    cases hmem
  · have hL₁ : (if L.busy then some L else none) = some L₁ := hL₁
    split_ifs at hL₁ with hbusy
    exact ⟨(if_pos hbusy).trans howner, (Option.some.inj hL₁).symm⟩
  · change CtlKeeps m _ _ _ (update s.cache.ctl p _ p)
    rw [update_self]
    exact hk

/-- The loop of `bget`. -/
theorem Room.bget (h : Room m d s) (hc : s.cache.ctl p = .run (.op (.bread dev sector) k))
    (hinv : Inv d u) (hstep : s.cache.bget p dev sector k = some u) :
    Room m d ⟨u, if u.log.busy then s.owner else none⟩ := by
  obtain ⟨V, hV, hk⟩ := h.view p
  rw [hc] at hk
  have hrun (a : Fin n) : ¬ (s.cache.ctl p).Writing a := by
    rw [hc]
    exact id
  rw [State.bget] at hstep
  obtain ⟨b, hb, hkey⟩ | ⟨hnone, hno⟩ := h.inv.lookup dev sector
  · rw [hb] at hstep
    dsimp only at hstep
    split_ifs at hstep with hbusy
    · cases hstep
      exact h.setCtl hinv hV hk (fun a _ hw => absurd hw (hrun a)) (h.keepOwner rfl)
    · cases hstep
      exact h.take hinv hV hk hrun (by simpa using hbusy) hkey (fun hd => ⟨hd, rfl⟩)
        (h.keepOwner rfl)
  · rw [hnone] at hstep
    cases hvictim : s.cache.victim with
    | none =>
      rw [hvictim] at hstep
      cases hstep
    | some b =>
      rw [hvictim] at hstep
      cases hstep
      exact h.take hinv hV hk hrun (h.inv.victim hvictim).1 rfl (fun hd => by cases hd)
        (h.keepOwner rfl)

/-- `brelse(b)`. -/
theorem Room.release {k : Unit → Code n Unit} (h : Room m d s)
    (hc : s.cache.ctl p = .run (.op (.brelse b) k)) (hinv : Inv d (s.cache.release p b (k ())))
    (ho : o = s.owner) : Room m d ⟨s.cache.release p b (k ()), o⟩ := by
  obtain ⟨V, hV, hk⟩ := h.view p
  rw [hc] at hk
  obtain ⟨hb, hU, hk⟩ := hk
  have hholds : (s.cache.release p b (k ())).holds p = (s.cache.holds p).erase b :=
    update_self ..
  have hbuf := update_quiet (b := b) (v := { s.cache.buf b with busy := false }) rfl id
  refine h.quiet hV hinv (fun q hq => ?_) (fun q hq => update_of_ne hq _ _) ?_ (fun _ _ => rfl) hbuf
    ho rfl (update_self ..) (fun a _ hw => ?_) ?_
  · have hwake : (s.cache.release p b (k ())).ctl q = (s.cache.wakeup b).ctl q :=
      update_of_ne hq _ _
    dsimp only
    rw [hwake]
    exact woke_wakeup s.cache b q
  · dsimp only
    rw [hholds]
    exact Finset.erase_subset b _
  · rw [hc] at hw
    cases hw
  · dsimp only
    rw [hholds]
    exact hk

/-- A change of the data of a buffer. -/
theorem Room.store {k : Unit → Code n Unit} {v : Block} {o : Option ι} (h : Room m d s)
    (hc : s.cache.ctl p = .run (.op (.store b v) k)) {u : State n ι}
    (hu : u = ({ s.cache with
      unsaved := update s.cache.unsaved p (insert b (s.cache.unsaved p))
      touched := update s.cache.touched (s.cache.buf b).key true }.setBuf b
        { s.cache.buf b with data := v } |>.setCtl p (.run (k ()))))
    (hinv : Inv d u) (ho : o = s.owner) : Room m d ⟨u, o⟩ := by
  obtain ⟨V, hV, hk⟩ := h.view p
  rw [hc] at hk
  subst hu
  have hbuf := update_quiet (b := b) (v := { s.cache.buf b with data := v }) rfl id
  refine h.quiet hV hinv (fun q hq => Or.inl (update_of_ne hq _ _)) (fun _ _ => rfl)
    (Finset.Subset.refl _) (fun q hq => update_of_ne hq _ _) hbuf ho rfl (update_self ..)
    (fun a _ hw => ?_) ?_
  · rw [hc] at hw
    cases hw
  · change CtlKeeps m V _ (update s.cache.unsaved p _ p) _
    rw [update_self]
    exact hk.2

/-- **The next request of a program.** -/
theorem room_op {c : Code n Unit} (h : Room m d s) (hc : s.cache.ctl p = .run c)
    (hlog : (s.cache.ctl p).usesLog → s.owner = some p) (hstep : s.cache.go p = some u) :
    Room m d ⟨u, if u.log.busy then s.owner else none⟩ := by
  have hinv := inv_go h.inv hstep
  obtain ⟨V, hV, hk⟩ := h.view p
  rw [hc] at hk
  have hrun (a : Fin n) : ¬ (s.cache.ctl p).Writing a := by
    rw [hc]
    exact id
  have hw (c' : Code n Unit) (a : Fin n) (_ : (s.cache.buf a).dirty = true)
      (hw : (s.cache.ctl p).Writing a) : (Ctl.run c').Writing a := absurd hw (hrun a)
  cases c with
  | ret _ => simp [State.go, hc] at hstep
  | op o k =>
    cases o with
    | bread dev sector =>
      simp only [State.go, hc] at hstep
      exact h.bget hc hinv hstep
    | bwrite b =>
      simp only [State.go, hc] at hstep
      split_ifs at hstep
      cases hstep
      exact h.bwrite hc hinv (h.keepOwner rfl)
    | brelse b =>
      simp only [State.go, hc] at hstep
      split_ifs at hstep
      cases hstep
      exact h.release hc hinv (h.keepOwner rfl)
    | load b =>
      simp only [State.go, hc] at hstep
      cases hstep
      exact h.setCtl hinv hV (hk.2 _) (hw _) (h.keepOwner rfl)
    | store b v =>
      simp only [State.go, hc] at hstep
      cases hstep
      exact h.store hc rfl hinv (h.keepOwner rfl)
    | key b =>
      simp only [State.go, hc] at hstep
      cases hstep
      exact h.setCtl hinv (hV.sawKey (h.root p b hk.1)) (hk.2 _) (hw _) (h.keepOwner rfl)
    | setDirty b =>
      simp only [State.go, hc] at hstep
      cases hstep
      exact h.setDirty hc rfl hinv (h.keepOwner rfl)
    | getLog =>
      have howner : s.owner = some p := hlog (by rw [hc]; rfl)
      simp only [State.go, hc] at hstep
      cases hstep
      exact h.setCtl hinv (hV.sawLog h howner) (hk _) (hw _) (h.keepOwner rfl)
    | setLog L =>
      simp only [State.go, hc] at hstep
      cases hstep
      exact h.setLog hc rfl hinv
    | panic => simp [State.go, hc] at hstep

/-- **A step of a process.** -/
theorem room_go (h : Room m d s) (hlog : (s.cache.ctl p).usesLog → s.owner = some p)
    (hstep : s.cache.go p = some u) : Room m d ⟨u, if u.log.busy then s.owner else none⟩ := by
  have hinv := inv_go h.inv hstep
  have hok := h.inv.ctl p
  obtain ⟨V, hV, hk⟩ := h.view p
  cases hc : s.cache.ctl p with
  | run c => exact room_op h hc hlog hstep
  | asleep b dev sector k => simp [State.go, hc] at hstep
  | check b dev sector k =>
    rw [hc] at hk
    simp only [State.go, hc] at hstep
    split_ifs at hstep with hvalid
    all_goals
      cases hstep
      exact h.setCtl hinv hV hk (fun a _ hw => by rw [hc] at hw; cases hw) (h.keepOwner rfl)
  | iderw b a =>
    rw [hc] at hk
    simp only [State.go, hc] at hstep
    split_ifs at hstep
    cases hstep
    cases a with
    | bread dev sector k =>
      exact h.setCtl hinv hV hk (fun a _ hw => by rw [hc] at hw; cases hw) (h.keepOwner rfl)
    | bwrite k => exact h.setCtl hinv hV hk (fun a _ hw => by rwa [hc] at hw) (h.keepOwner rfl)
  | wait b a =>
    rw [hc] at hk hok
    simp only [State.go, hc] at hstep
    split_ifs at hstep with hdone
    cases a with
    | bread dev sector k =>
      cases hstep
      exact h.setCtl hinv hV hk (fun a _ hw => by rw [hc] at hw; cases hw) (h.keepOwner rfl)
    | bwrite k =>
      cases hstep
      have hclean : (s.cache.buf b).dirty = false := by simpa using hdone.2
      obtain ⟨-, -, -, hU⟩ := hok
      obtain ⟨-, hk⟩ := hk
      rw [Finset.erase_eq_of_notMem (hU hclean)] at hk
      refine h.setCtl hinv hV hk (fun a ha hw => ?_) (h.keepOwner rfl)
      -- the buffer has been written
      rw [hc] at hw
      obtain rfl : b = a := hw
      rw [hclean] at ha
      cases ha

/-- **A step of the disk.** -/
theorem room_serve (h : Room m d s) (hstep : s.cache.serve p = some u) : Room m d ⟨u, s.owner⟩ := by
  have hinv := inv_serve h.inv hstep
  have hok := h.inv.ctl p
  obtain ⟨V, hV, hk⟩ := h.view p
  rw [State.serve] at hstep
  split at hstep
  · rename_i b a hc
    rw [hc] at hok hk
    have hwakep : (s.cache.wakeup b).ctl p = .wait b a := by
      rw [State.wakeup]
      dsimp only
      rw [hc]
    have hwriting (x : Fin n) (hw : (s.cache.ctl p).Writing x) : (Ctl.wait b a).Writing x := by
      rwa [hc] at hw
    dsimp only at hstep
    split_ifs at hstep with hdirty hvalid
    · cases hstep
      cases a with
      | bread dev sector k =>
        rw [hok.2.2.2.2.2] at hdirty
        cases hdirty
      | bwrite k =>
        have hbuf := update_quiet (b := b)
          (v := { s.cache.buf b with valid := true, dirty := false }) rfl (fun hf => by cases hf)
        refine h.quiet hV hinv (fun q _ => woke_wakeup s.cache b q) (fun _ _ => rfl)
          (Finset.Subset.refl _) (fun q hq => update_of_ne hq _ _) hbuf rfl rfl hwakep
          (fun x _ => hwriting x) ?_
        change CtlKeeps m V _ (update s.cache.unsaved p _ p) _
        rw [update_self]
        refine ⟨hk.1, ?_⟩
        rw [Finset.erase_idem]
        exact hk.2
    · cases hstep
      have hbuf := update_quiet (b := b)
        (v := { s.cache.buf b with data := s.cache.disk (s.cache.buf b).key, valid := true }) rfl id
      exact h.quiet hV hinv (fun q _ => woke_wakeup s.cache b q) (fun _ _ => rfl)
        (Finset.Subset.refl _) (fun _ _ => rfl) hbuf rfl rfl hwakep (fun x _ => hwriting x) hk
  · cases hstep

omit [DecidableEq ι] in
/-- A process that is idle has come to its end. -/
theorem idle_eq (h : (c : Ctl n).idle = true) : c = .run (.ret ()) := by
  cases c with
  | run c =>
    cases c with
    | ret _ => rfl
    | op o k => cases h
  | asleep _ _ _ _ | check _ _ _ _ | iderw _ _ | wait _ _ => cases h

omit [DecidableEq ι] in
/-- Between two calls a process holds no buffer. -/
theorem Room.holds_idle (h : Room m d s) (hp : (s.cache.ctl p).idle = true) :
    s.cache.holds p = ∅ ∧ s.cache.unsaved p = ∅ := by
  obtain ⟨V, -, hk⟩ := h.view p
  rw [idle_eq hp] at hk
  have hholds : s.cache.holds p = ∅ := hk
  refine ⟨hholds, Finset.subset_empty.mp ?_⟩
  rw [← hholds]
  exact h.inv.unsaved p

/-- **The calls keep what is to be kept.** -/
theorem keeps_call (V : View n) (call : Call) : Keeps 4 V ∅ ∅ (call.code : Code n Unit) := by
  have hwithin {α : Type} {f : Code n α} (hf : Within 4 4 none f) :
      Keeps 4 V ∅ ∅ (f >>= fun _ => pure ()) :=
    hf ∅ ∅ (fun _ => pure ()) nofun (Finset.Subset.refl _) (by simp) (fun _ _ => rfl) V
  cases call with
  | readi ip off m => exact hwithin (within_readi ip off m)
  | dirlookup dp name => exact hwithin (within_dirlookup dp name)
  | writei ip src off => exact hwithin (within_writei ip src off)
  | itrunc ip => exact hwithin (within_itrunc ip)
  | commitTrans =>
    have h := hwithin (within_commitTrans.mono (by omega))
    rwa [bind_pure_unit] at h

/-- A process starts a call. -/
theorem Room.start (h : Room 4 d s) (hp : (s.cache.ctl p).idle = true) (call : Call) :
    Room 4 d ⟨s.cache.setCtl p (.run call.code), s.owner⟩ := by
  obtain ⟨hholds, hunsaved⟩ := h.holds_idle hp
  obtain ⟨V, hV, -⟩ := h.view p
  have hk : Keeps 4 V (s.cache.holds p) (s.cache.unsaved p) call.code := by
    rw [hholds, hunsaved]
    exact keeps_call V call
  refine h.setCtl (h.inv.setCtl hk.obeys fun b hb _ => ?_) hV hk (fun a _ hw => ?_) rfl
  · rw [hholds] at hb
    exact absurd hb (Finset.notMem_empty b)
  · rw [idle_eq hp] at hw
    cases hw

/-- `begin_trans()`. -/
theorem Room.beginTrans (h : Room m d s) (hp : (s.cache.ctl p).idle = true)
    (hbusy : ¬ s.cache.log.busy) :
    Room m d ⟨{ s.cache with log := { s.cache.log with busy := true } }, some p⟩ := by
  obtain ⟨hholds, hunsaved⟩ := h.holds_idle hp
  have hnone : s.owner = none := by
    by_contra hne
    exact hbusy (h.busy.mpr hne)
  obtain ⟨-, hclean⟩ := h.closed hnone
  have hnot (q : ι) : s.owner ≠ some q := by
    rw [hnone]
    exact nofun
  refine h.move p h.inv.setLog (fun _ _ => Or.inl rfl) (fun _ _ => rfl) (fun _ _ => rfl)
    (fun _ _ _ _ => rfl) (fun q hq => ?_) (fun q _ hs => absurd hs (hnot q))
    (fun q _ hs => absurd hs (hnot q)) (iff_of_true rfl (Option.some_ne_none p)) h.short
    nofun (h.root p) h.rootDirty (h.card p)
    ⟨⟨True, fun b => (s.cache.buf b).key, none, ∅⟩, ⟨trivial, fun _ _ => rfl, nofun,
      fun _ x hx => absurd hx (Set.notMem_empty x), fun _ b hb => ?_⟩, ?_⟩
  · exact iff_of_false (fun hs => hq (Option.some.inj hs).symm) (hnot q)
  · rw [hclean b] at hb
    cases hb
  · dsimp only
    rw [idle_eq hp]
    exact hholds

/-- **Every step keeps the invariant.** -/
theorem room_step {a : Event ι} (h : Room 4 d s) (hstep : s.next a = some t) : Room 4 d t := by
  cases a with
  | go p =>
    simp only [World.next] at hstep
    split_ifs at hstep with hlog
    obtain ⟨u, hu, rfl⟩ := Option.map_eq_some_iff.mp hstep
    exact room_go h (fun hp => by_contra fun ho => hlog ⟨hp, ho⟩) hu
  | serve p =>
    obtain ⟨u, hu, rfl⟩ := Option.map_eq_some_iff.mp hstep
    exact room_serve h hu
  | beginTrans p =>
    simp only [World.next] at hstep
    split_ifs at hstep with hp
    cases hstep
    exact h.beginTrans hp.1 hp.2
  | start p call =>
    simp only [World.next] at hstep
    split_ifs at hstep with hp
    cases hstep
    exact h.start hp.1 call

/-- There is room in every reachable state, with four buffers for each process. -/
theorem room_reachable (h : (calls n ι d).Reachable s) : Room 4 d s := by
  refine h.invariant (I := Room 4 d) ?_ ?_
  · rintro _ ⟨L, hnil, hbusy, rfl⟩
    refine ⟨inv_boot L, ?_, ?_, fun _ => ⟨hnil, fun _ => rfl⟩, fun _ b hb => ?_, nofun, fun p => ?_,
      fun p => ⟨⟨True, fun _ => (NODEV, 0), none, ∅⟩, ⟨trivial, fun _ _ => rfl, nofun, nofun,
        nofun⟩,
        rfl⟩⟩
    · exact iff_of_false (by simp [boot, hbusy]) (not_not.mpr rfl)
    · simp [boot, hnil]
    · exact absurd hb (Finset.notMem_empty b)
    · simp [boot]
  · intro _ _ _ hs hstep
    exact room_step hs hstep

/-- **A process holds four buffers at most.** -/
theorem holds_card_le (h : (calls n ι d).Reachable s) (p : ι) : (s.cache.holds p).card ≤ 4 :=
  (room_reachable h).card p

/-! ### There is room -/

omit [DecidableEq ι] in
/-- A process that wants a block is at `bread`. -/
theorem wanted_eq (h : (c : Ctl n).wanted = some (dev, sector)) :
    ∃ k, c = .run (.op (.bread dev sector) k) := by
  cases c with
  | run c =>
    cases c with
    | ret _ => cases h
    | op o k =>
      cases o with
      | bread dev' sector' =>
        cases h
        exact ⟨k, rfl⟩
      | _ => cases h
  | asleep _ _ _ _ | check _ _ _ _ | iderw _ _ | wait _ _ => cases h

omit [DecidableEq ι] in
/-- When the second loop of `bget` finds nothing, every buffer is busy or dirty. -/
theorem Inv.victim_none (h : Inv d u) (hnone : u.victim = none) (b : Fin n) :
    (u.buf b).busy = true ∨ (u.buf b).dirty = true := by
  obtain ⟨xs, hxs, hall⟩ := h.linked
  rw [State.victim, hxs.find_prev _ (length_lt hxs.nodup)] at hnone
  have hb := List.find?_eq_none.mp hnone b (List.mem_reverse.mpr (hall b))
  rw [decide_eq_true_eq] at hb
  by_contra hne
  obtain ⟨h1, h2⟩ := not_or.mp hne
  exact hb ⟨by simpa using h1, by simpa using h2⟩

omit [DecidableEq ι] in
/-- A process that writes to a buffer holds it. -/
theorem Inv.holds_of_writing (h : Inv d u) (hw : (u.ctl p).Writing b) : b ∈ u.holds p := by
  have hok := h.ctl p
  cases hc : u.ctl p with
  | run _ | asleep _ _ _ _ | check _ _ _ _ =>
    rw [hc] at hw
    cases hw
  | iderw a x | wait a x =>
    rw [hc] at hw hok
    cases x with
    | bread _ _ _ => cases hw
    | bwrite k =>
      obtain rfl : a = b := hw
      exact hok.1

omit [DecidableEq ι] in
/-- A dirty buffer is held, or its sector is in the log. -/
theorem Room.held_or_logged (h : Room m d s) (hb : (s.cache.buf b).dirty = true) :
    (∃ p, b ∈ s.cache.holds p) ∨ (s.cache.buf b).sector ∈ s.cache.log.lh := by
  cases ho : s.owner with
  | none =>
    rw [(h.closed ho).2 b] at hb
    cases hb
  | some p =>
    obtain ⟨V, hV, -⟩ := h.view p
    obtain hmem | hw := hV.dirty ho b hb
    · exact Or.inr (hV.logged ho _ hmem)
    · exact Or.inl ⟨p, h.inv.holds_of_writing hw⟩

omit [DecidableEq ι] in
/-- **The buffers in the way** are those that are held and those of the sectors in the log. -/
theorem Room.card_le [Fintype ι] (h : Room m d s)
    (hall : ∀ b, (s.cache.buf b).busy = true ∨ (s.cache.buf b).dirty = true) :
    n ≤ ∑ q, (s.cache.holds q).card + s.cache.log.lh.length := by
  classical
  let held := Finset.univ.biUnion s.cache.holds
  let pinned := Finset.univ.filter fun b => (s.cache.buf b).dirty = true ∧
    (s.cache.buf b).sector ∈ s.cache.log.lh
  have hcover : Finset.univ ⊆ held ∪ pinned := by
    intro b _
    have hheld (hp : ∃ p, b ∈ s.cache.holds p) : b ∈ held := by
      obtain ⟨p, hp⟩ := hp
      exact Finset.mem_biUnion.mpr ⟨p, Finset.mem_univ p, hp⟩
    rw [Finset.mem_union]
    obtain hbusy | hdirty := hall b
    · exact Or.inl (hheld ((h.inv.busy b).mp hbusy))
    · exact (h.held_or_logged hdirty).imp hheld fun hlog =>
        Finset.mem_filter.mpr ⟨Finset.mem_univ b, hdirty, hlog⟩
  have hpinned : pinned.card ≤ s.cache.log.lh.length := by
    refine (Finset.card_le_card_of_injOn (fun b => (s.cache.buf b).sector) (fun b hb => ?_)
      fun a ha b hb he => ?_).trans (List.toFinset_card_le _)
    · exact List.mem_toFinset.mpr (Finset.mem_filter.mp hb).2.2
    · by_contra hab
      exact h.sector_ne (h.rootDirty a (Finset.mem_filter.mp ha).2.1)
        (h.rootDirty b (Finset.mem_filter.mp hb).2.1) hab he
  calc n = (Finset.univ : Finset (Fin n)).card := (Finset.card_fin n).symm
    _ ≤ (held ∪ pinned).card := Finset.card_le_card hcover
    _ ≤ held.card + pinned.card := Finset.card_union_le _ _
    _ ≤ ∑ q, (s.cache.holds q).card + s.cache.log.lh.length :=
      Nat.add_le_add Finset.card_biUnion_le hpinned

/-- **`bget` does not panic: it finds its block, or a buffer that is neither busy nor dirty**, while
the buffers held and the sectors logged are fewer than the buffers. -/
theorem bget_finds [Fintype ι] {dev sector : ℕ} (h : (calls n ι d).Reachable s)
    (hwant : (s.cache.ctl p).wanted = some (dev, sector))
    (hroom : ∑ q, (s.cache.holds q).card + s.cache.log.lh.length < n) :
    ((∃ b, s.cache.lookup dev sector = some b) ∨
      ∃ b, s.cache.victim = some b ∧ (s.cache.buf b).busy = false ∧
        (s.cache.buf b).dirty = false) ∧
      ∃ t, s.next (.go p) = some t := by
  have hR := room_reachable h
  obtain ⟨b, hb⟩ : ∃ b, s.cache.victim = some b := by
    cases hvictim : s.cache.victim with
    | some b => exact ⟨b, rfl⟩
    | none => exact absurd (hR.card_le (hR.inv.victim_none hvictim)) (Nat.not_le.mpr hroom)
  refine ⟨Or.inr ⟨b, hb, hR.inv.victim hb⟩, ?_⟩
  obtain ⟨k, hk⟩ := wanted_eq hwant
  have hgo : ∃ u, s.cache.go p = some u := by
    simp only [State.go, hk, State.bget, hb]
    cases s.cache.lookup dev sector with
    | none => exact ⟨_, rfl⟩
    | some a =>
      dsimp only
      split_ifs
      · exact ⟨_, rfl⟩
      · exact ⟨_, rfl⟩
  obtain ⟨u, hu⟩ := hgo
  refine ⟨⟨u, if u.log.busy then s.owner else none⟩, ?_⟩
  rw [World.next, if_neg, hu, Option.map_some]
  rw [hk]
  rintro ⟨hlog, -⟩
  cases hlog

end Lemmas

end Model

/-- A file of one block, the one numbered `20 + p`. -/
def oneBlock (p : Fin 11) : Locked :=
  ⟨1 + p, ⟨T_FILE, 0, 0, 1, BSIZE, fun i => if i.val = 0 then 20 + p else 0⟩⟩

/-- The buffer cache after boot. -/
def quietWorld : World NBUF (Fin 11) :=
  ⟨boot NBUF (Fin 11) (fun _ => Block.zero) ⟨100, 10, false, []⟩, none⟩

theorem quietWorld_reachable : (calls NBUF (Fin 11) fun _ => Block.zero).Reachable quietWorld :=
  .init ⟨_, rfl, rfl, rfl⟩

/-- A process reads its file: the call, and the steps up to the wait for the disk. -/
def reads (p : Fin 11) : List (Event (Fin 11)) :=
  [.start p (.readi (oneBlock p) 0 BSIZE), .go p, .go p, .go p]

/-- Nine processes hold a buffer each and wait for the disk: `bget` finds the last buffer for the
tenth. -/
theorem bget_finds_tenth : ∃ s : World NBUF (Fin 11), ∃ t,
    ∑ q, (s.cache.holds q).card = 9 ∧ (s.cache.ctl 9).wanted = some (ROOTDEV, 29) ∧
      s.next (.go 9) = some t := by
  let acts : List (Event (Fin 11)) :=
    (((List.finRange 11).take 9).flatMap reads) ++ [.start 9 (.readi (oneBlock 9) 0 BSIZE)]
  have hrun : (acts.foldlM World.next quietWorld).map (fun s =>
      ((s.cache.ctl 9).wanted, ∑ q, (s.cache.holds q).card, s.cache.log.lh)) =
        some (some (ROOTDEV, 29), 9, []) := by
    decide +kernel
  obtain ⟨s, hs, hobs⟩ := Option.map_eq_some_iff.mp hrun
  obtain ⟨hwant, hheld, hlog⟩ : _ ∧ _ ∧ _ := by
    simpa only [Prod.mk.injEq] using hobs
  have hreach : (calls NBUF (Fin 11) fun _ => Block.zero).Reachable s :=
    .foldlM (fun _ _ _ h => h) quietWorld_reachable hs
  have hroom : ∑ q, (s.cache.holds q).card + s.cache.log.lh.length < NBUF := by
    rw [hheld, hlog]
    decide
  obtain ⟨t, ht⟩ := (bget_finds hreach hwant hroom).2
  exact ⟨s, t, hheld, hwant, ht⟩

/-- **Eleven processes read eleven files.** Ten wait for the disk with a buffer each, and `bget`
finds nothing for the last one. -/
theorem bget_no_buffers : ∃ s : World NBUF (Fin 11),
    (calls NBUF (Fin 11) fun _ => Block.zero).Reachable s ∧
    (s.cache.ctl 10).wanted = some (ROOTDEV, 30) ∧ s.cache.lookup ROOTDEV 30 = none ∧
    s.cache.victim = none ∧ s.next (.go 10) = none := by
  let acts : List (Event (Fin 11)) :=
    ((List.finRange 11).dropLast.flatMap reads) ++ [.start 10 (.readi (oneBlock 10) 0 BSIZE)]
  have hrun : (acts.foldlM World.next quietWorld).map (fun s =>
      ((s.cache.ctl 10).wanted, s.cache.lookup ROOTDEV 30, s.cache.victim,
        (s.next (.go 10)).isNone)) = some (some (ROOTDEV, 30), none, none, true) := by
    decide +kernel
  obtain ⟨s, hs, hobs⟩ := Option.map_eq_some_iff.mp hrun
  obtain ⟨hwant, hlookup, hvictim, hnone⟩ : _ ∧ _ ∧ _ ∧ _ := by
    simpa only [Prod.mk.injEq] using hobs
  exact ⟨s, .foldlM (fun _ _ _ h => h) quietWorld_reachable hs, hwant, hlookup, hvictim,
    Option.isNone_iff_eq_none.mp hnone⟩

end Xv6.Bcache
