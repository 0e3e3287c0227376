import Mathlib

/-!
# The Matcher of `grep`

`match`, `matchhere` and `matchstar` (`grep.c`). A C string is the list of its bytes in front of the
NUL, and a pointer into it the rest of the list, so that `*text == '\0'` is the empty list.

A pattern is read as an optional `^`, items that may be followed by `*`, and an optional `$`. The
special characters are special by their place: `*` is an ordinary character where there is nothing
to repeat, `^` behind the start and `$` in front of the end or of a `*`. `readPattern` is this
reading, and `Pattern.text_readPattern` says that it is one of the pattern. Its meaning is a
language of Mathlib.

## Main results

* `matchhere_iff`: what `matchhere` finds at the start of a text.
* `match_sound_complete`: **the matcher is sound and complete.**
-/

namespace Xv6.Grep

/-! ### The matcher -/

/-- The loop of `matchstar`, where `here` is `matchhere` for the rest of the pattern. -/
def starLoop (here : List UInt8 → Bool) (c : UInt8) : List UInt8 → Bool
  | [] => here []
  | t :: text => here (t :: text) || ((t == c || c == '.'.toUInt8) && starLoop here c text)

/-- `matchhere(re, text)`. Every call is for a shorter pattern. -/
def matchhere : List UInt8 → List UInt8 → Bool
  | [], _ => true
  | c :: [], text =>
    if c = '$'.toUInt8 then text.isEmpty
    else
      match text with
      | [] => false
      | t :: _ => c == '.'.toUInt8 || c == t
  | c :: d :: re, text =>
    if d = '*'.toUInt8 then starLoop (matchhere re) c text
    else
      match text with
      | [] => false
      | t :: text => (c == '.'.toUInt8 || c == t) && matchhere (d :: re) text

/-- `matchstar(c, re, text)`. -/
def matchstar (c : UInt8) (re text : List UInt8) : Bool := starLoop (matchhere re) c text

/-- The call of `matchstar` in `matchhere`. -/
theorem matchhere_star (c : UInt8) (re text : List UInt8) :
    matchhere (c :: '*'.toUInt8 :: re) text = matchstar c re text := by
  cases text <;> rw [matchhere, if_pos rfl, matchstar]

/-- The loop of `match`, over all places of the text, its end included. -/
def matchLoop (re : List UInt8) : List UInt8 → Bool
  | [] => matchhere re []
  | t :: text => matchhere re (t :: text) || matchLoop re text

/-- `match(re, text)`. -/
def matchRe (re text : List UInt8) : Bool :=
  match re with
  | [] => matchLoop [] text
  | c :: rest => if c = '^'.toUInt8 then matchhere rest text else matchLoop (c :: rest) text

/-! ### Patterns -/

/-- What one character of a text is compared with. -/
inductive Atom
  | any
  | char (c : UInt8)
  deriving DecidableEq, Repr

/-- An atom, or any number of it. -/
inductive Item
  | one (a : Atom)
  | star (a : Atom)
  deriving DecidableEq, Repr

/-- A pattern: whether it starts with `^`, its items, and whether it ends with `$`. -/
structure Pattern where
  start : Bool
  items : List Item
  stop : Bool
  deriving DecidableEq, Repr

/-- The atom that a character of a pattern stands for. -/
def readAtom (c : UInt8) : Atom := if c = '.'.toUInt8 then .any else .char c

/-- Read the items of a pattern, and whether a final `$` follows them. -/
def readItems : List UInt8 → List Item × Bool
  | [] => ([], false)
  | c :: [] => if c = '$'.toUInt8 then ([], true) else ([.one (readAtom c)], false)
  | c :: d :: re =>
    if d = '*'.toUInt8 then (.star (readAtom c) :: (readItems re).1, (readItems re).2)
    else (.one (readAtom c) :: (readItems (d :: re)).1, (readItems (d :: re)).2)

/-- Read a pattern. -/
def readPattern (re : List UInt8) : Pattern :=
  match re with
  | [] => ⟨false, [], false⟩
  | c :: rest =>
    if c = '^'.toUInt8 then ⟨true, (readItems rest).1, (readItems rest).2⟩
    else ⟨false, (readItems (c :: rest)).1, (readItems (c :: rest)).2⟩

/-- An atom as it is written. -/
def Atom.text : Atom → UInt8
  | .any => '.'.toUInt8
  | .char c => c

/-- An item as it is written. -/
def Item.text : Item → List UInt8
  | .one a => [a.text]
  | .star a => [a.text, '*'.toUInt8]

/-- A pattern as it is written. -/
def Pattern.text (p : Pattern) : List UInt8 :=
  (if p.start then ['^'.toUInt8] else []) ++ p.items.flatMap Item.text ++
    (if p.stop then ['$'.toUInt8] else [])

/-- Reading an atom loses nothing. -/
theorem text_readAtom (c : UInt8) : (readAtom c).text = c := by
  rw [readAtom]
  split_ifs with h
  · exact h.symm
  · rfl

/-- Reading the items loses nothing: the text of the pattern can be put together again. -/
theorem text_readItems (re : List UInt8) :
    (readItems re).1.flatMap Item.text ++ (if (readItems re).2 then ['$'.toUInt8] else []) =
      re := by
  fun_induction readItems re with
  | case1 => rfl
  | case2 => rfl
  | case3 c h => simp [Item.text, text_readAtom]
  | case4 c re ih => simpa [Item.text, text_readAtom] using ih
  | case5 c d re h ih => simpa [Item.text, text_readAtom] using ih

/-- **A pattern is what it is read as.** -/
theorem Pattern.text_readPattern (re : List UInt8) : (readPattern re).text = re := by
  cases re with
  | nil => rfl
  | cons c rest =>
    rw [readPattern]
    split_ifs with h
    · rw [h]
      exact congrArg _ (text_readItems _)
    · exact text_readItems _

/-! ### The language of a pattern -/

/-- The characters that an atom stands for. -/
def Atom.Accepts : Atom → UInt8 → Prop
  | .any, _ => True
  | .char c, t => t = c

/-- The words of one character that an atom stands for. -/
def Atom.lang (a : Atom) : Language UInt8 := {w | ∃ t, a.Accepts t ∧ w = [t]}

open scoped Computability in
/-- The words that an item stands for. -/
def Item.lang : Item → Language UInt8
  | .one a => a.lang
  | .star a => a.lang∗

/-- The words that a sequence of items stands for. -/
def lang (items : List Item) : Language UInt8 := (items.map Item.lang).prod

/-- **Some part of the text is a word of the pattern**, at the start of the text if the pattern
starts with `^` and at its end if it ends with `$`. -/
def Pattern.Occurs (p : Pattern) (text : List UInt8) : Prop :=
  ∃ before word after, text = before ++ word ++ after ∧ word ∈ lang p.items ∧
    (p.start = true → before = []) ∧ (p.stop = true → after = [])

section Language

variable {a : Atom} {i : Item} {items : List Item} {c t : UInt8} {w : List UInt8}

/-- The atom `.` accepts every character, and others accept themselves. -/
theorem accepts_readAtom : (readAtom c).Accepts t ↔ c = '.'.toUInt8 ∨ c = t := by
  rw [readAtom]
  split_ifs with h
  · exact iff_of_true trivial (.inl h)
  · rw [or_iff_right h]
    exact eq_comm

theorem mem_atom_lang : w ∈ a.lang ↔ ∃ t, a.Accepts t ∧ w = [t] := Iff.rfl

open scoped Computability in
/-- Any number of an atom. -/
theorem mem_star_lang : w ∈ a.lang∗ ↔ ∀ t ∈ w, a.Accepts t := by
  rw [Language.mem_kstar]
  constructor
  · rintro ⟨L, rfl, hL⟩ t ht
    obtain ⟨v, hv, htv⟩ := List.mem_flatten.mp ht
    obtain ⟨t', ht', rfl⟩ := hL v hv
    rwa [List.mem_singleton.mp htv]
  · intro h
    refine ⟨w.map fun t => [t], ?_, ?_⟩
    · induction w with
      | nil => rfl
      | cons t w ih => simpa using ih fun t' ht' => h t' (List.mem_cons_of_mem _ ht')
    · intro v hv
      obtain ⟨t, ht, rfl⟩ := List.mem_map.mp hv
      exact ⟨t, h t ht, rfl⟩

theorem mem_lang_nil : w ∈ lang [] ↔ w = [] := Language.mem_one w

theorem mem_lang_cons : w ∈ lang (i :: items) ↔ ∃ u ∈ i.lang, ∃ v ∈ lang items, u ++ v = w := by
  rw [lang, List.map_cons, List.prod_cons]
  exact Language.mem_mul

end Language

/-! ### Soundness and completeness -/

section Match

variable {re text : List UInt8}

/-- A word of the items starts the text, and is all of it if `$` follows. -/
def Starts (p : List Item × Bool) (text : List UInt8) : Prop :=
  ∃ word after, text = word ++ after ∧ word ∈ lang p.1 ∧ (p.2 = true → after = [])

/-- A repeated atom takes any number of characters that it accepts. -/
theorem starts_star {a : Atom} {items : List Item} {stop : Bool} :
    Starts (.star a :: items, stop) text ↔
      ∃ u v, text = u ++ v ∧ (∀ t ∈ u, a.Accepts t) ∧ Starts (items, stop) v := by
  constructor
  · rintro ⟨word, after, rfl, hword, hstop⟩
    obtain ⟨u, hu, v, hv, rfl⟩ := mem_lang_cons.mp hword
    exact ⟨u, v ++ after, List.append_assoc .., mem_star_lang.mp hu, v, after, rfl, hv, hstop⟩
  · rintro ⟨u, _, rfl, hu, v, after, rfl, hv, hstop⟩
    exact ⟨u ++ v, after, (List.append_assoc ..).symm,
      mem_lang_cons.mpr ⟨u, mem_star_lang.mpr hu, v, hv, rfl⟩, hstop⟩

/-- A single atom takes one character that it accepts. -/
theorem starts_one {a : Atom} {items : List Item} {stop : Bool} :
    Starts (.one a :: items, stop) text ↔
      ∃ t v, text = t :: v ∧ a.Accepts t ∧ Starts (items, stop) v := by
  constructor
  · rintro ⟨word, after, rfl, hword, hstop⟩
    obtain ⟨u, hu, v, hv, rfl⟩ := mem_lang_cons.mp hword
    obtain ⟨t, ht, rfl⟩ := mem_atom_lang.mp hu
    exact ⟨t, v ++ after, rfl, ht, v, after, rfl, hv, hstop⟩
  · rintro ⟨t, _, rfl, ht, v, after, rfl, hv, hstop⟩
    exact ⟨t :: v, after, rfl, mem_lang_cons.mpr ⟨[t], ⟨t, ht, rfl⟩, v, hv, rfl⟩, hstop⟩

/-- The end of the pattern, with or without `$`. -/
theorem starts_nil {stop : Bool} : Starts ([], stop) text ↔ (stop = true → text = []) := by
  constructor
  · rintro ⟨word, after, rfl, hword, hstop⟩ h
    rw [mem_lang_nil.mp hword, hstop h]
    rfl
  · exact fun h => ⟨[], text, rfl, mem_lang_nil.mpr rfl, h⟩

/-- `matchstar` tries every number of repetitions. -/
theorem starLoop_iff {here : List UInt8 → Bool} {c : UInt8} :
    starLoop here c text = true ↔
      ∃ u v, text = u ++ v ∧ (∀ t ∈ u, (readAtom c).Accepts t) ∧ here v = true := by
  induction text with
  | nil =>
    constructor
    · exact fun h => ⟨[], [], rfl, fun _ ht => absurd ht List.not_mem_nil, h⟩
    · rintro ⟨u, v, huv, -, h⟩
      obtain ⟨rfl, rfl⟩ := List.append_eq_nil_iff.mp huv.symm
      exact h
  | cons t text ih =>
    have hacc : (t == c || c == '.'.toUInt8) = true ↔ (readAtom c).Accepts t := by
      rw [accepts_readAtom, Bool.or_eq_true, beq_iff_eq, beq_iff_eq, or_comm, eq_comm (a := t)]
    rw [starLoop, Bool.or_eq_true, Bool.and_eq_true, hacc, ih]
    constructor
    · rintro (h | ⟨ht, u, v, rfl, hu, h⟩)
      · exact ⟨[], t :: text, rfl, fun _ ht => absurd ht List.not_mem_nil, h⟩
      · exact ⟨t :: u, v, rfl, List.forall_mem_cons.mpr ⟨ht, hu⟩, h⟩
    · rintro ⟨u, v, huv, hu, h⟩
      cases u with
      | nil => exact .inl (huv ▸ h)
      | cons t' u =>
        obtain ⟨rfl, rfl⟩ := List.cons.inj huv
        obtain ⟨ht, hu⟩ := List.forall_mem_cons.mp hu
        exact .inr ⟨ht, u, v, rfl, hu, h⟩

/-- **`matchhere`** finds exactly the words of the pattern at the start of the text. -/
theorem matchhere_iff : matchhere re text = true ↔ Starts (readItems re) text := by
  induction re using readItems.induct generalizing text with
  | case1 => exact iff_of_true rfl (starts_nil.mpr nofun)
  | case2 =>
    rw [readItems, if_pos rfl, starts_nil]
    cases text with
    | nil => exact iff_of_true rfl fun _ => rfl
    | cons t text => simp [matchhere]
  | case3 c hc =>
    rw [readItems, if_neg hc, starts_one]
    cases text with
    | nil => simp [matchhere, hc]
    | cons t text => simp [matchhere, hc, accepts_readAtom, starts_nil]
  | case4 c re ih =>
    rw [matchhere_star, matchstar, readItems, if_pos rfl, starts_star, starLoop_iff]
    simp only [ih]
  | case5 c d re hd ih =>
    rw [readItems, if_neg hd, starts_one]
    cases text with
    | nil => simp [matchhere, hd]
    | cons t text => simp [matchhere, hd, accepts_readAtom, ih]

/-- The loop of `match` tries all suffixes of the text. -/
theorem matchLoop_iff : matchLoop re text = true ↔
    ∃ before rest, text = before ++ rest ∧ matchhere re rest = true := by
  induction text with
  | nil =>
    constructor
    · exact fun h => ⟨[], [], rfl, h⟩
    · rintro ⟨u, v, huv, h⟩
      obtain ⟨rfl, rfl⟩ := List.append_eq_nil_iff.mp huv.symm
      exact h
  | cons t text ih =>
    rw [matchLoop, Bool.or_eq_true, ih]
    constructor
    · rintro (h | ⟨u, v, rfl, h⟩)
      · exact ⟨[], t :: text, rfl, h⟩
      · exact ⟨t :: u, v, rfl, h⟩
    · rintro ⟨u, v, huv, h⟩
      cases u with
      | nil => exact .inl (huv ▸ h)
      | cons t' u =>
        obtain ⟨rfl, rfl⟩ := List.cons.inj huv
        exact .inr ⟨u, v, rfl, h⟩

/-- A pattern with `^` occurs at the start. -/
theorem occurs_anchored {p : List Item × Bool} :
    Pattern.Occurs ⟨true, p.1, p.2⟩ text ↔ Starts p text := by
  constructor
  · rintro ⟨before, word, after, rfl, hword, hstart, hstop⟩
    rw [hstart rfl]
    exact ⟨word, after, rfl, hword, hstop⟩
  · rintro ⟨word, after, rfl, hword, hstop⟩
    exact ⟨[], word, after, rfl, hword, fun _ => rfl, hstop⟩

/-- A pattern without `^` occurs anywhere. -/
theorem occurs_anywhere {p : List Item × Bool} :
    Pattern.Occurs ⟨false, p.1, p.2⟩ text ↔
      ∃ before rest, text = before ++ rest ∧ Starts p rest := by
  constructor
  · rintro ⟨before, word, after, rfl, hword, -, hstop⟩
    exact ⟨before, word ++ after, List.append_assoc .., word, after, rfl, hword, hstop⟩
  · rintro ⟨before, _, rfl, word, after, rfl, hword, hstop⟩
    exact ⟨before, word, after, (List.append_assoc ..).symm, hword, nofun, hstop⟩

/-- **The matcher is sound and complete**: for every pattern and every text, `match` finds something
exactly if some part of the text is in the language of the pattern. -/
theorem match_sound_complete (re text : List UInt8) :
    matchRe re text = true ↔ (readPattern re).Occurs text := by
  cases re with
  | nil =>
    rw [matchRe, matchLoop_iff, readPattern, occurs_anywhere (p := ([], false))]
    simp only [matchhere_iff, readItems]
  | cons c rest =>
    rw [matchRe, readPattern]
    split_ifs
    · rw [matchhere_iff, occurs_anchored]
    · rw [matchLoop_iff, occurs_anywhere]
      simp only [matchhere_iff]

end Match

/-- `$*` repeats the character, `*` alone is one. -/
example : readPattern ("^*a$*.$".toList.map Char.toUInt8) =
    ⟨true, [.one (.char '*'.toUInt8), .one (.char 'a'.toUInt8), .star (.char '$'.toUInt8),
      .one .any], true⟩ := by
  decide

end Xv6.Grep
