import Mathlib.Data.List.Infix
import Xv6.Shell

/-!
# The Grammar of the Shell

The command language of the shell as a grammar over the tokens of a line (`Derives`), and the first
half of what the parser has to do with it: what it reads has a derivation.

## Main results

* `scanned`: what `gettoken` says about the tokens of the line.
* `parse_sound`: **a tree that the parser returns has a derivation from the tokens it has read.**
-/

namespace Xv6.Shell

/-! ### The grammar -/

/-- A token with its text. -/
inductive Lexeme
  | sym (x : Symbol)
  | word (w : List UInt8)
  deriving DecidableEq, Repr

/-- The tokens of a line: symbols, and maximal runs of word characters. -/
def lex (s : List UInt8) : List Lexeme :=
  match s with
  | [] => []
  | c :: s =>
    if whitespace.contains c then lex s
    else if isWordChar c then
      .word (c :: s.takeWhile isWordChar) :: lex (s.dropWhile isWordChar)
    else if c = '>'.toUInt8 ∧ s.head? = some '>'.toUInt8 then .sym .append :: lex s.tail
    else (symbolOf c).toList.map .sym ++ lex s
termination_by s.length
decreasing_by
  all_goals simp only [List.length_cons, List.length_tail]
  · omega
  · exact Nat.lt_succ_of_le (List.dropWhile_suffix _).length_le
  · omega
  · omega

/-- A tree with the texts of its words. -/
abbrev Tree := Cmd (List UInt8)

/-- What a redirection does: the file, the mode in which it is opened, and the file descriptor that
it becomes. -/
structure Redir where
  file : List UInt8
  mode : ℕ
  fd : ℕ

/-- A command with redirections, the first of them innermost. -/
def withRedirs (c : Tree) (rs : List Redir) : Tree :=
  rs.foldl (fun c r => .redir c r.file r.mode r.fd) c

/-- The redirections of the language, with their modes and file descriptors. -/
inductive Redirects : Symbol → ℕ → ℕ → Prop
  /-- `'<'`: the standard input is the file -/
  | input : Redirects .lt O_RDONLY 0
  /-- `'>'`: the standard output is the file, which is created if there is none -/
  | output : Redirects .gt (O_WRONLY ||| O_CREATE) 1
  /-- `'>>'`: the same -/
  | append : Redirects .append (O_WRONLY ||| O_CREATE) 1

/-- `redir*`, where `redir ::= ('<' | '>' | '>>') word`. -/
inductive Redirs : List Lexeme → List Redir → Prop
  | nil : Redirs [] []
  | cons {x mode fd w ts rs} (hx : Redirects x mode fd) (h : Redirs ts rs) :
      Redirs (.sym x :: .word w :: ts) (⟨w, mode, fd⟩ :: rs)

/-- `(word redir*)*` -/
inductive Args : List Lexeme → List (List UInt8) → List Redir → Prop
  | nil : Args [] [] []
  | cons {w ts us ws rs rs'} (h : Redirs ts rs) (h' : Args us ws rs') :
      Args (.word w :: (ts ++ us)) (w :: ws) (rs ++ rs')

/-- The nonterminals that stand for commands. -/
inductive Nonterminal
  | line | pipe | exec
  deriving DecidableEq

/-- The token sequences of the command language, with their trees. -/
inductive Derives : Nonterminal → List Lexeme → Tree → Prop
  /-- `line ::= pipe '&'*` -/
  | last {ts c} (k : ℕ) (h : Derives .pipe ts c) :
      Derives .line (ts ++ List.replicate k (.sym .amp)) (Cmd.back^[k] c)
  /-- `line ::= pipe '&'* ';' line` -/
  | seq {ts us c d} (k : ℕ) (h : Derives .pipe ts c) (h' : Derives .line us d) :
      Derives .line (ts ++ List.replicate k (.sym .amp) ++ .sym .semi :: us)
        (.list (Cmd.back^[k] c) d)
  /-- `pipe ::= exec` -/
  | single {ts c} (h : Derives .exec ts c) : Derives .pipe ts c
  /-- `pipe ::= exec '|' pipe` -/
  | piped {ts us c d} (h : Derives .exec ts c) (h' : Derives .pipe us d) :
      Derives .pipe (ts ++ .sym .bar :: us) (.pipe c d)
  /-- `exec ::= '(' line ')' redir*` -/
  | block {ts us c rs} (h : Derives .line ts c) (h' : Redirs us rs) :
      Derives .exec (.sym .lparen :: (ts ++ .sym .rparen :: us)) (withRedirs c rs)
  /-- `exec ::= redir* (word redir*)*`, with at most `MAXARGS - 1` words. -/
  | simple {ts us ws rs rs'} (h : Redirs ts rs) (h' : Args us ws rs')
      (hlen : ws.length ≤ MAXARGS - 1) :
      Derives .exec (ts ++ us) (withRedirs (.exec ws) (rs ++ rs'))

/-! ### Tokens -/

section Tokens

variable {s : List UInt8} {c : UInt8} {x : Symbol}

/-- The symbol that a character starts has this character, and is not `>>`. -/
theorem symbolOf_char (h : symbolOf c = some x) : x.char = c ∧ x ≠ .append := by
  unfold symbolOf at h
  split_ifs at h with h1 h2 h3 h4 h5 h6 h7 <;> cases h <;> exact ⟨Eq.symm ‹_›, nofun⟩

/-- The cases of the `switch` are the characters of `symbols`. -/
theorem symbolOf_eq_none : symbolOf c = none ↔ symbols.contains c = false := by
  unfold symbolOf
  simp only [symbols, List.map_cons, List.map_nil, List.contains_eq_mem, List.mem_cons,
    List.not_mem_nil, or_false, decide_eq_false_iff_not, not_or]
  split_ifs with h1 h2 h3 h4 h5 h6 h7 <;> simp_all

/-- Symbols start with a character of `symbols`. -/
theorem char_mem_symbols (x : Symbol) : symbols.contains x.char = true := by
  cases x <;> decide

theorem symbolOf_gt : symbolOf '>'.toUInt8 = some .gt := by decide

theorem eq_of_symbolOf_gt (h : symbolOf c = some .gt) : c = '>'.toUInt8 := (symbolOf_char h).1.symm

/-- White space at the cursor is skipped. -/
theorem skip_cons_of_whitespace (h : whitespace.contains c = true) : skip (c :: s) = skip s :=
  List.dropWhile_cons_of_pos h

/-- Nothing is skipped at any other character. -/
theorem skip_cons_of_not (h : whitespace.contains c = false) : skip (c :: s) = c :: s :=
  List.dropWhile_cons_of_neg (by rw [h]; decide)

/-- Behind the white space the line ends, or there is another character. -/
theorem skip_cases (s : List UInt8) :
    skip s = [] ∨ ∃ c r, skip s = c :: r ∧ whitespace.contains c = false := by
  induction s with
  | nil => exact .inl rfl
  | cons c s ih =>
    cases h : whitespace.contains c with
    | true => rwa [skip_cons_of_whitespace h]
    | false => exact .inr ⟨c, s, skip_cons_of_not h, h⟩

/-- `peek` and `gettoken` skip white space that has been skipped before. -/
@[simp] theorem skip_skip (s : List UInt8) : skip (skip s) = skip s := by
  obtain h | ⟨c, r, h, hc⟩ := skip_cases s
  · rw [h]
    rfl
  · rw [h, skip_cons_of_not hc]

@[simp] theorem gettoken_skip (s : List UInt8) : gettoken (skip s) = gettoken s := by
  simp only [gettoken, skip_skip]

/-- The cursor stays in the line. -/
theorem skip_suffix (s : List UInt8) : skip s <:+ s := List.dropWhile_suffix _

@[simp] theorem lex_nil : lex [] = [] := by rw [lex]

/-- White space in front of a line does not change its tokens. -/
@[simp] theorem lex_skip (s : List UInt8) : lex (skip s) = lex s := by
  induction s with
  | nil => rfl
  | cons c s ih =>
    cases h : whitespace.contains c with
    | true => rw [skip_cons_of_whitespace h, ih, lex, if_pos h]
    | false => rw [skip_cons_of_not h]

/-- A line has no more tokens than characters. -/
theorem length_lex_le (s : List UInt8) : (lex s).length ≤ s.length := by
  fun_induction lex s with
  | case1 => exact Nat.le_refl 0
  | case2 c s h ih => exact Nat.le_succ_of_le ih
  | case3 c s h h' ih =>
    have := (List.dropWhile_suffix isWordChar (l := s)).length_le
    simp only [List.length_cons]
    omega
  | case4 c s h h' h'' ih =>
    simp only [List.length_cons, List.length_tail] at ih ⊢
    omega
  | case5 c s h h' h'' ih =>
    have : (symbolOf c).toList.length ≤ 1 := by cases symbolOf c <;> simp
    simp only [List.length_append, List.length_map, List.length_cons]
    omega

/-- The text of a word. -/
def Word.text (w : Word) : List UInt8 := w.q.take (w.q.length - w.eq.length)

/-- The pointers of a word in the line `src`: it ends where the run of word characters ends. -/
structure Word.In (src : List UInt8) (w : Word) : Prop where
  suffix : w.q <:+ src
  eq : w.eq = w.q.dropWhile isWordChar

/-- The text of a word is the run of word characters at its pointer. -/
theorem Word.In.text_eq {src : List UInt8} {w : Word} (h : w.In src) :
    w.text = w.q.takeWhile isWordChar := by
  have hsplit := List.takeWhile_append_dropWhile (p := isWordChar) (l := w.q)
  have hlen := congrArg List.length hsplit
  rw [List.length_append] at hlen
  calc w.text = w.q.take (w.q.takeWhile isWordChar).length := by
        rw [Word.text, h.eq]
        congr 1
        omega
    _ = w.q.takeWhile isWordChar := (List.prefix_iff_eq_take.mp (List.takeWhile_prefix _)).symm

/-- What `gettoken` says about the tokens of the line. -/
inductive Scanned (s : List UInt8) (t : Token) : Prop
  | eof (h : t.ret = .eof) (hlex : lex s = []) (hhead : (skip s).head? = none) (hps : t.ps = [])
  | sym (x : Symbol) (h : t.ret = .sym x) (hlex : lex s = .sym x :: lex t.ps)
      (hhead : (skip s).head? = some x.char)
  | word (h : t.ret = .word) (hlex : lex s = .word t.word.text :: lex t.ps)
      (hhead : ∃ c, (skip s).head? = some c ∧ symbols.contains c = false) (hin : t.word.In s)

/-- **The tokens of the line and `gettoken` agree.** The cases follow the `switch`: the end of the
line, a word, `>>`, and the other symbols. -/
theorem scanned (s : List UInt8) : Scanned s (gettoken s) := by
  have hlex : lex (skip s) = lex s := lex_skip s
  have hsuffix : skip s <:+ s := skip_suffix s
  obtain h | ⟨c, r, h, hc⟩ := skip_cases s
  · have htok : gettoken s = ⟨.eof, ⟨[], []⟩, []⟩ := by
      simp only [gettoken, h, scan]
      rfl
    rw [h, lex_nil] at hlex
    exact .eof (by rw [htok]) hlex.symm (by rw [h]; rfl) (by rw [htok])
  · rw [h] at hlex hsuffix
    rw [lex, if_neg (by rw [hc]; decide)] at hlex
    cases hx : symbolOf c with
    | none =>
      have hw : isWordChar c = true := by
        rw [isWordChar, hc, symbolOf_eq_none.mp hx]
        rfl
      have htok : gettoken s =
          ⟨.word, ⟨c :: r, (c :: r).dropWhile isWordChar⟩,
            skip ((c :: r).dropWhile isWordChar)⟩ := by
        simp only [gettoken, h, scan, hx]
      have hin : (gettoken s).word.In s := by
        rw [htok]
        exact ⟨hsuffix, rfl⟩
      refine .word (by rw [htok]) ?_ ⟨c, by rw [h]; rfl, symbolOf_eq_none.mp hx⟩ hin
      rw [hin.text_eq, htok, ← hlex, if_pos hw, lex_skip, List.dropWhile_cons_of_pos hw,
        List.takeWhile_cons_of_pos hw]
    | some x =>
      have hw : isWordChar c = false := by
        obtain ⟨rfl, -⟩ := symbolOf_char hx
        rw [isWordChar, char_mem_symbols, Bool.not_true, Bool.and_false]
      rw [if_neg (by rw [hw]; decide)] at hlex
      by_cases hgt : c = '>'.toUInt8 ∧ r.head? = some '>'.toUInt8
      · rw [if_pos hgt] at hlex
        obtain rfl : x = .gt := Option.some.inj (hx.symm.trans (hgt.1 ▸ symbolOf_gt))
        have htok : gettoken s = ⟨.sym .append, ⟨c :: r, r.tail⟩, skip r.tail⟩ := by
          simp only [gettoken, h, scan, hx, if_pos hgt.2]
        refine .sym .append (by rw [htok]) ?_ (by rw [h, hgt.1]; rfl)
        rw [htok, ← hlex, lex_skip]
      · rw [if_neg hgt, hx] at hlex
        have htok : gettoken s = ⟨.sym x, ⟨c :: r, r⟩, skip r⟩ := by
          cases x with
          | gt =>
            have hr : ¬ r.head? = some '>'.toUInt8 :=
              fun hr => hgt ⟨eq_of_symbolOf_gt hx, hr⟩
            simp only [gettoken, h, scan, hx, if_neg hr]
          | append => exact absurd rfl (symbolOf_char hx).2
          | _ => simp only [gettoken, h, scan, hx]
        refine .sym x (by rw [htok]) ?_ (by rw [h, (symbolOf_char hx).1]; rfl)
        rw [htok, ← hlex, lex_skip]
        rfl

/-- The cursor behind a token is in the line. -/
theorem gettoken_ps_suffix (s : List UInt8) : (gettoken s).ps <:+ s := by
  have hscan : ∀ q : List UInt8, (scan q).2 <:+ q := by
    intro q
    cases q with
    | nil => exact List.suffix_refl _
    | cons c r =>
      simp only [scan]
      split
      · split_ifs
        · exact (List.tail_suffix r).trans (List.suffix_cons c r)
        · exact List.suffix_cons c r
      · exact List.suffix_cons c r
      · exact List.dropWhile_suffix _
  exact (skip_suffix _).trans ((hscan _).trans (skip_suffix s))

/-- Whether the next token is a symbol that starts with one of `toks`. -/
def nextIs (toks : List Symbol) : List Lexeme → Bool
  | .sym x :: _ => (toks.map Symbol.char).contains x.char
  | _ => false

/-- **`peek` looks at the next token**: a word never starts with a character of `toks`. -/
theorem peek_eq (s : List UInt8) (toks : List Symbol) : peek s toks = nextIs toks (lex s) := by
  have hpeek : peek s toks = (skip s).head?.any (toks.map Symbol.char).contains := by
    unfold peek
    cases skip s <;> rfl
  rw [hpeek]
  cases scanned s with
  | eof h hlex hhead hps => rw [hlex, hhead]; rfl
  | sym x h hlex hhead => rw [hlex, hhead]; rfl
  | word h hlex hhead hin =>
    obtain ⟨c, hhead, hc⟩ := hhead
    rw [hlex, hhead]
    refine Bool.eq_false_iff.mpr fun hmem => ?_
    obtain ⟨x, -, rfl⟩ := List.mem_map.mp (List.contains_iff_mem.mp hmem)
    rw [char_mem_symbols] at hc
    cases hc

/-- `gettoken` on a line whose first token is a symbol. -/
theorem gettoken_sym {ts : List Lexeme} (h : lex s = .sym x :: ts) :
    (gettoken s).ret = .sym x ∧ lex (gettoken s).ps = ts := by
  cases scanned s with
  | eof h' hlex => cases hlex.symm.trans h
  | sym y h' hlex => cases hlex.symm.trans h; exact ⟨h', rfl⟩
  | word h' hlex => cases hlex.symm.trans h

/-- `gettoken` on a line whose first token is a word. -/
theorem gettoken_word {ts : List Lexeme} {w : List UInt8} (h : lex s = .word w :: ts) :
    (gettoken s).ret = .word ∧ (gettoken s).word.text = w ∧ lex (gettoken s).ps = ts := by
  cases scanned s with
  | eof h' hlex => cases hlex.symm.trans h
  | sym y h' hlex => cases hlex.symm.trans h
  | word h' hlex => cases hlex.symm.trans h; exact ⟨h', rfl, rfl⟩

/-- `gettoken` on a line without tokens. -/
theorem gettoken_eof (h : lex s = []) : (gettoken s).ret = .eof ∧ (gettoken s).ps = [] := by
  cases scanned s with
  | eof h' hlex hhead hps => exact ⟨h', hps⟩
  | sym y h' hlex => cases hlex.symm.trans h
  | word h' hlex => cases hlex.symm.trans h

/-- The next token is one of `toks`. -/
theorem of_nextIs {toks : List Symbol} {ts : List Lexeme} (h : nextIs toks ts = true) :
    ∃ x us, ts = .sym x :: us ∧ (toks.map Symbol.char).contains x.char = true := by
  match ts, h with
  | .sym x :: us, h => exact ⟨x, us, rfl, h⟩

/-- A symbol that `parseredirs` takes is that of a redirection. -/
theorem redirects_of_char (h : ([Symbol.lt, .gt].map Symbol.char).contains x.char = true) :
    ∃ mode fd, Redirects x mode fd := by
  cases x with
  | lt => exact ⟨_, _, .input⟩
  | gt => exact ⟨_, _, .output⟩
  | append => exact ⟨_, _, .append⟩
  | _ => exact absurd h (by decide)

/-- `parseredirs` takes the symbol of a redirection. -/
theorem nextIs_redirects {mode fd : ℕ} (hx : Redirects x mode fd) (ts : List Lexeme) :
    nextIs [.lt, .gt] (.sym x :: ts) = true := by
  cases hx <;> rfl

end Tokens

/-! ### Trees -/

section Trees

variable {W V : Type}

/-- **The `redircmd` that `parseredirs` makes** has the mode and the file descriptor of the
language. -/
theorem redirect_eq {x : Symbol} {mode fd : ℕ} (hx : Redirects x mode fd) (c : Cmd W) (w : W) :
    c.redirect x w = .redir c w mode fd := by
  cases hx <;> rfl

/-- Adding an argument and replacing the words of a tree commute. -/
theorem map_pushArg (f : W → V) (c : Cmd W) (w : W) :
    (c.pushArg w).map f = (c.map f).pushArg (f w) := by
  induction c with
  | exec argv => simp only [Cmd.pushArg, Cmd.map, List.map_append, List.map_cons, List.map_nil]
  | redir c file mode fd ih => simp only [Cmd.pushArg, Cmd.map, ih]
  | _ => rfl

/-- A redirection adds one word to the tree. -/
theorem mem_words_redirect {c : Cmd W} {x : Symbol} {w v : W} (h : v ∈ (c.redirect x w).words) :
    v ∈ c.words ∨ v = w := by
  cases x <;> simp only [Cmd.redirect, Cmd.words, List.mem_append, List.mem_singleton] at h <;>
    first | exact h | exact .inl h

/-- An argument adds one word to the tree. -/
theorem mem_words_pushArg {c : Cmd W} {w v : W} (h : v ∈ (c.pushArg w).words) :
    v ∈ c.words ∨ v = w := by
  induction c with
  | exec argv => simpa only [Cmd.pushArg, Cmd.words, List.mem_append, List.mem_singleton] using h
  | redir c file mode fd ih =>
    simp only [Cmd.pushArg, Cmd.words, List.mem_append, List.mem_singleton] at h ⊢
    obtain h | h := h
    · exact (ih h).imp_left .inl
    · exact .inl (.inr h)
  | _ => exact .inl h

/-- An argument that comes behind redirections goes to the command below them. -/
theorem pushArg_withRedirs (c : Tree) (rs : List Redir) (w : List UInt8) :
    (withRedirs c rs).pushArg w = withRedirs (c.pushArg w) rs := by
  induction rs generalizing c with
  | nil => rfl
  | cons r rs ih => exact ih (.redir c r.file r.mode r.fd)

/-- Redirections are added one after the other. -/
theorem withRedirs_append (c : Tree) (rs rs' : List Redir) :
    withRedirs c (rs ++ rs') = withRedirs (withRedirs c rs) rs' := List.foldl_append

end Trees

/-! ### Trees that the parser returns -/

/-- The tree with the texts of its words. -/
def text (c : Cmd Word) : Tree := c.map Word.text

/-- The cursor and the words of the tree are in the line `src`. -/
structure At (src : List UInt8) (c : Cmd Word) (s : List UInt8) : Prop where
  suffix : s <:+ src
  words : ∀ w ∈ c.words, w.In src

section Sound

variable {src s s' : List UInt8} {c c' : Cmd Word} {n : ℕ}

/-- The cursor moves to the next token. -/
theorem At.next (h : At src c s) : At src c (gettoken s).ps :=
  ⟨(gettoken_ps_suffix s).trans h.suffix, h.words⟩

/-- The cursor moves behind white space. -/
theorem At.skip (h : At src c s) : At src c (skip s) := ⟨(skip_suffix s).trans h.suffix, h.words⟩

/-- A word that `gettoken` finds is in the line. -/
theorem At.word_in (h : At src c s) (hret : (gettoken s).ret = .word) :
    (gettoken s).word.In src := by
  cases scanned s with
  | eof h' | sym y h' => cases hret.symm.trans h'
  | word h' hlex hhead hin => exact ⟨hin.suffix.trans h.suffix, hin.eq⟩

/-- A redirection to the word at the cursor. -/
theorem At.redirect (h : At src c s) (hret : (gettoken s).ret = .word) (x : Symbol) :
    At src (c.redirect x (gettoken s).word) (gettoken s).ps := by
  refine ⟨h.next.suffix, fun w hw => ?_⟩
  obtain hw | rfl := mem_words_redirect hw
  · exact h.words w hw
  · exact h.word_in hret

/-- The word at the cursor becomes an argument. -/
theorem At.pushArg (h : At src c s) (hret : (gettoken s).ret = .word) :
    At src (c.pushArg (gettoken s).word) (gettoken s).ps := by
  refine ⟨h.next.suffix, fun w hw => ?_⟩
  obtain hw | rfl := mem_words_pushArg hw
  · exact h.words w hw
  · exact h.word_in hret

/-- The first token if `gettoken` returns 'a'. -/
theorem lex_of_ret_word (hret : (gettoken s).ret = .word) :
    lex s = .word (gettoken s).word.text :: lex (gettoken s).ps := by
  cases scanned s with
  | eof h' | sym y h' => cases hret.symm.trans h'
  | word h' hlex => exact hlex

/-- **The loop of `parseredirs`** reads `redir*` and puts the redirections around the command. The
induction is on the fuel. -/
theorem parseredirs_sound (h : parseredirs n c s = .ok (c', s')) :
    (∀ src, At src c s → At src c' s') ∧ ∃ us rs, lex s = us ++ lex s' ∧ Redirs us rs ∧
      text c' = withRedirs (text c) rs := by
  induction n generalizing c s with
  | zero => cases h
  | succ n ih =>
    simp only [parseredirs, peek_eq, gettoken_skip] at h
    by_cases hnext : nextIs [.lt, .gt] (lex s) = true
    · obtain ⟨x, us, hlex, hx⟩ := of_nextIs hnext
      obtain ⟨hret, hps⟩ := gettoken_sym hlex
      rw [if_pos hnext] at h
      split_ifs at h with hword
      simp only [hret] at h
      obtain ⟨hat', us', rs, hlex', hrs, htext⟩ := ih h
      obtain ⟨mode, fd, hx⟩ := redirects_of_char hx
      refine ⟨fun src hat => hat' src (hat.next.redirect hword x),
        .sym x :: .word (gettoken (gettoken s).ps).word.text :: us',
        ⟨(gettoken (gettoken s).ps).word.text, mode, fd⟩ :: rs, ?_, .cons hx hrs, ?_⟩
      · rw [hlex, ← hps, lex_of_ret_word hword, hlex']
        rfl
      · rw [htext, text, redirect_eq hx]
        rfl
    · rw [if_neg hnext] at h
      cases h
      exact ⟨fun src hat => hat.skip, [], [], (lex_skip s).symm, .nil, rfl⟩

/-- **The loop of `parseexec`** reads `(word redir*)*`. The tree so far is a command with the
arguments `ws` inside the redirections `rs`, and stays one. -/
theorem parseargs_sound {argc : ℕ} {ws : List (List UInt8)} {rs : List Redir}
    (h : parseargs n c argc s = .ok (c', s')) (hc : text c = withRedirs (.exec ws) rs)
    (hargc : argc = ws.length) (hmax : argc < MAXARGS) :
    (∀ src, At src c s → At src c' s') ∧ ∃ us vs rs', lex s = us ++ lex s' ∧ Args us vs rs' ∧
      text c' = withRedirs (.exec (ws ++ vs)) (rs ++ rs') ∧ (ws ++ vs).length < MAXARGS := by
  induction n generalizing c s argc ws rs with
  | zero => cases h
  | succ n ih =>
    have hdone : ∀ t, lex s = lex t → ∃ us vs rs', lex s = us ++ lex t ∧ Args us vs rs' ∧
        text c = withRedirs (.exec (ws ++ vs)) (rs ++ rs') ∧ (ws ++ vs).length < MAXARGS :=
      fun t hlex => ⟨[], [], [], hlex, .nil, by rw [List.append_nil, List.append_nil, hc],
        by rw [List.append_nil]; omega⟩
    simp only [parseargs, peek_eq, gettoken_skip] at h
    by_cases hnext : nextIs [.bar, .rparen, .amp, .semi] (lex s) = true
    · rw [if_pos hnext] at h
      cases h
      exact ⟨fun src hat => hat.skip, hdone _ (lex_skip s).symm⟩
    · rw [if_neg hnext] at h
      cases hret : (gettoken s).ret with
      | eof =>
        simp only [hret] at h
        cases h
        refine ⟨fun src hat => hat.next, hdone _ ?_⟩
        cases scanned s with
        | eof h' hlex hhead hps => rw [hlex, hps, lex_nil]
        | sym y h' | word h' => cases hret.symm.trans h'
      | sym x =>
        simp only [hret] at h
        cases h
      | word =>
        simp only [hret] at h
        by_cases hmany : argc + 1 ≥ MAXARGS
        · rw [if_pos hmany] at h
          cases h
        rw [if_neg hmany] at h
        obtain ⟨⟨c₁, s₁⟩, h₁, h₂⟩ := Prog.bind_eq_ok.mp h
        obtain ⟨hat₁, us₁, rs₁, hlex₁, hrs₁, htext₁⟩ := parseredirs_sound h₁
        have hc₁ : text c₁ = withRedirs (.exec (ws ++ [(gettoken s).word.text])) (rs ++ rs₁) := by
          rw [htext₁, text, map_pushArg, ← text, hc, pushArg_withRedirs, withRedirs_append]
          rfl
        obtain ⟨hat₂, us₂, vs, rs₂, hlex₂, hargs, htext₂, hlen⟩ :=
          ih h₂ hc₁ (by rw [List.length_append, hargc]; rfl) (by omega)
        have hcons := Args.cons (w := (gettoken s).word.text) hrs₁ hargs
        refine ⟨fun src hat => hat₂ src (hat₁ src (hat.pushArg hret)), _, _, _, ?_, hcons, ?_, ?_⟩
        · rw [lex_of_ret_word hret, hlex₁, hlex₂, List.cons_append, List.append_assoc]
        · rw [htext₂, List.append_assoc, List.append_assoc]
          rfl
        · rw [List.append_assoc] at hlen
          exact hlen

/-- **The loop of `parseline`** reads ampersands. -/
theorem parseback_sound (h : parseback n c s = .ok (c', s')) :
    (∀ src, At src c s → At src c' s') ∧ ∃ k, lex s = List.replicate k (.sym .amp) ++ lex s' ∧
      text c' = Cmd.back^[k] (text c) := by
  induction n generalizing c s with
  | zero => cases h
  | succ n ih =>
    rw [parseback, peek_eq, gettoken_skip] at h
    split_ifs at h with hnext
    · obtain ⟨x, us, hlex, hx⟩ := of_nextIs hnext
      obtain rfl : x = .amp := by cases x <;> revert hx <;> decide
      obtain ⟨-, hps⟩ := gettoken_sym hlex
      obtain ⟨hat', k, hlex', htext⟩ := ih h
      refine ⟨fun src hat => hat' src ⟨hat.next.suffix, hat.words⟩, k + 1, ?_, ?_⟩
      · rw [hlex, ← hps, hlex']
        rfl
      · rw [htext, Function.iterate_succ_apply]
        rfl
    · cases h
      exact ⟨fun src hat => hat.skip, 0, (lex_skip s).symm, rfl⟩

/-- A parser whose trees have derivations from the tokens that it reads. -/
def SoundFor (nt : Nonterminal) (parse : List UInt8 → Parsed) : Prop :=
  ∀ ⦃s c s'⦄, parse s = .ok (c, s') → (∀ src, s <:+ src → At src c s') ∧
    ∃ us, lex s = us ++ lex s' ∧ Derives nt us (text c)

/-- A line: a pipe, the ampersands behind it, and another line behind a semicolon. -/
theorem parseline_sound (hline : SoundFor .line (parseline n))
    (hpipe : SoundFor .pipe (parsepipe n)) : SoundFor .line (parseline (n + 1)) := by
  intro s c s' h
  simp only [parseline, peek_eq, gettoken_skip] at h
  obtain ⟨⟨c₁, s₁⟩, h₁, h⟩ := Prog.bind_eq_ok.mp h
  obtain ⟨⟨c₂, s₂⟩, h₂, h⟩ := Prog.bind_eq_ok.mp h
  obtain ⟨hat₁, us₁, hlex₁, hder₁⟩ := hpipe h₁
  obtain ⟨hat₂, k, hlex₂, htext₂⟩ := parseback_sound h₂
  split_ifs at h with hnext
  · obtain ⟨⟨c₃, s₃⟩, h₃, h⟩ := Prog.bind_eq_ok.mp h
    cases h
    obtain ⟨x, us, hlex, hx⟩ := of_nextIs hnext
    obtain rfl : x = .semi := by cases x <;> revert hx <;> decide
    obtain ⟨-, hps⟩ := gettoken_sym hlex
    obtain ⟨hat₃, us₃, hlex₃, hder₃⟩ := hline h₃
    have hder := Derives.seq k hder₁ hder₃
    rw [← htext₂] at hder
    refine ⟨fun src hs => ?_, _, ?_, hder⟩
    · have hleft := hat₂ src (hat₁ src hs)
      have hright := hat₃ src hleft.next.suffix
      exact ⟨hright.suffix, fun w hw =>
        (List.mem_append.mp hw).elim (hleft.words w) (hright.words w)⟩
    · rw [hlex₁, hlex₂, hlex, ← hps, hlex₃]
      simp only [List.append_assoc, List.cons_append]
  · cases h
    have hder := Derives.last k hder₁
    rw [← htext₂] at hder
    refine ⟨fun src hs => (hat₂ src (hat₁ src hs)).skip, _, ?_, hder⟩
    rw [hlex₁, hlex₂, lex_skip, List.append_assoc]

/-- A pipe: a command, and another pipe behind a bar. -/
theorem parsepipe_sound (hpipe : SoundFor .pipe (parsepipe n))
    (hexec : SoundFor .exec (parseexec n)) : SoundFor .pipe (parsepipe (n + 1)) := by
  intro s c s' h
  simp only [parsepipe, peek_eq, gettoken_skip] at h
  obtain ⟨⟨c₁, s₁⟩, h₁, h⟩ := Prog.bind_eq_ok.mp h
  obtain ⟨hat₁, us₁, hlex₁, hder₁⟩ := hexec h₁
  split_ifs at h with hnext
  · obtain ⟨⟨c₂, s₂⟩, h₂, h⟩ := Prog.bind_eq_ok.mp h
    cases h
    obtain ⟨x, us, hlex, hx⟩ := of_nextIs hnext
    obtain rfl : x = .bar := by cases x <;> revert hx <;> decide
    obtain ⟨-, hps⟩ := gettoken_sym hlex
    obtain ⟨hat₂, us₂, hlex₂, hder₂⟩ := hpipe h₂
    refine ⟨fun src hs => ?_, _, ?_, Derives.piped hder₁ hder₂⟩
    · have hleft := hat₁ src hs
      have hright := hat₂ src hleft.next.suffix
      exact ⟨hright.suffix, fun w hw =>
        (List.mem_append.mp hw).elim (hleft.words w) (hright.words w)⟩
    · rw [hlex₁, hlex, ← hps, hlex₂, List.append_assoc]
      rfl
  · cases h
    exact ⟨fun src hs => (hat₁ src hs).skip, us₁, by rw [hlex₁, lex_skip], .single hder₁⟩

/-- A block: a line between parentheses, and redirections. -/
theorem parseblock_sound (hline : SoundFor .line (parseline n)) :
    SoundFor .exec (parseblock (n + 1)) := by
  intro s c s' h
  simp only [parseblock, peek_eq, gettoken_skip] at h
  split_ifs at h with hleft
  obtain ⟨⟨c₁, s₁⟩, h₁, h⟩ := Prog.bind_eq_ok.mp h
  split_ifs at h with hright
  obtain ⟨x, us, hlex, hx⟩ := of_nextIs hleft
  obtain rfl : x = .lparen := by cases x <;> revert hx <;> decide
  obtain ⟨-, hps⟩ := gettoken_sym hlex
  obtain ⟨hat₁, us₁, hlex₁, hder₁⟩ := hline h₁
  obtain ⟨y, us', hlex', hy⟩ := of_nextIs hright
  obtain rfl : y = .rparen := by cases y <;> revert hy <;> decide
  obtain ⟨-, hps'⟩ := gettoken_sym hlex'
  obtain ⟨hat₂, us₂, rs, hlex₂, hrs, htext⟩ := parseredirs_sound h
  refine ⟨fun src hs => hat₂ src (hat₁ src ((gettoken_ps_suffix s).trans hs)).next, _, ?_,
    htext ▸ Derives.block hder₁ hrs⟩
  rw [hlex, ← hps, hlex₁, hlex', ← hps', hlex₂]
  simp only [List.append_assoc, List.cons_append]

/-- A command: a block, or redirections and words. -/
theorem parseexec_sound (hblock : SoundFor .exec (parseblock n)) :
    SoundFor .exec (parseexec (n + 1)) := by
  intro s c s' h
  rw [parseexec] at h
  split_ifs at h with hleft
  · obtain ⟨hat, us, hlex, hder⟩ := hblock h
    exact ⟨fun src hs => hat src ((skip_suffix s).trans hs), us, by rw [← hlex, lex_skip], hder⟩
  · obtain ⟨⟨c₁, s₁⟩, h₁, h₂⟩ := Prog.bind_eq_ok.mp h
    obtain ⟨hat₁, us₁, rs₁, hlex₁, hrs₁, htext₁⟩ := parseredirs_sound h₁
    obtain ⟨hat₂, us₂, ws, rs₂, hlex₂, hargs, htext₂, hlen⟩ :=
      parseargs_sound h₂ htext₁ rfl (by decide)
    have hder := Derives.simple hrs₁ hargs (Nat.le_sub_one_of_lt hlen)
    refine ⟨fun src hs => hat₂ src (hat₁ src ⟨(skip_suffix s).trans hs, nofun⟩), _, ?_,
      htext₂ ▸ hder⟩
    rw [← lex_skip, hlex₁, hlex₂, List.append_assoc]

/-- **A tree has a derivation.** -/
theorem parse_sound (n : ℕ) : SoundFor .line (parseline n) ∧ SoundFor .pipe (parsepipe n) ∧
    SoundFor .exec (parseexec n) ∧ SoundFor .exec (parseblock n) := by
  induction n with
  | zero =>
    refine ⟨?_, ?_, ?_, ?_⟩ <;> intro s c s' h <;> cases h
  | succ n ih =>
    obtain ⟨hline, hpipe, hexec, hblock⟩ := ih
    exact ⟨parseline_sound hline hpipe, parsepipe_sound hpipe hexec, parseexec_sound hblock,
      parseblock_sound hline⟩

end Sound

end Xv6.Shell
