import Xv6.ShellGrammar

/-!
# What the Shell Accepts

The parser looks one token ahead, so a derivation tells it which way to go as long as the token
behind the derived part is one that can follow there (`Follows`). With the converse, that a tree has
a derivation, the parser accepts exactly the grammar. The words of the tree are strings only once
`nulterminate` has written a NUL behind each of them; none of the NULs falls into another word.

## Main results

* `parse_complete`: what has a derivation is parsed, into the tree of the derivation.
* `parse_ends`: fuel that grows with the number of tokens is enough.
* `stringAt_nulterminate`: the pointers of the tree are strings with the texts of the words.
* `parsecmd_accepts_grammar`: **`parsecmd` accepts exactly the grammar.**
* `nulterminate_exact`: **after `nulterminate` all strings of the tree are the texts of its words.**
-/

namespace Xv6.Shell

/-! ### Derivations that the parser follows -/

/-- The symbols that can follow a command. -/
def Nonterminal.follow : Nonterminal → List Symbol
  | .line => [.rparen]
  | .pipe => [.rparen, .amp, .semi]
  | .exec => [.rparen, .amp, .semi, .bar]

/-- The line ends here, or goes on with a symbol that can follow. -/
def Follows (nt : Nonterminal) (ts : List Lexeme) : Prop :=
  ∀ l ∈ ts.head?, ∃ x ∈ nt.follow, l = .sym x

/-- The function that parses a nonterminal. -/
def Nonterminal.parse : Nonterminal → ℕ → List UInt8 → Parsed
  | .line => parseline
  | .pipe => parsepipe
  | .exec => parseexec

/-- Fuel that is enough for a number of tokens. -/
def Nonterminal.fuel : Nonterminal → ℕ → ℕ
  | .line, len => 4 * len + 4
  | .pipe, len => 4 * len + 3
  | .exec, len => 4 * len + 2

section Complete

variable {nt : Nonterminal} {s : List UInt8} {c : Cmd Word} {n : ℕ} {ts rest : List Lexeme}
  {toks : List Symbol}

theorem Follows.nil (nt : Nonterminal) : Follows nt [] := nofun

theorem Follows.cons {x : Symbol} (hx : x ∈ nt.follow) (ts : List Lexeme) :
    Follows nt (.sym x :: ts) := by
  rintro l ⟨⟩
  exact ⟨x, hx, rfl⟩

/-- A larger set of tokens that may follow. -/
theorem Follows.mono {nt' : Nonterminal} (h : Follows nt ts) (hsub : nt.follow ⊆ nt'.follow) :
    Follows nt' ts := by
  intro l hl
  obtain ⟨x, hx, rfl⟩ := h l hl
  exact ⟨x, hsub hx, rfl⟩

/-- The next token is not one that cannot follow. -/
theorem Follows.nextIs_eq_false (h : Follows nt ts)
    (hdisj : ∀ x ∈ nt.follow, (toks.map Symbol.char).contains x.char = false) :
    nextIs toks ts = false := by
  match ts, h with
  | [], _ => rfl
  | .word w :: ts, _ => rfl
  | .sym x :: ts, h =>
    obtain ⟨y, hy, ⟨⟩⟩ := h (.sym x) rfl
    exact hdisj x hy

/-- The next token is a word or one that can follow a command. -/
theorem Args.nextIs_eq_false {ws : List (List UInt8)} {rs : List Redir} (hargs : Args ts ws rs)
    (h : Follows .exec rest)
    (hdisj : ∀ x ∈ Nonterminal.follow .exec, (toks.map Symbol.char).contains x.char = false) :
    nextIs toks (ts ++ rest) = false := by
  cases hargs with
  | nil => exact h.nextIs_eq_false hdisj
  | cons hrs hargs => rfl

/-- `parseredirs` reads a list of redirections to its end. -/
theorem parseredirs_complete {rs : List Redir} (h : Redirs ts rs) (hlex : lex s = ts ++ rest)
    (hrest : nextIs [.lt, .gt] rest = false) (hn : ts.length + 1 ≤ n) :
    ∃ c' s', parseredirs n c s = .ok (c', s') ∧ lex s' = rest ∧
      text c' = withRedirs (text c) rs := by
  induction h generalizing n c s with
  | nil =>
    obtain ⟨n, rfl⟩ : ∃ m, n = m + 1 := ⟨n - 1, by omega⟩
    refine ⟨c, skip s, ?_, by rw [lex_skip, hlex]; rfl, rfl⟩
    simp only [parseredirs, peek_eq]
    rw [hlex, List.nil_append, hrest]
    rfl
  | @cons x mode fd w ts rs hx h ih =>
    obtain ⟨n, rfl⟩ : ∃ m, n = m + 1 := ⟨n - 1, by omega⟩
    obtain ⟨hret, hps⟩ := gettoken_sym hlex
    obtain ⟨hret', hword, hps'⟩ := gettoken_word hps
    obtain ⟨c', s', hparse, hlex', htext⟩ :=
      ih (n := n) (c := c.redirect x (gettoken (gettoken s).ps).word) hps'
        (by simp only [List.length_cons] at hn; omega)
    refine ⟨c', s', ?_, hlex', ?_⟩
    · simp only [parseredirs, peek_eq, gettoken_skip, hret, hret', if_true]
      rw [hlex, List.cons_append, nextIs_redirects hx, if_pos rfl, hparse]
    · rw [htext, text, redirect_eq hx, Cmd.map, hword]
      rfl

/-- The loop of `parseexec` reads the words and redirections of a command to their end. -/
theorem parseargs_complete {ws vs : List (List UInt8)} {rs rs' : List Redir} {argc : ℕ}
    (h : Args ts vs rs') (hlex : lex s = ts ++ rest) (hrest : Follows .exec rest)
    (hn : ts.length + 1 ≤ n) (hc : text c = withRedirs (.exec ws) rs)
    (hargc : argc + vs.length < MAXARGS) :
    ∃ c' s', parseargs n c argc s = .ok (c', s') ∧ lex s' = rest ∧
      text c' = withRedirs (.exec (ws ++ vs)) (rs ++ rs') := by
  induction h generalizing n c s argc ws rs with
  | nil =>
    obtain ⟨n, rfl⟩ : ∃ m, n = m + 1 := ⟨n - 1, by omega⟩
    rw [List.nil_append] at hlex
    rw [List.append_nil, List.append_nil]
    simp only [parseargs, peek_eq, gettoken_skip]
    cases hnext : nextIs [.bar, .rparen, .amp, .semi] (lex s) with
    | true => exact ⟨c, skip s, rfl, by rw [lex_skip, hlex], hc⟩
    | false =>
      -- no symbol can follow but these, so the line ends
      have hnil : rest = [] := by
        cases rest with
        | nil => rfl
        | cons l rest =>
          obtain ⟨x, hx, rfl⟩ := hrest l rfl
          rw [hlex] at hnext
          cases x <;> first | exact absurd hx (by decide) | cases hnext
      obtain ⟨hret, hps⟩ := gettoken_eof (hlex.trans hnil)
      refine ⟨c, (gettoken s).ps, ?_, by rw [hps, hnil, lex_nil], hc⟩
      rw [hret]
      rfl
  | @cons w us vs ws' rs₁ rs₂ hrs hargs ih =>
    obtain ⟨n, rfl⟩ : ∃ m, n = m + 1 := ⟨n - 1, by omega⟩
    simp only [List.length_cons, List.length_append] at hn hargc
    rw [List.cons_append, List.append_assoc] at hlex
    obtain ⟨hret, hword, hps⟩ := gettoken_word hlex
    obtain ⟨c₁, s₁, hparse₁, hlex₁, htext₁⟩ :=
      parseredirs_complete (c := c.pushArg (gettoken s).word) (n := n) hrs hps
        (hargs.nextIs_eq_false hrest (by decide)) (by omega)
    have hc₁ : text c₁ = withRedirs (.exec (ws ++ [w])) (rs ++ rs₁) := by
      rw [htext₁, text, map_pushArg, ← text, hc, hword, pushArg_withRedirs, withRedirs_append]
      rfl
    have hargc' : argc + 1 + ws'.length < MAXARGS := by omega
    obtain ⟨c₂, s₂, hparse₂, hlex₂, htext₂⟩ := ih (n := n) hlex₁ (by omega) hc₁ hargc'
    refine ⟨c₂, s₂, ?_, hlex₂, ?_⟩
    · simp only [parseargs, peek_eq, gettoken_skip, hret]
      rw [hlex, if_neg (show ¬ nextIs _ (.word w :: _) = true from Bool.false_ne_true),
        if_neg (by omega), hparse₁]
      exact hparse₂
    · rw [htext₂, List.append_assoc, List.append_assoc]
      rfl

/-- The loop of `parseline` reads all `&`. -/
theorem parseback_complete {k : ℕ} (hlex : lex s = List.replicate k (.sym .amp) ++ rest)
    (hrest : nextIs [.amp] rest = false) (hn : k + 1 ≤ n) :
    ∃ c' s', parseback n c s = .ok (c', s') ∧ lex s' = rest ∧ text c' = Cmd.back^[k] (text c) := by
  induction k generalizing n c s with
  | zero =>
    obtain ⟨n, rfl⟩ : ∃ m, n = m + 1 := ⟨n - 1, by omega⟩
    rw [List.replicate_zero, List.nil_append] at hlex
    refine ⟨c, skip s, ?_, by rw [lex_skip, hlex], rfl⟩
    simp only [parseback, peek_eq]
    rw [hlex, hrest]
    rfl
  | succ k ih =>
    obtain ⟨n, rfl⟩ : ∃ m, n = m + 1 := ⟨n - 1, by omega⟩
    rw [List.replicate_succ] at hlex
    obtain ⟨-, hps⟩ := gettoken_sym hlex
    obtain ⟨c', s', hparse, hlex', htext⟩ := ih (n := n) (c := .back c) hps (by omega)
    refine ⟨c', s', ?_, hlex', ?_⟩
    · simp only [parseback, peek_eq, gettoken_skip]
      rw [hlex, List.cons_append, if_pos (show nextIs [.amp] (.sym .amp :: _) = true from rfl),
        hparse]
    · rw [htext, Function.iterate_succ_apply]
      rfl

/-- **What has a derivation is parsed**, into the tree of the derivation. -/
theorem parse_complete {t : Tree} (h : Derives nt ts t) (hlex : lex s = ts ++ rest)
    (hrest : Follows nt rest) (hn : nt.fuel ts.length ≤ n) :
    ∃ c s', nt.parse n s = .ok (c, s') ∧ lex s' = rest ∧ text c = t := by
  induction h generalizing n s rest with
  | @last ts c k h ih =>
    simp only [Nonterminal.fuel, List.length_append, List.length_replicate] at hn ih
    obtain ⟨n, rfl⟩ : ∃ m, n = m + 1 := ⟨n - 1, by omega⟩
    rw [List.append_assoc] at hlex
    have hamp : Follows .pipe (List.replicate k (.sym .amp) ++ rest) := by
      cases k with
      | zero => exact hrest.mono (by decide)
      | succ k => exact .cons (by decide) _
    obtain ⟨c₁, s₁, hparse₁, hlex₁, htext₁⟩ := ih (n := n) hlex hamp (by omega)
    obtain ⟨c₂, s₂, hparse₂, hlex₂, htext₂⟩ := parseback_complete (c := c₁) (n := n) hlex₁
      (hrest.nextIs_eq_false (by decide)) (by omega)
    have hsemi : nextIs [.semi] rest = false := hrest.nextIs_eq_false (by decide)
    refine ⟨c₂, skip s₂, ?_, by rw [lex_skip, hlex₂], by rw [htext₂, htext₁]⟩
    simp only [Nonterminal.parse] at hparse₁ ⊢
    simp only [parseline, hparse₁, Prog.ok_bind, hparse₂, peek_eq, hlex₂, hsemi,
      Bool.false_eq_true, if_false]
  | @seq ts us c d k h h' ih ih' =>
    simp only [Nonterminal.fuel, List.length_append, List.length_replicate,
      List.length_cons] at hn ih ih'
    obtain ⟨n, rfl⟩ : ∃ m, n = m + 1 := ⟨n - 1, by omega⟩
    rw [List.append_assoc, List.append_assoc, List.cons_append] at hlex
    have hamp : Follows .pipe (List.replicate k (.sym .amp) ++ .sym .semi :: (us ++ rest)) := by
      cases k with
      | zero | succ k => exact .cons (by decide) _
    obtain ⟨c₁, s₁, hparse₁, hlex₁, htext₁⟩ := ih (n := n) hlex hamp (by omega)
    obtain ⟨c₂, s₂, hparse₂, hlex₂, htext₂⟩ :=
      parseback_complete (c := c₁) (n := n) hlex₁ rfl (by omega)
    obtain ⟨-, hps⟩ := gettoken_sym hlex₂
    obtain ⟨c₃, s₃, hparse₃, hlex₃, htext₃⟩ := ih' (n := n) hps hrest (by omega)
    refine ⟨.list c₂ c₃, s₃, ?_, hlex₃, ?_⟩
    · simp only [Nonterminal.parse] at hparse₁ hparse₃ ⊢
      simp only [parseline, hparse₁, Prog.ok_bind, hparse₂, peek_eq, hlex₂, gettoken_skip,
        hparse₃, show nextIs [.semi] (.sym .semi :: (us ++ rest)) = true from rfl, if_true]
    · rw [← htext₁, ← htext₃, ← htext₂]
      rfl
  | @single ts c h ih =>
    simp only [Nonterminal.fuel] at hn ih
    obtain ⟨n, rfl⟩ : ∃ m, n = m + 1 := ⟨n - 1, by omega⟩
    obtain ⟨c₁, s₁, hparse₁, hlex₁, htext₁⟩ :=
      ih (n := n) hlex (hrest.mono (by decide)) (by omega)
    have hbar : nextIs [.bar] rest = false := hrest.nextIs_eq_false (by decide)
    refine ⟨c₁, skip s₁, ?_, by rw [lex_skip, hlex₁], htext₁⟩
    simp only [Nonterminal.parse] at hparse₁ ⊢
    simp only [parsepipe, hparse₁, Prog.ok_bind, peek_eq, hlex₁, hbar, Bool.false_eq_true,
      if_false]
  | @piped ts us c d h h' ih ih' =>
    simp only [Nonterminal.fuel, List.length_append, List.length_cons] at hn ih ih'
    obtain ⟨n, rfl⟩ : ∃ m, n = m + 1 := ⟨n - 1, by omega⟩
    rw [List.append_assoc, List.cons_append] at hlex
    obtain ⟨c₁, s₁, hparse₁, hlex₁, htext₁⟩ := ih (n := n) hlex (.cons (by decide) _) (by omega)
    obtain ⟨-, hps⟩ := gettoken_sym hlex₁
    obtain ⟨c₂, s₂, hparse₂, hlex₂, htext₂⟩ := ih' (n := n) hps hrest (by omega)
    refine ⟨.pipe c₁ c₂, s₂, ?_, hlex₂, ?_⟩
    · simp only [Nonterminal.parse] at hparse₁ hparse₂ ⊢
      simp only [parsepipe, hparse₁, Prog.ok_bind, peek_eq, hlex₁, gettoken_skip, hparse₂,
        show nextIs [.bar] (.sym .bar :: (us ++ rest)) = true from rfl, if_true]
    · rw [← htext₁, ← htext₂]
      rfl
  | @block ts us c rs h h' ih =>
    simp only [Nonterminal.fuel, List.length_append, List.length_cons] at hn ih
    obtain ⟨n, rfl⟩ : ∃ m, n = m + 2 := ⟨n - 2, by omega⟩
    rw [List.cons_append, List.append_assoc, List.cons_append] at hlex
    obtain ⟨-, hps⟩ := gettoken_sym hlex
    obtain ⟨c₁, s₁, hparse₁, hlex₁, htext₁⟩ := ih (n := n) hps (.cons (by decide) _) (by omega)
    obtain ⟨-, hps₁⟩ := gettoken_sym hlex₁
    obtain ⟨c₂, s₂, hparse₂, hlex₂, htext₂⟩ := parseredirs_complete (c := c₁) (n := n) h' hps₁
      (hrest.nextIs_eq_false (by decide)) (by omega)
    refine ⟨c₂, s₂, ?_, hlex₂, by rw [htext₂, htext₁]⟩
    have hleft : ∀ vs, nextIs [.lparen] (.sym .lparen :: vs) = true := fun _ => rfl
    have hright : ∀ vs, nextIs [.rparen] (.sym .rparen :: vs) = true := fun _ => rfl
    simp only [Nonterminal.parse] at hparse₁ ⊢
    simp only [parseexec, parseblock, peek_eq, lex_skip, hlex, hleft, if_true, gettoken_skip,
      hparse₁, Prog.ok_bind, hlex₁, hright, hparse₂]
  | @simple ts us ws rs rs' h h' hlen =>
    simp only [Nonterminal.fuel, List.length_append] at hn
    obtain ⟨n, rfl⟩ : ∃ m, n = m + 1 := ⟨n - 1, by omega⟩
    rw [List.append_assoc] at hlex
    -- a block does not start here
    have hleft : nextIs [.lparen] (lex s) = false := by
      rw [hlex]
      cases h with
      | nil => exact h'.nextIs_eq_false hrest (by decide)
      | cons hx _ => cases hx <;> rfl
    obtain ⟨c₁, s₁, hparse₁, hlex₁, htext₁⟩ :=
      parseredirs_complete (c := .exec []) (n := n) h ((lex_skip s).trans hlex)
        (h'.nextIs_eq_false hrest (by decide)) (by omega)
    have hargc : 0 + ws.length < MAXARGS := by
      simp only [MAXARGS] at hlen ⊢
      omega
    obtain ⟨c₂, s₂, hparse₂, hlex₂, htext₂⟩ :=
      parseargs_complete (n := n) h' hlex₁ hrest (by omega) htext₁ hargc
    refine ⟨c₂, s₂, ?_, hlex₂, htext₂⟩
    simp only [Nonterminal.parse, parseexec, peek_eq, hleft, Bool.false_eq_true, if_false, hparse₁,
      Prog.ok_bind, hparse₂]

end Complete

/-! ### Termination -/

section Ends

variable {s : List UInt8} {c : Cmd Word} {n : ℕ}

/-- What fails has failed in one of the parts. -/
theorem bind_eq_error {α β ε : Type} {x : Except ε α} {f : α → Except ε β} {e : ε} :
    x.bind f = .error e ↔ x = .error e ∨ ∃ a, x = .ok a ∧ f a = .error e := by
  cases x with
  | ok a => simp [Except.bind]
  | error e' => simp [Except.bind]

/-- A token is read in every round of `parseredirs`. -/
theorem parseredirs_ends (hn : (lex s).length + 1 ≤ n) : parseredirs n c s ≠ .error .fuel := by
  induction n generalizing c s with
  | zero => omega
  | succ n ih =>
    simp only [parseredirs, peek_eq, gettoken_skip]
    intro h
    split_ifs at h with hnext hword
    · obtain ⟨x, us, hlex, -⟩ := of_nextIs hnext
      obtain ⟨hret, hps⟩ := gettoken_sym hlex
      rw [lex_of_ret_word hword] at hps
      have hlen := congrArg List.length hlex
      rw [← hps, List.length_cons, List.length_cons] at hlen
      simp only [hret] at h
      exact ih (by omega) h
    · cases h

/-- A token is read in every round of the loop over `&`. -/
theorem parseback_ends (hn : (lex s).length + 1 ≤ n) : parseback n c s ≠ .error .fuel := by
  induction n generalizing c s with
  | zero => omega
  | succ n ih =>
    simp only [parseback, peek_eq, gettoken_skip]
    intro h
    split_ifs at h with hnext
    obtain ⟨x, us, hlex, -⟩ := of_nextIs hnext
    obtain ⟨-, hps⟩ := gettoken_sym hlex
    have hlen := congrArg List.length hlex
    rw [← hps, List.length_cons] at hlen
    exact ih (by omega) h

/-- A token is read in every round of the loop of `parseexec`. -/
theorem parseargs_ends {argc : ℕ} (hn : (lex s).length + 1 ≤ n) :
    parseargs n c argc s ≠ .error .fuel := by
  induction n generalizing c s argc with
  | zero => omega
  | succ n ih =>
    simp only [parseargs, peek_eq, gettoken_skip]
    intro h
    by_cases hnext : nextIs [.bar, .rparen, .amp, .semi] (lex s) = true
    · rw [if_pos hnext] at h
      cases h
    rw [if_neg hnext] at h
    cases hret : (gettoken s).ret with
    | eof | sym x =>
      rw [hret] at h
      cases h
    | word =>
      have hlen := congrArg List.length (lex_of_ret_word hret)
      rw [List.length_cons] at hlen
      simp only [hret] at h
      split_ifs at h with hmany
      · cases h
      obtain h | ⟨⟨c₁, s₁⟩, h₁, h₂⟩ := bind_eq_error.mp h
      · exact parseredirs_ends (by omega) h
      · obtain ⟨-, us, rs, hlex, -⟩ := parseredirs_sound h₁
        have hlen₁ := congrArg List.length hlex
        rw [List.length_append] at hlen₁
        dsimp only at h₂
        exact ih (by omega) h₂

/-- The number of tokens behind a command. -/
theorem SoundFor.length_le {nt : Nonterminal} {parse : List UInt8 → Parsed} {s' : List UInt8}
    (h : SoundFor nt parse) (hparse : parse s = .ok (c, s')) :
    (lex s').length ≤ (lex s).length := by
  obtain ⟨-, us, hlex, -⟩ := h hparse
  rw [hlex, List.length_append]
  omega

theorem length_gettoken_sym {x : Symbol} {us : List Lexeme} (h : lex s = .sym x :: us) :
    (lex (gettoken s).ps).length + 1 = (lex s).length := by
  rw [(gettoken_sym h).2, h, List.length_cons]

/-- **The parser ends.** -/
theorem parse_ends (n : ℕ) : ∀ s,
    (4 * (lex s).length + 4 ≤ n → parseline n s ≠ .error .fuel) ∧
    (4 * (lex s).length + 3 ≤ n → parsepipe n s ≠ .error .fuel) ∧
    (4 * (lex s).length + 2 ≤ n → parseexec n s ≠ .error .fuel) ∧
    (4 * (lex s).length + 1 ≤ n → parseblock n s ≠ .error .fuel) := by
  induction n with
  | zero => exact fun s => ⟨by omega, by omega, by omega, by omega⟩
  | succ n ih =>
    obtain ⟨hline, hpipe, hexec, hblock⟩ := parse_sound n
    intro s
    refine ⟨fun hn h => ?_, fun hn h => ?_, fun hn h => ?_, fun hn h => ?_⟩
    · simp only [parseline, peek_eq, gettoken_skip] at h
      obtain h | ⟨⟨c₁, s₁⟩, h₁, h⟩ := bind_eq_error.mp h
      · exact (ih s).2.1 (by omega) h
      have hlen₁ := hpipe.length_le h₁
      dsimp only at h
      obtain h | ⟨⟨c₂, s₂⟩, h₂, h⟩ := bind_eq_error.mp h
      · exact parseback_ends (by omega) h
      obtain ⟨-, k, hlex₂, -⟩ := parseback_sound h₂
      have hlen₂ := congrArg List.length hlex₂
      rw [List.length_append] at hlen₂
      dsimp only at h
      split_ifs at h with hnext
      obtain ⟨x, us, hlex, -⟩ := of_nextIs hnext
      have hlen := length_gettoken_sym hlex
      obtain h | ⟨⟨c₃, s₃⟩, h₃, h⟩ := bind_eq_error.mp h
      · exact (ih _).1 (by omega) h
      · cases h
    · simp only [parsepipe, peek_eq, gettoken_skip] at h
      obtain h | ⟨⟨c₁, s₁⟩, h₁, h⟩ := bind_eq_error.mp h
      · exact (ih s).2.2.1 (by omega) h
      have hlen₁ := hexec.length_le h₁
      dsimp only at h
      split_ifs at h with hnext
      obtain ⟨x, us, hlex, -⟩ := of_nextIs hnext
      have hlen := length_gettoken_sym hlex
      obtain h | ⟨⟨c₂, s₂⟩, h₂, h⟩ := bind_eq_error.mp h
      · exact (ih _).2.1 (by omega) h
      · cases h
    · rw [parseexec] at h
      split_ifs at h with hnext
      · exact (ih (skip s)).2.2.2 (by rw [lex_skip]; omega) h
      obtain h | ⟨⟨c₁, s₁⟩, h₁, h⟩ := bind_eq_error.mp h
      · exact parseredirs_ends (by rw [lex_skip]; omega) h
      · obtain ⟨-, us, rs, hlex, -⟩ := parseredirs_sound h₁
        have hlen := congrArg List.length hlex
        rw [lex_skip, List.length_append] at hlen
        dsimp only at h
        exact parseargs_ends (by omega) h
    · simp only [parseblock, peek_eq, gettoken_skip] at h
      split_ifs at h with hleft
      · obtain ⟨x, us, hlex, -⟩ := of_nextIs hleft
        have hlen := length_gettoken_sym hlex
        obtain h | ⟨⟨c₁, s₁⟩, h₁, h⟩ := bind_eq_error.mp h
        · exact (ih _).1 (by omega) h
        have hlen₁ := hline.length_le h₁
        dsimp only at h
        split_ifs at h with hright
        · obtain ⟨y, us', hlex', -⟩ := of_nextIs hright
          have hlen' := length_gettoken_sym hlex'
          exact parseredirs_ends (by omega) h
        · cases h
      · cases h

end Ends

/-! ### The strings -/

section Strings

variable {s : List UInt8} {w : Word} {c : Cmd Word}

/-- The NULs are written one word after the other. -/
theorem nulterminate_eq (len : ℕ) (c : Cmd Word) (buf : List UInt8) :
    nulterminate len c buf = c.words.foldl (fun buf w => putNul len w.eq buf) buf := by
  induction c generalizing buf with
  | exec argv => rfl
  | redir c file mode fd ih => rw [nulterminate, Cmd.words, List.foldl_append, ih]; rfl
  | pipe l r ihl ihr | list l r ihl ihr => rw [nulterminate, Cmd.words, List.foldl_append, ihl, ihr]
  | back c ih => rw [nulterminate, Cmd.words, ih]

/-- The characters of the line after the NULs have been written. -/
theorem getElem?_putNuls (len : ℕ) (ws : List Word) (buf : List UInt8) (i : ℕ)
    (hi : i < buf.length) : (ws.foldl (fun buf w => putNul len w.eq buf) buf)[i]? =
      if ∃ w ∈ ws, len - w.eq.length = i then some 0 else buf[i]? := by
  induction ws generalizing buf with
  | nil => rw [if_neg (by simp)]; rfl
  | cons w ws ih =>
    rw [List.foldl_cons, ih _ (by rw [putNul, List.length_set]; exact hi)]
    by_cases hw : ∃ v ∈ ws, len - v.eq.length = i
    · rw [if_pos hw, if_pos (by obtain ⟨v, hv, h⟩ := hw; exact ⟨v, .tail _ hv, h⟩)]
    · rw [if_neg hw, putNul, List.getElem?_set]
      by_cases hi' : len - w.eq.length = i
      · rw [if_pos hi', if_pos (hi' ▸ hi), if_pos ⟨w, .head _, hi'⟩]
      · rw [if_neg hi', if_neg]
        rintro ⟨v, hv, h⟩
        cases hv with
        | head => exact hi' h
        | tail _ hv => exact hw ⟨v, hv, h⟩

/-- A word in the line, with what is before and behind it. -/
theorem Word.In.split (h : w.In s) : ∃ pre, s = pre ++ (w.text ++ w.eq) ∧ w.q = w.text ++ w.eq := by
  obtain ⟨pre, hpre⟩ := h.suffix
  have hq : w.q = w.text ++ w.eq := by
    rw [h.text_eq, h.eq, List.takeWhile_append_dropWhile]
  exact ⟨pre, by rw [← hq, hpre], hq⟩

/-- No NUL is written into a word: words end where a character is that is in no word. -/
theorem Word.In.end_ne {v : Word} (h : w.In s) (hv : v.In s) {i : ℕ} (hi : i < w.text.length) :
    s.length - v.eq.length ≠ s.length - w.q.length + i := by
  obtain ⟨pre, hs, hq⟩ := h.split
  obtain ⟨pre', hs', -⟩ := hv.split
  intro heq
  have hword : isWordChar (w.text.get ⟨i, hi⟩) = true := by
    have hall := List.all_takeWhile (p := isWordChar) (l := w.q)
    rw [← h.text_eq] at hall
    exact List.all_eq_true.mp hall _ (List.get_mem ..)
  have hlen : s.length = pre.length + (w.text.length + w.eq.length) := by
    rw [hs, List.length_append, List.length_append]
  have hlen' : s.length = pre'.length + (v.text.length + v.eq.length) := by
    rw [hs', List.length_append, List.length_append]
  have hqlen : w.q.length = w.text.length + w.eq.length := by rw [hq, List.length_append]
  -- the character at this place, read in both ways
  have hat : s[pre.length + i]? = some (w.text.get ⟨i, hi⟩) := by
    rw [hs, List.getElem?_append_right (by omega), Nat.add_sub_cancel_left,
      List.getElem?_append_left hi, List.getElem?_eq_getElem hi]
    rfl
  have hat' : s[pre.length + i]? = v.eq[0]? := by
    have hplace : pre.length + i = (pre' ++ v.text).length + 0 := by
      rw [List.length_append]
      omega
    conv_lhs => rw [hs', ← List.append_assoc, hplace]
    rw [List.getElem?_append_right (by omega), Nat.add_sub_cancel_left]
  have hhead : v.eq.head? = some (w.text.get ⟨i, hi⟩) := by
    rw [List.head?_eq_getElem?, ← hat', hat]
  have hnot := List.head?_dropWhile_not isWordChar v.q
  rw [← hv.eq, hhead] at hnot
  cases hword.symm.trans hnot

/-- **The pointers of the tree are strings with the texts of the words.** -/
theorem stringAt_nulterminate (hs : 0 ∉ s) (hc : ∀ w ∈ c.words, w.In s) (hw : w ∈ c.words) :
    stringAt s.length (nulterminate s.length c (s ++ [0])) w.q = w.text := by
  have hin := hc w hw
  obtain ⟨pre, hsplit, hq⟩ := hin.split
  have hlen : s.length = pre.length + (w.text.length + w.eq.length) := by
    rw [hsplit, List.length_append, List.length_append]
  have hqlen : w.q.length = w.text.length + w.eq.length := by rw [hq, List.length_append]
  have hpos : s.length - w.q.length = pre.length := by omega
  set buf := nulterminate s.length c (s ++ [0]) with hbuf
  have hget : ∀ i, i < s.length + 1 → buf[i]? =
      if ∃ v ∈ c.words, s.length - v.eq.length = i then some 0 else (s ++ [0])[i]? := by
    intro i hi
    rw [hbuf, nulterminate_eq]
    exact getElem?_putNuls _ _ _ _ (by rw [List.length_append]; exact hi)
  have htext : ∀ i (hi : i < w.text.length), buf[pre.length + i]? = some (w.text.get ⟨i, hi⟩) := by
    intro i hi
    rw [hget _ (by omega), if_neg, hsplit, List.append_assoc,
      List.getElem?_append_right (by omega), Nat.add_sub_cancel_left, List.append_assoc,
      List.getElem?_append_left hi, List.getElem?_eq_getElem hi]
    · rfl
    · rintro ⟨v, hv, h⟩
      exact hin.end_ne (hc v hv) hi (by rw [h, hpos])
  have hend : buf[pre.length + w.text.length]? = some 0 := by
    rw [hget _ (by omega), if_pos ⟨w, hw, by omega⟩]
  rw [stringAt, hpos]
  have htake : (buf.drop pre.length).take w.text.length = w.text := by
    refine List.ext_getElem? fun i => ?_
    rw [List.getElem?_take]
    split_ifs with hi
    · rw [List.getElem?_drop, htext i hi, List.getElem?_eq_getElem hi]
      rfl
    · rw [List.getElem?_eq_none (Nat.le_of_not_lt hi)]
  obtain ⟨r, hr⟩ : ∃ r, buf.drop pre.length = w.text ++ 0 :: r := by
    have hdrop : (buf.drop pre.length)[w.text.length]? = some 0 := by
      rw [List.getElem?_drop, hend]
    obtain ⟨hlt, hzero⟩ := List.getElem?_eq_some_iff.mp hdrop
    refine ⟨(buf.drop pre.length).drop (w.text.length + 1), ?_⟩
    calc buf.drop pre.length
        = (buf.drop pre.length).take w.text.length ++ (buf.drop pre.length).drop w.text.length :=
          (List.take_append_drop _ _).symm
      _ = _ := by rw [htake, List.drop_eq_getElem_cons hlt, hzero]
  rw [hr, List.takeWhile_append_of_pos, List.takeWhile_cons_of_neg (by decide), List.append_nil]
  intro x hx
  have hmem : x ∈ s := by
    rw [hsplit]
    exact List.mem_append_right _ (List.mem_append_left _ hx)
  exact decide_eq_true fun h => hs (h ▸ hmem)

/-- Only the words of a command matter. -/
theorem map_congr_words {W V : Type} {f g : W → V} {c : Cmd W} (h : ∀ w ∈ c.words, f w = g w) :
    c.map f = c.map g := by
  induction c with
  | exec argv => exact congrArg Cmd.exec (List.map_congr_left h)
  | redir c file mode fd ih =>
    rw [Cmd.map, Cmd.map, ih fun w hw => h w (List.mem_append_left _ hw),
      h file (List.mem_append_right _ (.head _))]
  | pipe l r ihl ihr | list l r ihl ihr =>
    rw [Cmd.map, Cmd.map, ihl fun w hw => h w (List.mem_append_left _ hw),
      ihr fun w hw => h w (List.mem_append_right _ hw)]
  | back c ih => rw [Cmd.map, Cmd.map, ih h]

end Strings

/-! ### The whole line -/

section Line

variable {s : List UInt8} {fuel : ℕ} {t : Tree}

/-- There are no tokens exactly if there is only white space. -/
theorem lex_eq_nil_iff : lex s = [] ↔ skip s = [] := by
  cases scanned s with
  | eof h hlex hhead => exact ⟨fun _ => List.head?_eq_none_iff.mp hhead, fun _ => hlex⟩
  | sym x h hlex hhead =>
    refine ⟨fun hnil => absurd (hlex.symm.trans hnil) (List.cons_ne_nil _ _), fun hnil => ?_⟩
    rw [hnil] at hhead
    cases hhead
  | word h hlex hhead =>
    obtain ⟨c, hhead, -⟩ := hhead
    refine ⟨fun hnil => absurd (hlex.symm.trans hnil) (List.cons_ne_nil _ _), fun hnil => ?_⟩
    rw [hnil] at hhead
    cases hhead

/-- What `parsecmd` returns is the tree of `parseline` with the texts of its words. -/
theorem parsecmd_eq_ok (hs : 0 ∉ s) : parsecmd fuel s = .ok t ↔
    ∃ c s', parseline fuel s = .ok (c, s') ∧ lex s' = [] ∧ text c = t := by
  unfold parsecmd
  cases hparse : parseline fuel s with
  | error e => simp
  | ok x =>
    obtain ⟨c, s'⟩ := x
    obtain ⟨hat, -⟩ := (parse_sound fuel).1 hparse
    have hwords := (hat s (List.suffix_refl s)).words
    have htext : (c.map fun w =>
        stringAt s.length (nulterminate s.length c (s ++ [0])) w.q) = text c :=
      map_congr_words fun w hw => stringAt_nulterminate hs hwords hw
    dsimp only
    rw [htext]
    by_cases hend : skip s' = []
    · rw [if_pos hend]
      simp [lex_eq_nil_iff, hend]
    · rw [if_neg hend]
      simp [lex_eq_nil_iff, hend]

/-- **The parser accepts exactly its grammar.** On a line without NULs it ends; it returns a tree
exactly if the tokens of the line have a derivation, and then the tree of that derivation. -/
theorem parsecmd_accepts_grammar (hs : 0 ∉ s) (hfuel : 4 * s.length + 4 ≤ fuel) :
    parsecmd fuel s ≠ .error .fuel ∧
      ∀ t, parsecmd fuel s = .ok t ↔ Derives .line (lex s) t := by
  have hlen := length_lex_le s
  constructor
  · intro h
    have hends := (parse_ends fuel s).1 (by omega)
    unfold parsecmd at h
    cases hparse : parseline fuel s with
    | error e =>
      rw [hparse] at h hends
      cases h
      exact hends rfl
    | ok x =>
      rw [hparse] at h
      dsimp only at h
      split_ifs at h
      cases h
  · intro t
    rw [parsecmd_eq_ok hs]
    constructor
    · rintro ⟨c, s', hparse, hnil, rfl⟩
      obtain ⟨-, us, hlex, hder⟩ := (parse_sound fuel).1 hparse
      rw [hnil, List.append_nil] at hlex
      exact hlex ▸ hder
    · intro hder
      exact parse_complete hder (List.append_nil _).symm (.nil _)
        (by simp only [Nonterminal.fuel]; omega)

/-- The line `a<i>>o|(b>f)&;c`. -/
def redirLine : List UInt8 :=
  ['a', '<', 'i', '>', '>', 'o', '|', '(', 'b', '>', 'f', ')', '&', ';', 'c'].map Char.toUInt8

/-- All redirections, a pipe, a block in the background and a list; the first redirection is the
inner one. -/
theorem parsecmd_accepts_grammar_list : Derives .line (lex redirLine)
    (.list (.back (.pipe (.redir (.redir (.exec [[97]]) [105] 0 0) [111] 0x201 1)
      (.redir (.exec [[98]]) [102] 0x201 1))) (.exec [[99]])) :=
  have h : 4 * redirLine.length + 4 ≤ 64 := by decide
  ((parsecmd_accepts_grammar (by decide) h).2 _).mp (by decide +kernel)

/-! ### The arrays of arguments -/

/-- The arguments of each `execcmd` of a tree. -/
def Cmd.argvs {W : Type} : Cmd W → List (List W)
  | exec argv => [argv]
  | redir c _ _ _ => c.argvs
  | pipe l r => l.argvs ++ r.argvs
  | list l r => l.argvs ++ r.argvs
  | back c => c.argvs

/-- The stores of `parseexec` into the array `argv` of an `execcmd`, from index `argc` on: one for
each argument, and then `cmd->argv[argc] = 0`. -/
def storeArgs {W : Type} : List W → ℕ → List (Option W) → List (Option W)
  | [], argc, array => array.set argc none
  | w :: ws, argc, array => storeArgs ws (argc + 1) (array.set argc (some w))

/-- The array `argv` of an `execcmd`: `execcmd` clears it with `memset`, and `parseexec` stores the
arguments. -/
def argvArray {W : Type} (argv : List W) : List (Option W) :=
  storeArgs argv 0 (List.replicate MAXARGS none)

/-- One store, behind the arguments `pre` that have been stored before. -/
theorem set_args {W : Type} (pre : List W) (m : ℕ) (x : Option W) :
    (pre.map some ++ List.replicate (m + 1) none).set pre.length x =
      pre.map some ++ x :: List.replicate m none := by
  rw [List.set_append_right _ _ (by rw [List.length_map]), List.length_map, Nat.sub_self]
  rfl

/-- The stores as long as they are in the array: `m` places behind the arguments `pre` are zero. -/
theorem storeArgs_eq {W : Type} (pre ws : List W) {m : ℕ} (h : ws.length < m) :
    storeArgs ws pre.length (pre.map some ++ List.replicate m none) =
      (pre ++ ws).map some ++ List.replicate (m - ws.length) none := by
  induction ws generalizing pre m with
  | nil =>
    obtain ⟨m, rfl⟩ : ∃ k, m = k + 1 := ⟨m - 1, by simp at h; omega⟩
    rw [storeArgs, set_args, List.append_nil]
    rfl
  | cons w ws ih =>
    rw [List.length_cons] at h
    obtain ⟨m, rfl⟩ : ∃ k, m = k + 1 := ⟨m - 1, by omega⟩
    have hnext := ih (pre ++ [w]) (show ws.length < m by omega)
    rw [List.length_append, List.map_append, List.append_assoc, List.append_assoc] at hnext
    rw [storeArgs, set_args, List.length_cons, Nat.add_sub_add_right]
    exact hnext

/-- The array after `parseexec`: the arguments, and zeros behind them. -/
theorem argvArray_eq {W : Type} {argv : List W} (h : argv.length < MAXARGS) :
    argvArray argv = argv.map some ++ List.replicate (MAXARGS - argv.length) none :=
  storeArgs_eq [] argv h

/-- The arguments of a command under a change of its words. -/
theorem argvs_map {W V : Type} (f : W → V) (c : Cmd W) :
    (c.map f).argvs = c.argvs.map (List.map f) := by
  induction c with
  | exec argv => rfl
  | redir c file mode fd ih => exact ih
  | pipe l r ihl ihr => rw [Cmd.map, Cmd.argvs, ihl, ihr, Cmd.argvs, List.map_append]
  | list l r ihl ihr => rw [Cmd.map, Cmd.argvs, ihl, ihr, Cmd.argvs, List.map_append]
  | back c ih => exact ih

theorem argvs_withRedirs (c : Tree) (rs : List Redir) : (withRedirs c rs).argvs = c.argvs := by
  induction rs generalizing c with
  | nil => rfl
  | cons r rs ih => exact ih (.redir c r.file r.mode r.fd)

theorem argvs_back (c : Tree) (k : ℕ) : (Cmd.back^[k] c).argvs = c.argvs := by
  induction k generalizing c with
  | zero => rfl
  | succ k ih => exact ih (.back c)

/-- In a tree of the grammar there is room behind the arguments. -/
theorem Derives.length_argv_lt {nt : Nonterminal} {ts : List Lexeme} (h : Derives nt ts t) :
    ∀ argv ∈ t.argvs, argv.length < MAXARGS := by
  induction h with
  | last k h ih => rwa [argvs_back]
  | seq k h h' ih ih' =>
    rw [Cmd.argvs, argvs_back]
    exact fun argv hargv => (List.mem_append.mp hargv).elim (ih argv) (ih' argv)
  | single h ih => exact ih
  | piped h h' ih ih' =>
    exact fun argv hargv => (List.mem_append.mp hargv).elim (ih argv) (ih' argv)
  | block h h' ih => rwa [argvs_withRedirs]
  | simple h h' hlen =>
    rw [argvs_withRedirs]
    intro argv hargv
    rw [List.mem_singleton.mp hargv]
    exact Nat.lt_of_le_sub_one (by decide) hlen

/-- **The strings are exact.** If `parsecmd` accepts the line, then after `nulterminate` every
argument and every file name of the tree is, as a string, the text that `gettoken` found for it; the
tree of these strings is the one of the tokens of the line; and every array of arguments has a null
pointer behind them. -/
theorem nulterminate_exact {cmd : Cmd Word} {ps : List UInt8} (hs : 0 ∉ s)
    (h : parseline fuel s = .ok (cmd, ps)) (hend : skip ps = []) :
    let buf := nulterminate s.length cmd (s ++ [0])
    (∀ w ∈ cmd.words, w.In s ∧ stringAt s.length buf w.q = w.text) ∧
      Derives .line (lex s) (cmd.map fun w => stringAt s.length buf w.q) ∧
      ∀ argv ∈ cmd.argvs, (argvArray argv).length = MAXARGS ∧
        (argvArray argv)[argv.length]? = some none := by
  intro buf
  obtain ⟨hat, us, hlex, hder⟩ := (parse_sound fuel).1 h
  rw [lex_eq_nil_iff.mpr hend, List.append_nil] at hlex
  rw [← hlex] at hder
  have hin := (hat s (List.suffix_refl s)).words
  have hstring (w : Word) (hw : w ∈ cmd.words) : stringAt s.length buf w.q = w.text :=
    stringAt_nulterminate hs hin hw
  refine ⟨fun w hw => ⟨hin w hw, hstring w hw⟩, ?_, fun argv hargv => ?_⟩
  · rw [map_congr_words hstring]
    exact hder
  · have hlen : argv.length < MAXARGS := by
      have := hder.length_argv_lt (argv.map Word.text)
        (by rw [text, argvs_map]; exact List.mem_map_of_mem hargv)
      rwa [List.length_map] at this
    rw [argvArray_eq hlen, List.length_append, List.length_map, List.length_replicate,
      List.getElem?_append_right (by rw [List.length_map]), List.length_map, Nat.sub_self,
      List.getElem?_replicate, if_pos (by omega)]
    exact ⟨by omega, rfl⟩

/-- The line `(a|b>f)&;c`. -/
def listLine : List UInt8 :=
  ['(', 'a', '|', 'b', '>', 'f', ')', '&', ';', 'c'].map Char.toUInt8

/-- The strings of `(a|b>f)&;c`. -/
theorem nulterminate_exact_list : ∃ cmd ps, parseline 44 listLine = .ok (cmd, ps) ∧
    ∀ w ∈ cmd.words, stringAt 10 (nulterminate 10 cmd (listLine ++ [0])) w.q = w.text := by
  obtain ⟨cmd, ps, h, hend⟩ : ∃ cmd ps, parseline 44 listLine = .ok (cmd, ps) ∧ skip ps = [] :=
    ⟨_, _, rfl, rfl⟩
  exact ⟨cmd, ps, h, fun w hw => ((nulterminate_exact (by decide) h hend).1 w hw).2⟩

end Line

end Xv6.Shell
