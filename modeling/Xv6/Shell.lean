import Xv6.Prog

/-!
# The Shell's Parser

`parsecmd` of the shell and the functions below it. A pointer into the command line is modelled by
the part of the line from there on, so that a moving cursor is a list that gets shorter and the end
`es` of the line is the empty list. A word is the pair of pointers `q` and `eq` that `gettoken`
stores; `nulterminate` writes a NUL at the second of them once the whole line has been parsed.

The functions call each other recursively and loop until they see a token that they do not take.
Here each call and each turn of a loop uses up one unit of fuel.
-/

namespace Xv6.Shell

/-! ### Tokens -/

/-- `whitespace` -/
def whitespace : List UInt8 := [' ', '\t', '\r', '\n', '\x0b'].map Char.toUInt8

/-- `symbols` -/
def symbols : List UInt8 := ['<', '|', '>', '&', ';', '(', ')'].map Char.toUInt8

/-- The characters of a word. -/
def isWordChar (c : UInt8) : Bool := !whitespace.contains c && !symbols.contains c

/-- The symbols of the command language. -/
inductive Symbol
  | lt | bar | gt | amp | semi | lparen | rparen
  /-- `>>`, which `gettoken` returns as '+' -/
  | append
  deriving DecidableEq, Repr

/-- The first character of a symbol. -/
def Symbol.char : Symbol → UInt8
  | .lt => '<'.toUInt8
  | .bar => '|'.toUInt8
  | .gt => '>'.toUInt8
  | .amp => '&'.toUInt8
  | .semi => ';'.toUInt8
  | .lparen => '('.toUInt8
  | .rparen => ')'.toUInt8
  | .append => '>'.toUInt8

/-- The result of `gettoken`: 0, a symbol, or 'a'. -/
inductive Ret
  | eof
  | sym (x : Symbol)
  | word
  deriving DecidableEq, Repr

/-- The symbol that a character starts, in the cases of the `switch` in `gettoken`. -/
def symbolOf (c : UInt8) : Option Symbol :=
  if c = '|'.toUInt8 then some .bar
  else if c = '('.toUInt8 then some .lparen
  else if c = ')'.toUInt8 then some .rparen
  else if c = ';'.toUInt8 then some .semi
  else if c = '&'.toUInt8 then some .amp
  else if c = '<'.toUInt8 then some .lt
  else if c = '>'.toUInt8 then some .gt
  else none

/-- Skip white space. -/
def skip (s : List UInt8) : List UInt8 := s.dropWhile whitespace.contains

/-- The `switch` of `gettoken`: the token at a character that is not white space, and what is
behind it. -/
def scan : List UInt8 → Ret × List UInt8
  | [] => (.eof, [])
  | c :: s =>
    match symbolOf c with
    | some .gt => if s.head? = some '>'.toUInt8 then (.sym .append, s.tail) else (.sym .gt, s)
    | some x => (.sym x, s)
    | none => (.word, (c :: s).dropWhile isWordChar)

/-- A word between the pointers `q` and `eq`. -/
structure Word where
  q : List UInt8
  eq : List UInt8

/-- What `gettoken` returns and stores: the token, its ends, and the cursor behind it. -/
structure Token where
  ret : Ret
  word : Word
  ps : List UInt8

/-- `gettoken` -/
def gettoken (ps : List UInt8) : Token :=
  let q := skip ps
  let r := scan q
  ⟨r.1, ⟨q, r.2⟩, skip r.2⟩

/-- `peek`: whether the next character that is not white space is one of `toks`. It leaves the
cursor at that character, `skip ps`. -/
def peek (ps : List UInt8) (toks : List Symbol) : Bool :=
  match skip ps with
  | [] => false
  | c :: _ => (toks.map Symbol.char).contains c

/-! ### Trees -/

/-- `O_RDONLY`, `O_WRONLY` and `O_CREATE` -/
def O_RDONLY : ℕ := 0x000
@[inherit_doc O_RDONLY] def O_WRONLY : ℕ := 0x001
@[inherit_doc O_RDONLY] def O_CREATE : ℕ := 0x200

/-- `MAXARGS` -/
def MAXARGS : ℕ := 10

/-- The structures `execcmd`, `redircmd`, `pipecmd`, `listcmd` and `backcmd`, over any type of
words. -/
inductive Cmd (W : Type)
  | exec (argv : List W)
  | redir (cmd : Cmd W) (file : W) (mode fd : ℕ)
  | pipe (left right : Cmd W)
  | list (left right : Cmd W)
  | back (cmd : Cmd W)
  deriving DecidableEq, Repr

namespace Cmd

variable {W V : Type}

/-- The tree with other words. -/
def map (f : W → V) : Cmd W → Cmd V
  | exec argv => exec (argv.map f)
  | redir c file mode fd => redir (c.map f) (f file) mode fd
  | pipe l r => pipe (l.map f) (r.map f)
  | list l r => list (l.map f) (r.map f)
  | back c => back (c.map f)

/-- The words of a tree. -/
def words : Cmd W → List W
  | exec argv => argv
  | redir c file _ _ => c.words ++ [file]
  | pipe l r => l.words ++ r.words
  | list l r => l.words ++ r.words
  | back c => c.words

/-- `cmd->argv[argc] = q; cmd->eargv[argc] = eq` in `parseexec`, where `cmd` is the `execcmd` below
the redirections read so far. -/
def pushArg (w : W) : Cmd W → Cmd W
  | exec argv => exec (argv ++ [w])
  | redir c file mode fd => redir (c.pushArg w) file mode fd
  | c => c

/-- The `redircmd` that `parseredirs` makes for a token: '<', '>' or '+'. -/
def redirect (c : Cmd W) (x : Symbol) (file : W) : Cmd W :=
  match x with
  | .lt => redir c file O_RDONLY 0
  | .gt => redir c file (O_WRONLY ||| O_CREATE) 1
  | .append => redir c file (O_WRONLY ||| O_CREATE) 1
  | _ => c

end Cmd

/-! ### The parser -/

/-- The calls of `panic` in the parser, one constructor for each message. -/
inductive Panic
  /-- `parsecmd` and `parseexec`: "syntax" -/
  | syntaxError
  /-- `parseredirs`: "missing file for redirection" -/
  | missingFile
  /-- `parseblock`: "parseblock" -/
  | parseblock
  /-- `parseblock`: "syntax - missing )" -/
  | missingParen
  /-- `parseexec`: "too many args" -/
  | tooManyArgs
  deriving DecidableEq, Repr

/-- How the parser ends without a tree. -/
inductive Stop
  | panic (p : Panic)
  | fuel
  deriving DecidableEq, Repr

/-- A tree and the cursor behind it. -/
abbrev Parsed := Except Stop (Cmd Word × List UInt8)

/-- `parseredirs` -/
def parseredirs : ℕ → Cmd Word → List UInt8 → Parsed
  | 0, _, _ => .error .fuel
  | n + 1, cmd, ps =>
    if peek ps [.lt, .gt] then
      let tok := gettoken (skip ps)
      let file := gettoken tok.ps
      if file.ret = .word then
        match tok.ret with
        | .sym x => parseredirs n (cmd.redirect x file.word) file.ps
        | _ => parseredirs n cmd file.ps
      else .error (.panic .missingFile)
    else .ok (cmd, skip ps)

/-- The `while` loop of `parseexec`. -/
def parseargs : ℕ → Cmd Word → ℕ → List UInt8 → Parsed
  | 0, _, _, _ => .error .fuel
  | n + 1, ret, argc, ps =>
    if peek ps [.bar, .rparen, .amp, .semi] then .ok (ret, skip ps)
    else
      let tok := gettoken (skip ps)
      match tok.ret with
      | .eof => .ok (ret, tok.ps)
      | .sym _ => .error (.panic .syntaxError)
      | .word =>
        if argc + 1 ≥ MAXARGS then .error (.panic .tooManyArgs)
        else (parseredirs n (ret.pushArg tok.word) tok.ps).bind fun x =>
          parseargs n x.1 (argc + 1) x.2

/-- The `while` loop of `parseline`. -/
def parseback : ℕ → Cmd Word → List UInt8 → Parsed
  | 0, _, _ => .error .fuel
  | n + 1, cmd, ps =>
    if peek ps [.amp] then parseback n (.back cmd) (gettoken (skip ps)).ps
    else .ok (cmd, skip ps)

mutual

/-- `parseline` -/
def parseline : ℕ → List UInt8 → Parsed
  | 0, _ => .error .fuel
  | n + 1, ps =>
    (parsepipe n ps).bind fun x => (parseback n x.1 x.2).bind fun y =>
      if peek y.2 [.semi] then
        (parseline n (gettoken (skip y.2)).ps).bind fun z => .ok (.list y.1 z.1, z.2)
      else .ok (y.1, skip y.2)

/-- `parsepipe` -/
def parsepipe : ℕ → List UInt8 → Parsed
  | 0, _ => .error .fuel
  | n + 1, ps =>
    (parseexec n ps).bind fun x =>
      if peek x.2 [.bar] then
        (parsepipe n (gettoken (skip x.2)).ps).bind fun y => .ok (.pipe x.1 y.1, y.2)
      else .ok (x.1, skip x.2)

/-- `parseexec` -/
def parseexec : ℕ → List UInt8 → Parsed
  | 0, _ => .error .fuel
  | n + 1, ps =>
    if peek ps [.lparen] then parseblock n (skip ps)
    else (parseredirs n (.exec []) (skip ps)).bind fun x => parseargs n x.1 0 x.2

/-- `parseblock` -/
def parseblock : ℕ → List UInt8 → Parsed
  | 0, _ => .error .fuel
  | n + 1, ps =>
    if peek ps [.lparen] then
      (parseline n (gettoken (skip ps)).ps).bind fun x =>
        if peek x.2 [.rparen] then parseredirs n x.1 (gettoken (skip x.2)).ps
        else .error (.panic .missingParen)
    else .error (.panic .parseblock)

end

/-! ### The strings -/

/-- The line with its terminating NUL, after a NUL has been written at the pointer `p` into the
line of `len` characters. -/
def putNul (len : ℕ) (p buf : List UInt8) : List UInt8 := buf.set (len - p.length) 0

/-- `nulterminate` -/
def nulterminate (len : ℕ) : Cmd Word → List UInt8 → List UInt8
  | .exec argv, buf => argv.foldl (fun buf w => putNul len w.eq buf) buf
  | .redir c file _ _, buf => putNul len file.eq (nulterminate len c buf)
  | .pipe l r, buf => nulterminate len r (nulterminate len l buf)
  | .list l r, buf => nulterminate len r (nulterminate len l buf)
  | .back c, buf => nulterminate len c buf

/-- The string at a pointer into the line. -/
def stringAt (len : ℕ) (buf p : List UInt8) : List UInt8 :=
  (buf.drop (len - p.length)).takeWhile (· ≠ 0)

/-- `parsecmd`: the tree, with the strings that its pointers have once they are terminated. -/
def parsecmd (fuel : ℕ) (s : List UInt8) : Except Stop (Cmd (List UInt8)) :=
  match parseline fuel s with
  | .error e => .error e
  | .ok (cmd, ps) =>
    if skip ps = [] then
      let buf := nulterminate s.length cmd (s ++ [0])
      .ok (cmd.map fun w => stringAt s.length buf w.q)
    else .error (.panic .syntaxError)

end Xv6.Shell
