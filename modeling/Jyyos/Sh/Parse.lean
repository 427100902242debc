import Jyyos.CStr

/-!
# The parser of the shell

The command trees, the scanner and the recursive descent of `lecture_8/sh/sh.c`, from a line of
input to the tree that `runcmd` is given.

A pointer into the line is its offset `ps`; the line ends at `es = s.length`, where its terminator
stands.  A parse function returns what it has built and the offset it leaves in `*ps`.  A failed
assertion is `panic`.  The recursion of the parse functions is bounded by a `fuel`, and
`Equiv/Parse.lean` shows that it cannot run out when there is enough of it for the line.  `zalloc`
is taken to have room for every node; `Processes.lean` counts what the nodes take.
-/

namespace Jyyos.Sh

/-- A command tree; `W` is what stands for a word. -/
inductive Cmd (W : Type) where
  | exec (argv : List W)
  | redir (cmd : Cmd W) (file : W) (mode fd : ℕ)
  | pipe (left right : Cmd W)
  | list (left right : Cmd W)
  | back (cmd : Cmd W)
deriving DecidableEq, Repr

/-- The pointers `q` and `eq` to the two ends of a word. -/
structure Span where
  q : ℕ
  eq : ℕ
deriving DecidableEq, Repr

def MAXARGS : ℕ := 10

def O_RDONLY : ℕ := 0

def O_WRONLY : ℕ := 1

def O_CREAT : ℕ := 0o100

def O_TRUNC : ℕ := 0o1000

/-! ### The scanner -/

def whitespace : List UInt8 := [32, 9, 13, 10, 11]

def symbols : List UInt8 := cstr ['<', '|', '>', '&', ';', '(', ')']

/-- The character at an offset; at `es` it is the terminator. -/
def charAt (s : CStr) (p : ℕ) : UInt8 := s.getD p 0

/-- `while (s < es && ok(*s)) s++`. -/
def skip (s : CStr) (ok : UInt8 → Bool) (p : ℕ) : ℕ := p + ((s.drop p).takeWhile ok).length

def isWhitespace (c : UInt8) : Bool := whitespace.contains c

/-- A character of a word. -/
def isWordChar (c : UInt8) : Bool := !whitespace.contains c && !symbols.contains c

/-- What a call of `gettoken` returns and stores. -/
structure Gettoken where
  ret : UInt8
  span : Span
  ps : ℕ

def gettoken (s : CStr) (ps : ℕ) : Gettoken :=
  let q := skip s isWhitespace ps
  let c := charAt s q
  let (ret, eq) :=
    if c = 0 then (0, q)
    else if c ∈ cstr ['|', '(', ')', ';', '&', '<'] then (c, q + 1)
    else if c = '>'.toUInt8 then
      if charAt s (q + 1) = '>'.toUInt8 then ('+'.toUInt8, q + 2) else (c, q + 1)
    else ('a'.toUInt8, skip s isWordChar q)
  ⟨ret, ⟨q, eq⟩, skip s isWhitespace eq⟩

/-- `peek`: whether the next character is one of `toks`, and the offset after the blanks. -/
def peek (s : CStr) (ps : ℕ) (toks : List UInt8) : Bool × ℕ :=
  let ps := skip s isWhitespace ps
  (charAt s ps != 0 && toks.contains (charAt s ps), ps)

/-! ### The parse functions -/

/-- Why there is no tree: an assertion failed, or the fuel was too small. -/
inductive Stop where
  | panic
  | outOfFuel
deriving DecidableEq, Repr

/-- What a parse function gives. -/
abbrev Parsed (α : Type) := Except Stop α

/-- `cmd->argv[argc] = q` and `cmd->eargv[argc] = eq` for the simple command inside the
redirections that have been put around it. -/
def Cmd.pushArg {W : Type} (w : W) : Cmd W → Cmd W
  | .exec argv => .exec (argv ++ [w])
  | .redir cmd file mode fd => .redir (cmd.pushArg w) file mode fd
  | cmd => cmd

/-- `redircmd` for the token of a redirection; any other token leaves the command. -/
def redirFor (tok : UInt8) (cmd : Cmd Span) (file : Span) : Cmd Span :=
  if tok = '<'.toUInt8 then .redir cmd file O_RDONLY 0
  else if tok = '>'.toUInt8 then .redir cmd file (O_WRONLY ||| O_CREAT ||| O_TRUNC) 1
  else if tok = '+'.toUInt8 then .redir cmd file (O_WRONLY ||| O_CREAT) 1
  else cmd

def parseredirs (s : CStr) : ℕ → Cmd Span → ℕ → Parsed (Cmd Span × ℕ)
  | 0, _, _ => .error .outOfFuel
  | fuel + 1, cmd, ps =>
    let (redir, ps) := peek s ps (cstr ['<', '>'])
    if redir then
      let tok := gettoken s ps
      let word := gettoken s tok.ps
      if word.ret = 'a'.toUInt8 then parseredirs s fuel (redirFor tok.ret cmd word.span) word.ps
      else .error .panic
    else .ok (cmd, ps)

/-- The loop of `parseexec`, with the command built so far and its number of arguments. -/
def parseargs (s : CStr) : ℕ → Cmd Span → ℕ → ℕ → Parsed (Cmd Span × ℕ)
  | 0, _, _, _ => .error .outOfFuel
  | fuel + 1, ret, argc, ps => do
    let (stop, ps) := peek s ps (cstr ['|', ')', '&', ';'])
    if stop then .ok (ret, ps)
    else
      let tok := gettoken s ps
      if tok.ret = 0 then .ok (ret, tok.ps)
      else if tok.ret ≠ 'a'.toUInt8 then .error .panic
      else if ¬ argc + 1 < MAXARGS then .error .panic
      else
        let (ret, ps) ← parseredirs s fuel (ret.pushArg tok.span) tok.ps
        parseargs s fuel ret (argc + 1) ps

/-- The loop of `parseline` that reads the `&`s. -/
def parseback (s : CStr) : ℕ → Cmd Span → ℕ → Parsed (Cmd Span × ℕ)
  | 0, _, _ => .error .outOfFuel
  | fuel + 1, cmd, ps =>
    let (amp, ps) := peek s ps (cstr ['&'])
    if amp then parseback s fuel (.back cmd) (gettoken s ps).ps else .ok (cmd, ps)

mutual

def parseline (s : CStr) : ℕ → ℕ → Parsed (Cmd Span × ℕ)
  | 0, _ => .error .outOfFuel
  | fuel + 1, ps => do
    let (cmd, ps) ← parsepipe s fuel ps
    let (cmd, ps) ← parseback s fuel cmd ps
    let (semi, ps) := peek s ps (cstr [';'])
    if semi then
      let (right, ps) ← parseline s fuel (gettoken s ps).ps
      .ok (.list cmd right, ps)
    else .ok (cmd, ps)

def parsepipe (s : CStr) : ℕ → ℕ → Parsed (Cmd Span × ℕ)
  | 0, _ => .error .outOfFuel
  | fuel + 1, ps => do
    let (cmd, ps) ← parseexec s fuel ps
    let (bar, ps) := peek s ps (cstr ['|'])
    if bar then
      let (right, ps) ← parsepipe s fuel (gettoken s ps).ps
      .ok (.pipe cmd right, ps)
    else .ok (cmd, ps)

def parseexec (s : CStr) : ℕ → ℕ → Parsed (Cmd Span × ℕ)
  | 0, _ => .error .outOfFuel
  | fuel + 1, ps => do
    let (block, ps) := peek s ps (cstr ['('])
    if block then parseblock s fuel ps
    else
      let (ret, ps) ← parseredirs s fuel (.exec []) ps
      parseargs s fuel ret 0 ps

def parseblock (s : CStr) : ℕ → ℕ → Parsed (Cmd Span × ℕ)
  | 0, _ => .error .outOfFuel
  | fuel + 1, ps => do
    let (opens, ps) := peek s ps (cstr ['('])
    if opens then
      let (cmd, ps) ← parseline s fuel (gettoken s ps).ps
      let (closes, ps) := peek s ps (cstr [')'])
      if closes then parseredirs s fuel cmd (gettoken s ps).ps
      else .error .panic
    else .error .panic

end

/-! ### The whole line -/

/-- `nulterminate`: a terminator is stored at the end of each word. -/
def nulterminate : Cmd Span → List UInt8 → List UInt8
  | .exec argv, mem => argv.foldl (fun mem w => mem.set w.eq 0) mem
  | .redir cmd file _ _, mem => (nulterminate cmd mem).set file.eq 0
  | .pipe left right, mem => nulterminate right (nulterminate left mem)
  | .list left right, mem => nulterminate right (nulterminate left mem)
  | .back cmd, mem => nulterminate cmd mem

/-- `parsecmd` on the line `s`: the memory of the line and the tree with its pointers into it. -/
def parsecmd (fuel : ℕ) (s : CStr) : Parsed (List UInt8 × Cmd Span) := do
  let (cmd, ps) ← parseline s fuel 0
  let (_, ps) := peek s ps []
  if ps = s.length then .ok (nulterminate cmd (s ++ [0]), cmd) else .error .panic

def Cmd.map {V W : Type} (f : V → W) : Cmd V → Cmd W
  | .exec argv => .exec (argv.map f)
  | .redir cmd file mode fd => .redir (cmd.map f) (f file) mode fd
  | .pipe left right => .pipe (left.map f) (right.map f)
  | .list left right => .list (left.map f) (right.map f)
  | .back cmd => .back (cmd.map f)

/-- The tree with the strings that its pointers `argv[i]` and `file` point to. -/
def Cmd.resolve (mem : List UInt8) (cmd : Cmd Span) : Cmd CStr :=
  cmd.map fun w => cstrOf (mem.drop w.q)

end Jyyos.Sh
