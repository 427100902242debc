import Jyyos.Sh.Parse
import Mathlib.Logic.Function.Iterate

/-!
# The grammar of the shell

What the parser of the shell is for, apart from how it works.  A line is cut into tokens: words,
which are the longest runs of characters that are neither blanks nor symbols, and the symbols,
`>>` before `>`.  The token sequence has the form

    line   ::= pipe {'&'} [';' line]
    pipe   ::= exec ['|' pipe]
    exec   ::= '(' line ')' redirs | redirs {word redirs}
    redirs ::= {('<' | '>' | '>>') word}

where a simple command has at most nine words.  The relations give each form together with the
tree it stands for.
-/

namespace Jyyos.Sh

/-- The symbol tokens. -/
inductive Sym where
  | lt
  | gt
  | gtgt
  | bar
  | amp
  | semi
  | lpar
  | rpar
deriving DecidableEq, Repr

/-- A token; `W` is what stands for a word. -/
inductive Tok (W : Type) where
  | sym (k : Sym)
  | word (w : W)
deriving DecidableEq, Repr

/-- The symbols of one character. -/
def Sym.ofChar (c : UInt8) : Option Sym :=
  if c = '<'.toUInt8 then some .lt
  else if c = '>'.toUInt8 then some .gt
  else if c = '|'.toUInt8 then some .bar
  else if c = '&'.toUInt8 then some .amp
  else if c = ';'.toUInt8 then some .semi
  else if c = '('.toUInt8 then some .lpar
  else if c = ')'.toUInt8 then some .rpar
  else none

/-- The tokens of a text. -/
def tokenize : List UInt8 → List (Tok CStr)
  | [] => []
  | c :: cs =>
    if isWhitespace c then tokenize cs
    else if c = '>'.toUInt8 ∧ cs.head? = some '>'.toUInt8 then .sym .gtgt :: tokenize cs.tail
    else
      match Sym.ofChar c with
      | some k => .sym k :: tokenize cs
      | none => .word (c :: cs.takeWhile isWordChar) :: tokenize (cs.dropWhile isWordChar)
termination_by text => text.length
decreasing_by
  · simp
  · simp only [List.length_tail, List.length_cons]
    omega
  · simp
  · have := (List.dropWhile_suffix isWordChar (l := cs)).length_le
    simp only [List.length_cons]
    omega

/-- A redirection: its symbol and the file. -/
structure Redir (W : Type) where
  kind : Sym
  file : W

/-- The redirection put around a command. -/
def Redir.around {W : Type} (cmd : Cmd W) (r : Redir W) : Cmd W :=
  match r.kind with
  | .lt => .redir cmd r.file O_RDONLY 0
  | .gt => .redir cmd r.file (O_WRONLY ||| O_CREAT ||| O_TRUNC) 1
  | .gtgt => .redir cmd r.file (O_WRONLY ||| O_CREAT) 1
  | _ => cmd

/-- The redirections put around a command one after the other. -/
def wrap {W : Type} (cmd : Cmd W) (rs : List (Redir W)) : Cmd W := rs.foldl Redir.around cmd

/-- The command with `n` times `&` after it. -/
def backs {W : Type} (n : ℕ) (cmd : Cmd W) : Cmd W := Cmd.back^[n] cmd

variable {W : Type}

/-- The symbols of a redirection. -/
def Sym.IsRedir (k : Sym) : Prop := k = .lt ∨ k = .gt ∨ k = .gtgt

inductive Redirs : List (Tok W) → List (Redir W) → Prop
  | nil : Redirs [] []
  | cons {k : Sym} (hk : k.IsRedir) (w : W) {ts : List (Tok W)} {rs : List (Redir W)}
      (rest : Redirs ts rs) : Redirs (.sym k :: .word w :: ts) (⟨k, w⟩ :: rs)

/-- The words of a simple command with the redirections between them. -/
inductive Args : List (Tok W) → List W → List (Redir W) → Prop
  | nil : Args [] [] []
  | cons (w : W) {ts ts' : List (Tok W)} {ws : List W} {rs rs' : List (Redir W)}
      (redirs : Redirs ts rs) (rest : Args ts' ws rs') :
      Args (.word w :: (ts ++ ts')) (w :: ws) (rs ++ rs')

mutual

inductive Line : List (Tok W) → Cmd W → Prop
  | last {ts : List (Tok W)} {c : Cmd W} (pipe : Pipe ts c) (n : ℕ) :
      Line (ts ++ List.replicate n (.sym .amp)) (backs n c)
  | semi {ts ts' : List (Tok W)} {c c' : Cmd W} (pipe : Pipe ts c) (n : ℕ) (rest : Line ts' c') :
      Line (ts ++ (List.replicate n (.sym .amp) ++ .sym .semi :: ts')) (.list (backs n c) c')

inductive Pipe : List (Tok W) → Cmd W → Prop
  | last {ts : List (Tok W)} {c : Cmd W} (exec : Exec ts c) : Pipe ts c
  | bar {ts ts' : List (Tok W)} {c c' : Cmd W} (exec : Exec ts c) (rest : Pipe ts' c') :
      Pipe (ts ++ .sym .bar :: ts') (.pipe c c')

inductive Exec : List (Tok W) → Cmd W → Prop
  | block {ts ts' : List (Tok W)} {c : Cmd W} {rs : List (Redir W)} (line : Line ts c)
      (redirs : Redirs ts' rs) :
      Exec (.sym .lpar :: (ts ++ .sym .rpar :: ts')) (wrap c rs)
  | simple {ts ts' : List (Tok W)} {ws : List W} {rs rs' : List (Redir W)} (redirs : Redirs ts rs)
      (args : Args ts' ws rs') (few : ws.length < MAXARGS) :
      Exec (ts ++ ts') (wrap (.exec ws) (rs ++ rs'))

end

end Jyyos.Sh
