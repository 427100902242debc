import Jyyos.Algorithm.Dict
import Jyyos.PyStr

/-!
# FLE files

The objects that `FLE_ld` reads and the executables that it writes, as `json.loads` returns them.
The items of a section are strings `tag: text`; they appear here after `item.split(': ')`.  The text
of a relocation is an expression of Python, here after parsing.  Only what the tools look at is
kept: integer arithmetic, names, calls, and the mark for the current position.
-/

namespace Jyyos.Fle

/-- An expression of Python. -/
inductive Expr where
  /-- A name. -/
  | name (key : Str)
  /-- An integer literal. -/
  | const (n : ℤ)
  /-- The mark that is replaced by the current position. -/
  | current
  | add (a b : Expr)
  | sub (a b : Expr)
  /-- The call `f(x)`. -/
  | call (f x : Expr)
deriving DecidableEq, Repr

/-- An item of a section. -/
inductive Item where
  /-- A global label. -/
  | globalLabel (symb : Str)
  /-- A label of the file. -/
  | localLabel (symb : Str)
  /-- Bytes in hexadecimal. -/
  | bytes (xs : Str)
  /-- An expression for the bytes that go here. -/
  | reloc (expr : Expr)
  /-- Anything else, which no case of the linker matches. -/
  | other
deriving DecidableEq, Repr

/-- An object file: its `type` and its other entries, of which those whose name starts with a dot
are sections. -/
structure Obj where
  type : Str
  entries : Dict Str (List Item)

/-- An executable. -/
structure Exe where
  type : Str
  symbols : Dict Str ℤ
  load : List Str

/-- What the tools can raise. -/
inductive Error where
  | fileNotFound (fle : Str)
  | assertion
  /-- `dest` is read before a value is assigned. -/
  | unboundLocal
  | multipleDefinition (symb : Str)
  | undefinedSymbol (key : Str)
  | typeError
  | overflow
  | value
  | keyError (key : Str)
  /-- `mmap` of no bytes. -/
  | emptyMap
deriving DecidableEq, Repr

end Jyyos.Fle
