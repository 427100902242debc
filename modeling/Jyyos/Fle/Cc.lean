import Jyyos.Fle.ElfToFle
import Jyyos.Fle.Ld
import Jyyos.Fle.Relocs

/-!
# The compiler driver

`FLE_cc` of `fle.py` after the compiler has run: of the sections that `objdump -h` lists, those that
are to be loaded are cut into items, with the relocations that `elf_to_fle` reads from the lines of
`readelf -r`.  What the other binutils report is part of the binary here.

The items have relocations as expressions (`Basic.lean`), so the texts are parsed here, and not when
the linker evaluates them.
-/

namespace Jyyos.Fle

open PyStr

/-! ### The texts of relocations -/

/-- The words that are no names in Python. -/
def keywords : List Str :=
  ["False", "None", "True", "and", "as", "assert", "async", "await", "break", "class", "continue",
    "def", "del", "elif", "else", "except", "finally", "for", "from", "global", "if", "import",
    "in", "is", "lambda", "nonlocal", "not", "or", "pass", "raise", "return", "try", "while",
    "with", "yield"].map String.toList

/-- A name of Python, in ASCII. -/
def isName (w : Str) : Bool :=
  w.head?.any (fun c => c.isAlpha || c == '_') && w.all (fun c => c.isAlphanum || c == '_') &&
    !keywords.contains w

/-- The operand that a word is. -/
def parseOperand (w : Str) : Option Expr :=
  if w = "📍".toList then some .current
  else if w.take 2 = "0x".toList then (intHex (w.drop 2)).map fun n => .const n
  else if isName w then some (.name w)
  else none

/-- A sum of which `e` has been read; it is taken from left to right. -/
def parseSum (e : Expr) : List Str → Option Expr
  | [] => some e
  | [_] => none
  | op :: w :: ws => do
    let x ← parseOperand w
    if op = ['+'] then parseSum (.add e x) ws
    else if op = ['-'] then parseSum (.sub e x) ws
    else none

/-- The expression in the text of a relocation: `i32` of a sum of names, hexadecimal numbers and the
mark, with blanks between them.  Other texts are not parsed. -/
def parseReloc (text : Str) : Option Expr :=
  if "i32(".toList <+: text ∧ text.getLast? = some ')' then
    match split (text.drop 4).dropLast with
    | [] => none
    | w :: ws => do
      let x ← parseOperand w
      return .call (.name "i32".toList) (← parseSum x ws)
  else none

/-! ### The driver -/

/-- A section that is listed on a line of the form that `FLE_cc` looks for, which says that its name
starts with a dot; the flags stand on the next line. -/
structure Section where
  name : Str
  dot : isSection name
  flags : List Str
  data : List UInt8
deriving DecidableEq

/-- What the compiler has written. -/
structure Binary where
  sections : List Section
  symbols : List Symbol
  tables : List RelaTable
deriving DecidableEq

/-- The lines of `readelf -r`. -/
def Binary.relocs (bin : Binary) : List Str :=
  match bin.tables with
  | [] => [[], "There are no relocations in this file.".toList]
  | _ :: _ => report bin.tables

/-- Why there is no object: the relocations cannot be read, or the text of one of them is not
parsed. -/
inductive CcError where
  | reloc (e : RelocError)
  | text (text : Str)
deriving DecidableEq, Repr

/-- A relocation with its text parsed. -/
def parseText (e : ℕ × ℕ × Str) : Except CcError (ℕ × Expr) :=
  match parseReloc e.2.2 with
  | none => .error (.text e.2.2)
  | some expr => .ok (e.1, expr)

def parseTexts (texts : Relocations) : Except CcError (Dict ℕ Expr) :=
  (texts.entries.mapM parseText).map Dict.ofList

/-- The relocations that `elf_to_fle` reads for a section. -/
def Binary.relocations (bin : Binary) (sec : Section) : Except CcError (Dict ℕ Expr) :=
  ((readRelocations sec.name bin.relocs).mapError .reloc).bind parseTexts

/-- `'ALLOC' in flags and 'note.gnu.property' not in section`. -/
def Section.isLoaded (sec : Section) : Bool :=
  decide ("ALLOC".toList ∈ sec.flags) && !contains "note.gnu.property".toList sec.name

/-- The sections of the object file. -/
def Binary.loaded (bin : Binary) : List Section := bin.sections.filter Section.isLoaded

/-- `FLE_cc`: the object that is written. -/
def fleCc (bin : Binary) : Except CcError Obj := do
  let entries ← bin.loaded.mapM fun sec => do
    let relocations ← bin.relocations sec
    return (sec.name, elfToFle ⟨sec.name, sec.data, bin.symbols, relocations⟩)
  return ⟨".obj".toList, Dict.ofList entries⟩

end Jyyos.Fle
