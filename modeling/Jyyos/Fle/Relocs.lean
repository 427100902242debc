import Jyyos.Algorithm.Dict
import Jyyos.PyStr
import Mathlib.Data.List.Infix

/-!
# Reading the relocations of a section

The loop of `elf_to_fle` over the lines of `readelf -r`.  A header line switches the reading of
entries on or off, and it stays so until the next header line.  The relocations are kept with their
expressions as texts, which the emission loop takes after parsing.

The parts of the pattern for an entry have no character in common with their neighbours, except for
the last, which takes everything that is left.  So the pattern is matched from left to right, each
part taking all it can.
-/

namespace Jyyos.Fle

open PyStr

/-- `sub in s`. -/
def contains (sub s : Str) : Bool := decide (sub <:+: s)

/-- `[0-9a-fA-F]`. -/
def isHex (c : Char) : Bool := (hexValue c).isSome

/-- One or more characters of a kind, and what follows them. -/
def plus (ok : Char → Bool) (s : Str) : Option (Str × Str) :=
  if s.takeWhile ok = [] then none else some (s.takeWhile ok, s.dropWhile ok)

/-- The groups `offset`, `reloc` and `expr` of the pattern for an entry. -/
def matchEntry (line : Str) : Option (Str × Str × Str) := do
  let (offset, s) ← plus isHex (line.dropWhile isSpace)
  let (_, s) ← plus isSpace s
  let (_, s) ← plus isHex s
  let (_, s) ← plus isSpace s
  let (reloc, s) ← plus (fun c => !isSpace c) s
  let (_, s) ← plus isSpace s
  let (_, s) ← plus isHex s
  let (_, s) ← plus isSpace s
  return (offset, reloc, s)

/-- `re.sub` with the pattern of hexadecimal numbers: `0x` goes before each; `inside` says whether
the character before was part of one. -/
def subHex (inside : Bool) : Str → Str
  | [] => []
  | c :: cs =>
    if isHex c then
      if inside then c :: subHex true cs else '0' :: 'x' :: c :: subHex true cs
    else c :: subHex false cs

/-- What the loop can raise. -/
inductive RelocError where
  | indexError
  | value
  | unsupported (reloc : Str)
deriving DecidableEq, Repr

/-- The kinds of relocations that are supported. -/
def supported : List Str :=
  ["R_X86_64_PC32".toList, "R_X86_64_PLT32".toList, "R_X86_64_32".toList]

/-- The table `relocations`: how many bytes to skip, and the text of the expression. -/
abbrev Relocations := Dict ℕ (ℕ × Str)

/-- A line while `enabled` is set. -/
def readEntry (relocations : Relocations) (line : Str) : Except RelocError Relocations :=
  match matchEntry line with
  | none => .ok relocations
  | some (offset, reloc, expr) =>
    match split expr with
    | [] => .error .indexError
    | r :: rs =>
      let expr := join ' ' (r :: rs.map (subHex false)) ++ " - 📍".toList
      if reloc ∉ supported then .error (.unsupported reloc)
      else
        match intHex offset with
        | none => .error .value
        | some i =>
          .ok (relocations.set i (4, replaceChar '.' '_' ("i32(".toList ++ expr ++ [')'])))

/-- The variables of the loop. -/
structure RelocState where
  relocations : Relocations
  enabled : Bool

/-- What a header line is recognized by. -/
def headerMark : Str := "Relocation section".toList

/-- What the names of relocation tables begin with. -/
def rela : Str := ".rela".toList

/-- The body of the loop. -/
def relocStep (sec : Str) (s : RelocState) (line : Str) : Except RelocError RelocState :=
  if contains headerMark line then .ok { s with enabled := contains (rela ++ sec) line }
  else if s.enabled then
    (readEntry s.relocations line).map fun relocations => { s with relocations := relocations }
  else .ok s

/-- The loop over `relocs.splitlines()`. -/
def readRelocations (sec : Str) (lines : List Str) : Except RelocError Relocations :=
  (lines.foldlM (relocStep sec) ⟨.empty, true⟩).map RelocState.relocations

/-! ### What `readelf -r` prints -/

/-- What stands in a header line: the name of the section that the table is for, the offset of the
table, and how many entries it has. -/
structure RelaHead where
  name : Str
  offset : Str
  count : Str
deriving DecidableEq

/-- The header line. -/
def RelaHead.line (h : RelaHead) : Str :=
  headerMark ++ (" '".toList ++ ((rela ++ h.name) ++ ("' at offset 0x".toList ++ h.offset ++
    " contains ".toList ++ h.count ++ [':'])))

/-- A relocation table as it is printed: its header, and its other lines. -/
structure RelaTable where
  head : RelaHead
  lines : List Str
  plain : ∀ line ∈ lines, contains headerMark line = false
deriving DecidableEq

/-- The lines of `readelf -r`. -/
def report (tables : List RelaTable) : List Str :=
  [] :: tables.flatMap fun t => t.head.line :: t.lines

end Jyyos.Fle
