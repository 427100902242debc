import Jyyos.Fle.Cc
import Jyyos.Fle.Equiv.ElfToFle
import Jyyos.Fle.Equiv.Pass
import Jyyos.Fle.Equiv.Relocs

/-!
# What a compiled program is

The purpose of the tools together, in terms of the binaries that the compiler has written: their
sections stand in memory one after the other, sorted by name and then by file; symbols have
addresses there; and each relocation field holds the distance to what its name means.  The
relocations are given by the lines that show them in the output of `readelf -r` (`Shown`).
-/

namespace Jyyos.Fle

open Layout PyStr

/-! ### What is printed -/

/-- A relocation: the offset of its field, a name, and what is added to the address of the name. -/
structure Rela where
  offset : ℕ
  name : Str
  addend : ℤ
deriving DecidableEq, Repr

/-- The entry, of a supported kind, is that of the relocation: its last column has a symbol, the
name of which has underscores for dots, and the addend with its sign. -/
structure RelaEntry.Shows (e : RelaEntry) (r : Rela) : Prop where
  printed : e.Printed
  kind : e.kind ∈ supported
  offset : intHex e.offset = some r.offset
  name : isName r.name = true
  expr : ∃ symbol sign digits v, e.expr = join ' ' [symbol, [sign], digits] ∧
    r.name = replaceChar '.' '_' symbol ∧ intHex digits = some v ∧
    (sign = '+' ∧ r.addend = v ∨ sign = '-' ∧ r.addend = -v)

/-- The lines of a table show the relocations; the other lines do not begin with a number. -/
inductive Shown : List Str → List Rela → Prop
  | nil : Shown [] []
  | entry {e : RelaEntry} {r : Rela} {lines : List Str} {rs : List Rela} (entry : e.Shows r)
      (blanks : ℕ) (rest : Shown lines rs) : Shown (e.line blanks :: lines) (r :: rs)
  | other {line : Str} {lines : List Str} {rs : List Rela}
      (other : ∀ c ∈ (line.dropWhile isSpace).head?, isHex c = false) (rest : Shown lines rs) :
      Shown (line :: lines) rs

/-! ### The program -/

/-- The relocations of a section as they are read from its own tables. -/
def Binary.ownRelocations (bin : Binary) (sec : Section) : Except CcError (Dict ℕ Expr) :=
  ((readEntries (ownLines sec.name bin.tables)).mapError .reloc).bind parseTexts

/-- What belongs to a section. -/
def Binary.elf (bin : Binary) (sec : Section) : Elf :=
  ⟨sec.name, sec.data, bin.symbols, (bin.ownRelocations sec).toOption.getD .empty⟩

/-- A section of a file. -/
structure Placed where
  fle : Str
  bin : Binary
  sec : Section
deriving DecidableEq

namespace Placed

def elf (x : Placed) : Elf := x.bin.elf x.sec

def relocations (x : Placed) : Dict ℕ Expr := x.elf.relocations

def length (x : Placed) : ℕ := x.sec.data.length

/-- The lines of the tables for the section. -/
def lines (x : Placed) : List Str := ownLines x.sec.name x.bin.tables

/-- The section as a label, and the symbols that stand in it, when it is at the address `p`. -/
def symbols (x : Placed) (p : ℕ) : List (Label × ℕ) :=
  (.ofFile x.fle (sectionLabel x.sec.name), p) ::
    (x.elf.labelsBelow x.fle x.length).map fun e => (e.1, p + e.2)

/-- The fields of the relocations do not overlap, lie within the section, and contain no symbol but
at their beginning. -/
structure Fits (x : Placed) (rs : List Rela) : Prop where
  once : (rs.map Rela.offset).Nodup
  gap : ∀ r ∈ rs, ∀ r' ∈ rs, r.offset < r'.offset → r.offset + fieldWidth ≤ r'.offset
  inside : ∀ r ∈ rs, r.offset + fieldWidth ≤ x.length
  symbols : ∀ sym ∈ x.bin.symbols, sym.sec = x.sec.name → ∀ r ∈ rs,
    ¬(r.offset < sym.offset ∧ sym.offset < r.offset + fieldWidth)

end Placed

section Program

variable (bins : List (Str × Binary))

/-- The names of the sections, in the order of their first appearance. -/
def loadOrder : List Str := Dict.firsts (bins.flatMap fun f => f.2.loaded.map Section.name)

/-- The sections of all files, in the order in which they stand in memory. -/
def placed : List Placed :=
  (loadOrder bins).flatMap fun name => bins.flatMap fun f =>
    (f.2.loaded.filter fun sec => sec.name = name).map fun sec => ⟨f.1, f.2, sec⟩

/-- The sections with their addresses. -/
def memoryMap : List (Placed × ℕ) := starts Placed.length 0 (placed bins)

/-- The symbols with their addresses. -/
def symbolTable : List (Label × ℕ) := (memoryMap bins).flatMap fun b => b.1.symbols b.2

/-- What a name means in a file: a symbol of the file, if there is one, or else a global symbol. -/
def Means (fle symb : Str) (a : ℕ) : Prop :=
  (.ofFile fle symb, a) ∈ symbolTable bins ∨
    (∀ p, (.ofFile fle symb, p) ∉ symbolTable bins) ∧ (.ofAll symb, a) ∈ symbolTable bins

/-- Binaries that the tools can make a program of. -/
structure WellFormed : Prop where
  names_nodup : ∀ f ∈ bins, (f.2.loaded.map Section.name).Nodup
  /-- No table of another section is taken for a table of the section. -/
  own_tables : ∀ x ∈ placed bins, ∀ t ∈ x.bin.tables, t.head.name ≠ x.sec.name →
    ¬ (rela ++ x.sec.name) <:+: t.head.line
  /-- The tables of a section show relocations, each for a name that means something. -/
  relas : ∀ x ∈ placed bins, ∃ rs, Shown x.lines rs ∧ x.Fits rs ∧ ∀ r ∈ rs, Plain r.name ∧
    -2 ^ 30 < r.addend ∧ r.addend < 2 ^ 30 ∧ r.name ≠ "__debug__".toList ∧
      ∃ a, Means bins x.fle r.name a
  symbols_plain : ∀ e ∈ symbolTable bins, Plain e.1.name
  /-- No global symbol is defined twice. -/
  global_once : ((symbolTable bins).filterMap fun e => e.1.global?).Nodup
  /-- No symbol of a file has two addresses. -/
  local_one : ∀ e ∈ symbolTable bins, ∀ e' ∈ symbolTable bins, e.1 = e'.1 → e.1.global? = none →
    e.2 = e'.2
  size_lt : ((placed bins).map Placed.length).sum < 2 ^ 30

end Program

end Jyyos.Fle
