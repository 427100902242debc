import Jyyos.Fle.Basic

/-!
# Cutting a section into items

The emission loop of `elf_to_fle`: it goes through the bytes of a section and writes labels where
symbols stand, relocations in place of the four bytes of their fields, and the other bytes in items
of at most sixteen.  What the binutils report has been parsed before: the symbols of the binary and
the relocations of the section, by offset.
-/

namespace Jyyos.Fle

/-- The letter for the binding of a symbol. -/
inductive SymbType where
  | l
  | g
deriving DecidableEq, Repr

/-- The tuple `Symbol`; `sec` is its `section`. -/
structure Symbol where
  symbType : SymbType
  sec : Str
  offset : ℕ
  name : Str
deriving DecidableEq, Repr

/-- What the loop reads: the name and the bytes of the section, the symbols of the binary, and the
relocations of the section. -/
structure Elf where
  sec : Str
  sectionData : List UInt8
  symbols : List Symbol
  relocations : Dict ℕ Expr

/-- The number of bytes that a relocation takes the place of, the `4` in every entry of the table
`relocations`. -/
def relocSkip : ℕ := 4

/-- The variables of the loop. -/
structure Emit where
  res : List Item
  skip : ℕ
  holding : List UInt8

namespace Emit

/-- Write an item for the bytes held, if there are any. -/
def dump (s : Emit) : Emit :=
  if s.holding = [] then s
  else { s with
    res := s.res ++ [.bytes (PyStr.join ' ' (s.holding.map PyStr.hex2))]
    holding := [] }

/-- Write the label for a symbol. -/
def label (s : Emit) (sym : Symbol) : Emit :=
  { s.dump with res := s.dump.res ++
      [if sym.symbType = .l then .localLabel sym.name else .globalLabel sym.name] }

/-- The loop over the symbols at the offset `i`. -/
def labels (elf : Elf) (s : Emit) (i : ℕ) : Emit :=
  elf.symbols.foldl (fun s sym => if sym.sec = elf.sec ∧ sym.offset = i then s.label sym else s) s

/-- The relocation at the offset `i`, if there is one. -/
def reloc (elf : Elf) (s : Emit) (i : ℕ) : Emit :=
  match elf.relocations.get? i with
  | none => s
  | some expr => { s.dump with res := s.dump.res ++ [.reloc expr], skip := relocSkip }

/-- The byte itself: skipped, or held. -/
def byte (s : Emit) (b : UInt8) : Emit :=
  if s.skip > 0 then { s with skip := s.skip - 1 }
  else
    let s := { s with holding := s.holding ++ [b] }
    if s.holding.length = 16 then s.dump else s

/-- The body of the loop. -/
def step (elf : Elf) (s : Emit) (x : UInt8 × ℕ) : Emit :=
  (((s.labels elf x.2).reloc elf x.2)).byte x.1

end Emit

/-- The loop over the bytes and the last `dump`. -/
def elfToFle (elf : Elf) : List Item :=
  (elf.sectionData.zipIdx.foldl (Emit.step elf) ⟨[], 0, []⟩).dump.res

end Jyyos.Fle
