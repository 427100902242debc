import Jyyos.Algorithm.Layout
import Jyyos.Fle.Ld

/-!
# What a linked image is

The purpose of the linker, in the terms of `Algorithm/Layout.lean` and without its two passes and
its table of strings.  The items of the input files follow each other section by section and, in a
section, file by file; labels and relocation fields are pieces of a layout, so that every label has
a position; and the field for the name `S` in the file `f` holds the distance, plus a constant, from
the field to the label that `S` means in `f`.
-/

namespace Jyyos.Fle

open Layout

/-- A label: of one file, or global. -/
inductive Label where
  | ofFile (fle symb : Str)
  | ofAll (symb : Str)
deriving DecidableEq, Repr

/-- The name of a global label. -/
def Label.global? : Label → Option Str
  | .ofAll symb => some symb
  | .ofFile _ _ => none

/-- A relocation field: the name, meant as in the file, and the constant to be added. -/
structure Field where
  fle : Str
  name : Str
  addend : ℤ
deriving DecidableEq, Repr

/-- The name and the constant of an expression `i32(S + c - 📍)` or `i32(S - c - 📍)`. -/
def Expr.target : Expr → Option (Str × ℤ)
  | .call (.name f) (.sub (.add (.name s) (.const c)) .current) =>
    if f = "i32".toList then some (s, c) else none
  | .call (.name f) (.sub (.sub (.name s) (.const c)) .current) =>
    if f = "i32".toList then some (s, -c) else none
  | _ => none

/-- The piece of the layout that an item of the file `fle` is. -/
def toPiece (fle : Str) : Item → Option (Piece Label Field)
  | .globalLabel symb => some (.label (.ofAll symb))
  | .localLabel symb => some (.label (.ofFile fle symb))
  | .bytes xs => (PyStr.fromhex xs).map .data
  | .reloc expr => expr.target.map fun t => .field ⟨fle, t.1, t.2⟩
  | .other => none

/-! ### The order of the items -/

/-- The names of the sections, in the order of their first appearance. -/
def sectionNames (objs : List (Str × Obj)) : List Str :=
  Dict.firsts (objs.flatMap fun f => f.2.entries.keys.filter isSection)

/-- The items of a section of a file, after the label for the section itself. -/
def sectionItems (fle secName : Str) (body : List Item) : List (Str × Item) :=
  (fle, .localLabel (sectionLabel secName)) :: body.map fun item => (fle, item)

/-- All items with their files, section by section and file by file. -/
def items (objs : List (Str × Obj)) : List (Str × Item) :=
  (sectionNames objs).flatMap fun secName =>
    objs.flatMap fun f =>
      (f.2.entries.get? secName).toList.flatMap (sectionItems f.1 secName)

/-- The pieces of the image. -/
def layout (objs : List (Str × Obj)) : List (Piece Label Field) :=
  (items objs).filterMap fun x => toPiece x.1 x.2

/-! ### Positions and contents -/

/-- The width of a field. -/
def fieldWidth : ℕ := 4

/-- The labels with their positions. -/
def labelsOf (objs : List (Str × Obj)) : List (Label × ℕ) := labels fieldWidth 0 (layout objs)

/-- What a name means in a file: the position of the label of the file, if there is one, and of
the global label otherwise. -/
def addr (objs : List (Str × Obj)) (fle symb : Str) : ℕ :=
  match Dict.find (.ofFile fle symb) (labelsOf objs) with
  | some p => p
  | none => (Dict.find (.ofAll symb) (labelsOf objs)).getD 0

/-- The four bytes of the two's complement of an integer, lowest first. -/
def littleEndian (x : ℤ) : List UInt8 :=
  (List.range 4).map fun i => ((BitVec.ofInt 32 x).extractLsb' (8 * i) 8).toNat.toUInt8

/-- **The image**: each field holds the distance to what its name means. -/
def linked (objs : List (Str × Obj)) : List UInt8 :=
  image (fun p r => littleEndian (addr objs r.fle r.name + r.addend - p)) fieldWidth 0 (layout objs)

/-! ### What can be linked -/

/-- A name that is not confused with others in the table: no dot, and not the function. -/
def Plain (symb : Str) : Prop := '.' ∉ symb ∧ symb ≠ "i32".toList

/-- The global label that an item defines. -/
def Item.global? : Item → Option Str
  | .globalLabel symb => some symb
  | _ => none

/-- An item that the linker can process. -/
def ItemOk : Item → Prop
  | .globalLabel symb => Plain symb
  | .localLabel symb => Plain symb
  | .bytes xs => (PyStr.fromhex xs).isSome
  | .reloc expr => ∃ t ∈ expr.target, Plain t.1 ∧ -2 ^ 30 < t.2 ∧ t.2 < 2 ^ 30
  | .other => True

instance (symb : Str) : Decidable (Plain symb) := inferInstanceAs (Decidable (_ ∧ _))

instance : (item : Item) → Decidable (ItemOk item)
  | .globalLabel symb => inferInstanceAs (Decidable (Plain symb))
  | .localLabel symb => inferInstanceAs (Decidable (Plain symb))
  | .bytes xs => inferInstanceAs (Decidable ((PyStr.fromhex xs).isSome = true))
  | .reloc expr => inferInstanceAs (Decidable (∃ t ∈ expr.target, _))
  | .other => inferInstanceAs (Decidable True)

/-- Objects that can be linked. -/
structure Linkable (objs : List (Str × Obj)) : Prop where
  items_ok : ∀ f ∈ objs, ∀ e ∈ f.2.entries.entries, isSection e.1 → ∀ item ∈ e.2, ItemOk item
  /-- No global label is defined twice. -/
  global_once : ((items objs).filterMap fun x => x.2.global?).Nodup
  /-- No label of a file has two positions. -/
  local_one : ∀ e ∈ labelsOf objs, ∀ e' ∈ labelsOf objs, e.1 = e'.1 → e.1.global? = none →
    e.2 = e'.2
  /-- Every name means something. -/
  resolved : ∀ r ∈ fields (layout objs),
    (∃ e ∈ labelsOf objs, e.1 = .ofFile r.fle r.name) ∨ ∃ e ∈ labelsOf objs, e.1 = .ofAll r.name
  size_lt : size fieldWidth (layout objs) < 2 ^ 30

end Jyyos.Fle
