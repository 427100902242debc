import Jyyos.CStr
import Mathlib.Logic.Function.Basic
import Mathlib.Data.Int.Init
import Mathlib.Algebra.Group.Int.Defs
import Mathlib.Algebra.Group.Nat.Defs

/-!
# The labyrinth

The data model of `minilab/labyrinth/labyrinth.h` and the functions of `labyrinth.c` that work on
a loaded map: the two scans, the two open-cell tests, `movePlayer`, the depth-first search and
`isConnected`.

The field `map` is the flat memory it is in the struct, so `map[r][c]` is the byte at offset
`100 r + c` and a store past the end of a row lands in the next one; past the last row it lands in
the field `rows` (`Labyrinth.store`).  The progress messages are left out.
-/

namespace Jyyos

/-- The struct `Labyrinth`; `map` gives the bytes of the array by their offset in the struct. -/
structure Labyrinth where
  map : ℕ → UInt8
  rows : ℤ
  cols : ℤ

structure Position where
  row : ℤ
  col : ℤ
deriving DecidableEq, Repr

namespace Labyrinth

def MAX_ROWS : ℕ := 100

def MAX_COLS : ℕ := 100

/-- The offset of `map[row][col]` in the struct. -/
def offset (row col : ℤ) : ℕ := (row * MAX_COLS + col).toNat

/-- Byte `k` of a 32-bit `int` in little-endian order replaced by `b`. -/
def setByte (v : ℤ) (k : ℕ) (b : UInt8) : ℤ :=
  let u := (v % 2 ^ 32).toNat
  let u' := u - u / 256 ^ k % 256 * 256 ^ k + b.toNat * 256 ^ k
  (u' : ℤ).bmod (2 ^ 32)

/-- The value of `map[row][col]`. -/
def cell (l : Labyrinth) (row col : ℤ) : UInt8 := l.map (offset row col)

/-- A byte store at an offset from the start of the struct: beyond the array it changes `rows`
and, four bytes later, `cols`. -/
def store (l : Labyrinth) (o : ℕ) (b : UInt8) : Labyrinth :=
  if o < MAX_ROWS * MAX_COLS then { l with map := Function.update l.map o b }
  else if o < MAX_ROWS * MAX_COLS + 4 then
    { l with rows := setByte l.rows (o - MAX_ROWS * MAX_COLS) b }
  else { l with cols := setByte l.cols (o - MAX_ROWS * MAX_COLS - 4) b }

/-- The assignment `map[row][col] = b`. -/
def set (l : Labyrinth) (row col : ℤ) (b : UInt8) : Labyrinth := l.store (offset row col) b

/-- The cells of the map in the order of the nested `for` loops. -/
def cells (l : Labyrinth) : List Position :=
  (List.range l.rows.toNat).flatMap fun i : ℕ =>
    (List.range l.cols.toNat).map fun j : ℕ => ⟨i, j⟩

/-- The nested scan shared by `findPlayer` and `findFirstEmptySpace`: the first cell that holds
`c`, or `(-1, -1)`. -/
def findCell (l : Labyrinth) (c : UInt8) : Position :=
  (l.cells.find? fun p => l.cell p.row p.col == c).getD ⟨-1, -1⟩

/-- The character of an empty cell. -/
def dot : UInt8 := '.'.toUInt8

def isValidPlayer (playerId : UInt8) : Bool :=
  '0'.toUInt8 ≤ playerId && playerId ≤ '9'.toUInt8

def findPlayer (l : Labyrinth) (playerId : UInt8) : Position := l.findCell playerId

def findFirstEmptySpace (l : Labyrinth) : Position := l.findCell dot

def isEmptySpace (l : Labyrinth) (row col : ℤ) : Bool :=
  if row < 0 ∨ l.rows ≤ row ∨ col < 0 ∨ l.cols ≤ col then false
  else l.cell row col == dot

def isEmptySpaceorUser (l : Labyrinth) (row col : ℤ) : Bool :=
  if row < 0 ∨ l.rows ≤ row ∨ col < 0 ∨ l.cols ≤ col then false
  else l.cell row col == dot || isValidPlayer (l.cell row col)

/-! ### Moving a player -/

/-- The body of the four direction branches of `movePlayer`: step on `(row, col)` if it is empty
and clear the old place. -/
def stepTo (l : Labyrinth) (playerId : UInt8) (playerPos : Position) (row col : ℤ) :
    Bool × Labyrinth :=
  if l.isEmptySpace row col then
    (true, (l.set row col playerId).set playerPos.row playerPos.col dot)
  else (false, l)

/-- Place an absent player on the first empty cell, otherwise move him. -/
def movePlayer (l : Labyrinth) (playerId : UInt8) (direction : CStr) : Bool × Labyrinth :=
  let playerPos := l.findPlayer playerId
  if playerPos.row = -1 ∧ playerPos.col = -1 then
    let emptySpace := l.findFirstEmptySpace
    if emptySpace.row ≠ -1 ∧ emptySpace.col ≠ -1 then
      (true, l.set emptySpace.row emptySpace.col playerId)
    else (false, l)
  else if direction = cstr ['u', 'p'] then
    l.stepTo playerId playerPos (playerPos.row - 1) playerPos.col
  else if direction = cstr ['d', 'o', 'w', 'n'] then
    l.stepTo playerId playerPos (playerPos.row + 1) playerPos.col
  else if direction = cstr ['l', 'e', 'f', 't'] then
    l.stepTo playerId playerPos playerPos.row (playerPos.col - 1)
  else if direction = cstr ['r', 'i', 'g', 'h', 't'] then
    l.stepTo playerId playerPos playerPos.row (playerPos.col + 1)
  else (false, l)

/-! ### Connectivity -/

/-- The array `visited[MAX_ROWS][MAX_COLS]`. -/
abbrev Visited := Position → Bool

/-- The table `directions`: up, down, left, right. -/
def directions : List (ℤ × ℤ) := [(-1, 0), (1, 0), (0, -1), (0, 1)]

/-- The recursive search.  `fuel` bounds the depth of the calls; `none` means that it was too
small, which `Equiv/Connected.lean` rules out for the fuel that `isConnected` passes. -/
def dfs (l : Labyrinth) : ℕ → ℤ → ℤ → Visited → Option Visited
  | 0, _, _, _ => none
  | fuel + 1, row, col, visited =>
    directions.foldlM (fun visited d =>
      let newRow := row + d.1
      let newCol := col + d.2
      if l.isEmptySpaceorUser newRow newCol && !visited ⟨newRow, newCol⟩ then
        dfs l fuel newRow newCol visited
      else some visited) (Function.update visited ⟨row, col⟩ true)

/-- Enough fuel for every map that fits the array. -/
def dfsFuel : ℕ := MAX_ROWS * MAX_COLS + 1

def isConnected (l : Labyrinth) : Bool :=
  let start := l.findFirstEmptySpace
  if start.row = -1 ∧ start.col = -1 then true
  else
    match l.dfs dfsFuel start.row start.col (fun _ => false) with
    | none => false
    | some visited =>
      l.cells.all fun p =>
        !((l.cell p.row p.col == dot || isValidPlayer (l.cell p.row p.col)) && !visited p)

end Labyrinth

end Jyyos
