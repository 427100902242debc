import Jyyos.Labyrinth.LoadMap

/-!
# Printing the map

The loop of `main` that prints a loaded map, one `printf("%s\n", labyrinth->map[i])` a row.  `%s`
reads on from the first cell of the row to the first NUL of the struct's memory, across the end of
the row and, after the last one, into the fields `rows` and `cols`.
-/

namespace Jyyos.Labyrinth

/-- Byte `k` of a 32-bit `int` in little-endian order. -/
def intByte (v : ℤ) (k : ℕ) : UInt8 := UInt8.ofNat ((v % 2 ^ 32).toNat / 256 ^ k)

/-- The byte at an offset from the start of the struct; `none` past its end. -/
def byteAt (l : Labyrinth) (o : ℕ) : Option UInt8 :=
  if o < MAX_ROWS * MAX_COLS then some (l.map o)
  else if o < MAX_ROWS * MAX_COLS + 4 then some (intByte l.rows (o - MAX_ROWS * MAX_COLS))
  else if o < MAX_ROWS * MAX_COLS + 8 then some (intByte l.cols (o - MAX_ROWS * MAX_COLS - 4))
  else none

/-- The C string that starts at an offset, looked for in `fuel` bytes; `none` when no NUL ends it
within the struct. -/
def stringAt (l : Labyrinth) : ℕ → ℕ → Option CStr
  | 0, _ => none
  | fuel + 1, o =>
    match l.byteAt o with
    | none => none
    | some b => if b = 0 then some [] else (l.stringAt fuel (o + 1)).map (b :: ·)

/-- The size of the struct. -/
def structSize : ℕ := MAX_ROWS * MAX_COLS + 8

/-- What the loop prints for the rows `is`. -/
def printRows (l : Labyrinth) : List ℕ → Option (List UInt8)
  | [] => some []
  | i :: is =>
    match l.stringAt structSize (i * MAX_COLS) with
    | none => none
    | some s => (l.printRows is).map (s ++ newline :: ·)

/-- What the loop prints for `i = 0, …, rows - 1`. -/
def printMap (l : Labyrinth) : Option (List UInt8) := l.printRows (List.range l.rows.toNat)

end Jyyos.Labyrinth
