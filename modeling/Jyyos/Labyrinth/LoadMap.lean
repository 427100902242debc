import Jyyos.Labyrinth.Basic

/-!
# Reading and writing the map file

`loadMap` and `saveMap` of `labyrinth.c`.  A file is the list of its bytes.  `loadMap` fills a
struct that comes from `malloc`, so its earlier contents are an argument; `none` stands for a
result of `false` (what was stored in the struct is then freed unread).
-/

namespace Jyyos.Labyrinth

/-- `strncpy(map[row], buffer, len)` for a buffer with no NUL among its first `len` characters:
the characters go to consecutive offsets. -/
def strncpy (l : Labyrinth) (o : ℕ) : List UInt8 → Labyrinth
  | [] => l
  | c :: cs => strncpy (l.store o c) (o + 1) cs

/-- One pass of the reading loop for a line that `fgets` has put in the buffer: the number of
characters kept, and the row stored and terminated. -/
def loadRow (l : Labyrinth) (rows : ℕ) (buffer : List UInt8) : ℕ × Labyrinth :=
  let line := chomp (cstrOf buffer)
  (line.length, (l.strncpy (rows * MAX_COLS) line).store (rows * MAX_COLS + line.length) 0)

/-- The reading loop of `loadMap`, entered with `left = MAX_ROWS - rows`: it ends at the end of
the file or when `rows` reaches `MAX_ROWS`. -/
def loadLoop : ℕ → List UInt8 → ℕ → ℕ → Labyrinth → ℕ × ℕ × Labyrinth
  | 0, _, rows, maxCols, l => (rows, maxCols, l)
  | left + 1, file, rows, maxCols, l =>
    match fgets (MAX_COLS + 1) file with
    | none => (rows, maxCols, l)
    | some (buffer, file) =>
      let (len, l) := l.loadRow rows buffer
      loadLoop left file (rows + 1) (if len > maxCols then len else maxCols) l

/-- `loadMap` on the opened file (`none`: it could not be opened) and the struct `l`. -/
def loadMap (l : Labyrinth) (file : Option (List UInt8)) : Option Labyrinth :=
  match file with
  | none => none
  | some content =>
    let (rows, maxCols, l) := loadLoop MAX_ROWS content 0 0 l
    if rows = 0 ∨ maxCols = 0 then none
    else if rows > MAX_ROWS ∨ maxCols > MAX_COLS then none
    else some { l with rows := rows, cols := maxCols }

/-- The bytes that `saveMap` writes. -/
def saveMap (l : Labyrinth) : List UInt8 :=
  (List.range l.rows.toNat).flatMap fun i : ℕ =>
    ((List.range l.cols.toNat).map fun j : ℕ => l.cell i j) ++ [newline]

end Jyyos.Labyrinth
