import Jyyos.Labyrinth.Basic

/-!
# The array accesses of `dfs`

`dfs` of `labyrinth.c` once more, with a record of every access to `map` and to `visited` in the
order in which they are made.  The record changes nothing in the search (`Equiv/Dfs.lean`).
-/

namespace Jyyos.Labyrinth

/-- An access to `map[row][col]` or to `visited[row][col]`. -/
inductive Access where
  | map (row col : ℤ)
  | visited (row col : ℤ)
deriving DecidableEq, Repr

/-- The access is to a cell of the array, which has `MAX_ROWS` rows of `MAX_COLS` cells. -/
def Access.InBounds : Access → Prop
  | .map row col | .visited row col => 0 ≤ row ∧ row < MAX_ROWS ∧ 0 ≤ col ∧ col < MAX_COLS

/-- The reads of `isEmptySpaceorUser`: none out of range, and a second one if the first does not
find a dot. -/
def openReads (l : Labyrinth) (row col : ℤ) : List Access :=
  if row < 0 ∨ l.rows ≤ row ∨ col < 0 ∨ l.cols ≤ col then []
  else if l.cell row col == dot then [.map row col]
  else [.map row col, .map row col]

/-- `dfs` with the record of its accesses. -/
def dfsLog (l : Labyrinth) :
    ℕ → ℤ → ℤ → Visited × List Access → Option (Visited × List Access)
  | 0, _, _, _ => none
  | fuel + 1, row, col, s =>
    directions.foldlM (fun s d =>
      let newRow := row + d.1
      let newCol := col + d.2
      let log := s.2 ++ l.openReads newRow newCol
      if l.isEmptySpaceorUser newRow newCol then
        let log := log ++ [.visited newRow newCol]
        if !s.1 ⟨newRow, newCol⟩ then dfsLog l fuel newRow newCol (s.1, log)
        else some (s.1, log)
      else some (s.1, log))
      (Function.update s.1 ⟨row, col⟩ true, s.2 ++ [.visited row col])

end Jyyos.Labyrinth
