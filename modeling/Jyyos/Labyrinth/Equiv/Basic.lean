import Jyyos.Labyrinth.Basic
import Mathlib.Data.List.Range
import Mathlib.Tactic.Common

/-!
# The cells of a labyrinth

Lemmas about `cell`, `set`, `cells` and the scans for a labyrinth that fits its array
(`Labyrinth.Fits`).  `Inside` is the range of the nested loops; on it the offset in the struct is
injective, so a store to one cell leaves the others alone (`get_put_of_ne`), and
`findCell` returns the first cell that holds the character (`findCell_cases`).
-/

namespace Jyyos.Labyrinth

/-- The map has at most `MAX_ROWS` rows and `MAX_COLS` columns. -/
structure Fits (l : Labyrinth) : Prop where
  rows_le : l.rows ≤ 100
  cols_le : l.cols ≤ 100

/-- `p` is a cell of the map. -/
structure Inside (l : Labyrinth) (p : Position) : Prop where
  row_nonneg : 0 ≤ p.row
  row_lt : p.row < l.rows
  col_nonneg : 0 ≤ p.col
  col_lt : p.col < l.cols

/-- The character at a position. -/
def get (l : Labyrinth) (p : Position) : UInt8 := l.cell p.row p.col

/-- The map with the character at a position replaced. -/
def put (l : Labyrinth) (p : Position) (b : UInt8) : Labyrinth := l.set p.row p.col b

theorem offset_eq (row col : ℤ) : offset row col = (row * 100 + col).toNat := rfl

section Cells

variable {l : Labyrinth} {p q : Position}

theorem Inside.offset_lt (hp : l.Inside p) (hl : l.Fits) : offset p.row p.col < 10000 := by
  obtain ⟨h1, h2, h3, h4⟩ := hp
  obtain ⟨h5, h6⟩ := hl
  rw [offset_eq]
  omega

theorem Inside.offset_inj (hp : l.Inside p) (hq : l.Inside q) (hl : l.Fits)
    (h : offset p.row p.col = offset q.row q.col) : p = q := by
  obtain ⟨h1, h2, h3, h4⟩ := hp
  obtain ⟨h5, h6, h7, h8⟩ := hq
  obtain ⟨h9, h10⟩ := hl
  obtain ⟨pr, pc⟩ := p
  obtain ⟨qr, qc⟩ := q
  simp only [offset_eq] at h1 h2 h3 h4 h5 h6 h7 h8 h
  rw [Position.mk.injEq]
  omega

theorem mem_cells : p ∈ l.cells ↔ l.Inside p := by
  obtain ⟨r, c⟩ := p
  simp only [cells, List.mem_flatMap, List.mem_map, List.mem_range, Position.mk.injEq]
  constructor
  · rintro ⟨i, hi, j, hj, rfl, rfl⟩
    exact ⟨by simp, by simp only; omega, by simp, by simp only; omega⟩
  · rintro ⟨h1, h2, h3, h4⟩
    simp only at h1 h2 h3 h4
    exact ⟨r.toNat, by omega, c.toNat, by omega, by omega, by omega⟩

/-- A store to a cell of the map is an update of the array and of nothing else. -/
theorem put_eq (hp : l.Inside p) (hl : l.Fits) (b : UInt8) :
    l.put p b = { l with map := Function.update l.map (offset p.row p.col) b } := by
  have h : offset p.row p.col < MAX_ROWS * MAX_COLS := hp.offset_lt hl
  rw [put, set, store, if_pos h]

theorem rows_put (hp : l.Inside p) (hl : l.Fits) (b : UInt8) : (l.put p b).rows = l.rows := by
  rw [put_eq hp hl]

theorem cols_put (hp : l.Inside p) (hl : l.Fits) (b : UInt8) : (l.put p b).cols = l.cols := by
  rw [put_eq hp hl]

theorem inside_put (hp : l.Inside p) (hl : l.Fits) (b : UInt8) :
    (l.put p b).Inside q ↔ l.Inside q := by
  constructor
  · rintro ⟨h1, h2, h3, h4⟩
    rw [rows_put hp hl] at h2
    rw [cols_put hp hl] at h4
    exact ⟨h1, h2, h3, h4⟩
  · rintro ⟨h1, h2, h3, h4⟩
    exact ⟨h1, by rw [rows_put hp hl]; exact h2, h3, by rw [cols_put hp hl]; exact h4⟩

theorem fits_put (hp : l.Inside p) (hl : l.Fits) (b : UInt8) : (l.put p b).Fits :=
  ⟨by rw [rows_put hp hl]; exact hl.rows_le, by rw [cols_put hp hl]; exact hl.cols_le⟩

theorem get_put_self (hp : l.Inside p) (hl : l.Fits) (b : UInt8) : (l.put p b).get p = b := by
  rw [put_eq hp hl]
  exact Function.update_self ..

theorem get_put_of_ne (hp : l.Inside p) (hq : l.Inside q) (hl : l.Fits) (hne : q ≠ p) (b : UInt8) :
    (l.put p b).get q = l.get q := by
  rw [put_eq hp hl]
  exact Function.update_of_ne (fun h => hne (hq.offset_inj hp hl h)) ..

/-- A scan fails with `(-1, -1)` and no cell holds the character, or it returns a cell that
does. -/
theorem findCell_cases (l : Labyrinth) (c : UInt8) :
    (l.findCell c = ⟨-1, -1⟩ ∧ ∀ q, l.Inside q → l.get q ≠ c) ∨
      (l.Inside (l.findCell c) ∧ l.get (l.findCell c) = c) := by
  unfold findCell
  cases hf : l.cells.find? fun p => l.cell p.row p.col == c with
  | none =>
    left
    refine ⟨rfl, fun q hq => ?_⟩
    have h := List.find?_eq_none.mp hf q (mem_cells.mpr hq)
    simpa [get] using h
  | some p =>
    right
    rw [Option.getD_some]
    have h := List.find?_some hf
    exact ⟨mem_cells.mp (List.mem_of_find?_eq_some hf), by simpa [get] using h⟩

/-- The failure value of a scan is told apart from a cell by either coordinate. -/
theorem Inside.ne_none (hp : l.Inside p) : p.row ≠ -1 ∧ p.col ≠ -1 := by
  obtain ⟨h1, -, h3, -⟩ := hp
  exact ⟨by omega, by omega⟩

theorem findCell_eq_none_iff (l : Labyrinth) (c : UInt8) :
    (l.findCell c).row = -1 ∧ (l.findCell c).col = -1 ↔ ∀ q, l.Inside q → l.get q ≠ c := by
  rcases findCell_cases l c with ⟨h, hnone⟩ | ⟨hin, hc⟩
  · rw [h]
    exact ⟨fun _ => hnone, fun _ => ⟨rfl, rfl⟩⟩
  · refine ⟨fun h => absurd h.1 hin.ne_none.1, fun h => ?_⟩
    exact absurd hc (h _ hin)

/-- The scan finds the only cell that holds the character. -/
theorem findCell_eq_of_unique (hp : l.Inside p) {c : UInt8} (hc : l.get p = c)
    (huniq : ∀ q, l.Inside q → l.get q = c → q = p) : l.findCell c = p := by
  rcases findCell_cases l c with ⟨-, hnone⟩ | ⟨hin, hat⟩
  · exact absurd hc (hnone p hp)
  · exact huniq _ hin hat

end Cells

/-! ### Open cells -/

/-- A character that stands for an open cell: a dot or a player. -/
def isOpen (b : UInt8) : Bool := b == dot || isValidPlayer b

theorem isOpen_dot : isOpen dot = true := by decide

theorem isOpen_of_player {b : UInt8} (h : isValidPlayer b = true) : isOpen b = true := by
  simp [isOpen, h]

theorem isEmptySpace_iff (l : Labyrinth) (p : Position) :
    l.isEmptySpace p.row p.col = true ↔ l.Inside p ∧ l.get p = dot := by
  unfold isEmptySpace
  split_ifs with h
  · simp only [false_iff, not_and]
    intro hin
    obtain ⟨h1, h2, h3, h4⟩ := hin
    omega
  · have hin : l.Inside p := ⟨by omega, by omega, by omega, by omega⟩
    simp [hin, get]

theorem isEmptySpaceorUser_iff (l : Labyrinth) (p : Position) :
    l.isEmptySpaceorUser p.row p.col = true ↔ l.Inside p ∧ isOpen (l.get p) = true := by
  unfold isEmptySpaceorUser
  split_ifs with h
  · simp only [false_iff, not_and]
    intro hin
    obtain ⟨h1, h2, h3, h4⟩ := hin
    omega
  · have hin : l.Inside p := ⟨by omega, by omega, by omega, by omega⟩
    simp [hin, get, isOpen]

end Jyyos.Labyrinth
