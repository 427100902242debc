import Jyyos.Labyrinth.Equiv.Lines
import Jyyos.Labyrinth.Equiv.Connected
import Mathlib.Data.List.Find

/-!
# What is left in the struct

`malloc` does not clear the struct, and `loadMap` writes each row and its terminator only.  In a
map whose rows differ in length the cells between the terminator of a short row and the width of
the map keep what the memory held, and every scan, the search and `saveMap` read them.

Two structs with the same cells (`SameCells`) are the same for the functions that work on them
(`SameCells.sameGame`).  `loadMap_independent_iff`: the game depends on the file alone exactly if
no row is shorter than the longest by more than one cell, the one that the terminator takes.
-/

namespace Jyyos.Labyrinth

/-- The two maps have the same cells. -/
structure SameCells (l₁ l₂ : Labyrinth) : Prop where
  rows : l₁.rows = l₂.rows
  cols : l₁.cols = l₂.cols
  get : ∀ q, l₁.Inside q → l₁.get q = l₂.get q

/-- The two maps cannot be told apart by the functions of the game. -/
structure SameGame (l₁ l₂ : Labyrinth) : Prop where
  findPlayer : ∀ p, isValidPlayer p = true → l₁.findPlayer p = l₂.findPlayer p
  isConnected : l₁.isConnected = l₂.isConnected
  movePlayer : ∀ p, isValidPlayer p = true → ∀ d : Direction,
    (l₁.movePlayer p d.name).1 = (l₂.movePlayer p d.name).1
  moved : ∀ p, isValidPlayer p = true → ∀ d : Direction,
    (l₁.movePlayer p d.name).2.saveMap = (l₂.movePlayer p d.name).2.saveMap
  saveMap : l₁.saveMap = l₂.saveMap

namespace SameCells

variable {l₁ l₂ : Labyrinth}

theorem inside_iff (h : SameCells l₁ l₂) (q : Position) : l₁.Inside q ↔ l₂.Inside q := by
  constructor
  · rintro ⟨h1, h2, h3, h4⟩
    exact ⟨h1, h.rows ▸ h2, h3, h.cols ▸ h4⟩
  · rintro ⟨h1, h2, h3, h4⟩
    exact ⟨h1, h.rows.symm ▸ h2, h3, h.cols.symm ▸ h4⟩

theorem fits (h : SameCells l₁ l₂) (hl : l₁.Fits) : l₂.Fits :=
  ⟨h.rows ▸ hl.rows_le, h.cols ▸ hl.cols_le⟩

theorem findCell_eq (h : SameCells l₁ l₂) (c : UInt8) : l₁.findCell c = l₂.findCell c := by
  have hcells : l₁.cells = l₂.cells := by rw [cells, cells, h.rows, h.cols]
  rw [findCell, findCell, ← hcells]
  congr 1
  refine List.find?_congr fun q hq => ?_
  have hget : l₁.cell q.row q.col = l₂.cell q.row q.col := h.get q (mem_cells.mp hq)
  rw [hget]

theorem isEmptySpace_eq (h : SameCells l₁ l₂) (q : Position) :
    l₁.isEmptySpace q.row q.col = l₂.isEmptySpace q.row q.col := by
  rw [Bool.eq_iff_iff, isEmptySpace_iff, isEmptySpace_iff, ← h.inside_iff]
  exact and_congr_right fun hq => by rw [h.get q hq]

theorem put (h : SameCells l₁ l₂) (hl : l₁.Fits) {p : Position} (hp : l₁.Inside p) (b : UInt8) :
    SameCells (l₁.put p b) (l₂.put p b) := by
  have hp₂ := (h.inside_iff p).mp hp
  have hl₂ := h.fits hl
  refine ⟨?_, ?_, fun q hq => ?_⟩
  · rw [rows_put hp hl, rows_put hp₂ hl₂, h.rows]
  · rw [cols_put hp hl, cols_put hp₂ hl₂, h.cols]
  · rw [inside_put hp hl] at hq
    by_cases hqp : q = p
    · rw [hqp, get_put_self hp hl, get_put_self hp₂ hl₂]
    · have hq₂ := (h.inside_iff q).mp hq
      rw [get_put_of_ne hp hq hl hqp, get_put_of_ne hp₂ hq₂ hl₂ hqp, h.get q hq]

/-- A call of `movePlayer` does the same to both maps. -/
theorem movePlayer (h : SameCells l₁ l₂) (hl : l₁.Fits) (p : UInt8) (d : Direction) :
    (l₁.movePlayer p d.name).1 = (l₂.movePlayer p d.name).1 ∧
      SameCells (l₁.movePlayer p d.name).2 (l₂.movePlayer p d.name).2 := by
  have hfind := h.findCell_eq p
  rcases findCell_cases l₁ p with ⟨hnone, -⟩ | ⟨hin, -⟩
  · unfold Labyrinth.movePlayer findPlayer findFirstEmptySpace
    rw [← hfind, hnone, ← h.findCell_eq dot]
    simp only [and_self, ↓reduceIte]
    split_ifs with hempty
    · rcases findCell_cases l₁ dot with ⟨hd, -⟩ | ⟨hdin, -⟩
      · rw [hd] at hempty
        exact absurd rfl hempty.1
      · exact ⟨rfl, h.put hl hdin p⟩
    · exact ⟨rfl, h⟩
  · have hin₂ : l₂.Inside (l₂.findPlayer p) := by
      rw [findPlayer, ← hfind]
      exact (h.inside_iff _).mp hin
    have heq : l₂.findPlayer p = l₁.findPlayer p := hfind.symm
    rw [movePlayer_direction hin, movePlayer_direction hin₂, stepTo_shift, stepTo_shift, heq,
      ← h.isEmptySpace_eq]
    split_ifs with hempty
    · have hQ := ((isEmptySpace_iff l₁ _).mp hempty).1
      exact ⟨rfl, (h.put hl hQ p).put (fits_put hQ hl p) ((inside_put hQ hl p).mpr hin) dot⟩
    · exact ⟨rfl, h⟩

theorem saveMap_eq (h : SameCells l₁ l₂) : l₁.saveMap = l₂.saveMap := by
  unfold saveMap
  rw [← h.rows, ← h.cols]
  refine List.flatMap_congr fun i hi => ?_
  congr 1
  refine List.map_congr_left fun j hj => ?_
  rw [List.mem_range] at hi hj
  exact h.get ⟨i, j⟩ ⟨by simp, by simp only; omega, by simp, by simp only; omega⟩

/-- **Maps with the same cells are the same game.** -/
theorem sameGame (h : SameCells l₁ l₂) (hl : l₁.Fits) : SameGame l₁ l₂ where
  findPlayer p _ := h.findCell_eq p
  isConnected := isConnected_congr (h.fits hl) h.rows h.cols
    fun q hq => h.get q ((h.inside_iff q).mpr hq)
  movePlayer p _ d := (h.movePlayer hl p d).1
  moved p _ d := (h.movePlayer hl p d).2.saveMap_eq
  saveMap := h.saveMap_eq

end SameCells

/-- Concatenations of blocks of the same lengths are equal only if the blocks are. -/
theorem flatMap_inj {α β : Type} {f g : α → List β} (hlen : ∀ x, (f x).length = (g x).length) :
    ∀ {xs : List α}, xs.flatMap f = xs.flatMap g → ∀ x ∈ xs, f x = g x := by
  intro xs
  induction xs with
  | nil => exact fun _ x hx => nomatch hx
  | cons y xs ih =>
    intro h x hx
    rw [List.flatMap_cons, List.flatMap_cons] at h
    obtain ⟨hy, hrest⟩ := List.append_inj h (hlen y)
    rcases List.mem_cons.mp hx with rfl | hx
    · exact hy
    · exact ih hrest x hx

/-- `saveMap` writes every cell of the map. -/
theorem cell_eq_of_saveMap {l₁ l₂ : Labyrinth} (hrows : l₁.rows = l₂.rows)
    (hcols : l₁.cols = l₂.cols) (h : l₁.saveMap = l₂.saveMap) {i j : ℕ} (hi : i < l₁.rows)
    (hj : j < l₁.cols) : l₁.cell i j = l₂.cell i j := by
  unfold saveMap at h
  rw [← hrows, ← hcols] at h
  have hrow := flatMap_inj (fun i => by simp) h i (by rw [List.mem_range]; omega)
  have hcells := List.append_cancel_right hrow
  rw [List.map_inj_left] at hcells
  exact hcells j (by rw [List.mem_range]; omega)

/-- What the game does with the file is the same for all contents of the memory that `loadMap`
fills. -/
def Independent (content : List UInt8) : Prop :=
  ∀ mem₁ mem₂ l₁ l₂, loadMap mem₁ (some content) = some l₁ →
    loadMap mem₂ (some content) = some l₂ → SameGame l₁ l₂

/-- An accepted file is accepted whatever the memory holds. -/
theorem loadMap_of_accepted {content : List UInt8} {mem₀ : Labyrinth}
    (h : (loadMap mem₀ (some content)).isSome) (mem : Labyrinth) :
    longest (readRows MAX_ROWS content) ≤ 100 ∧ ∃ l, loadMap mem (some content) = some l ∧
      l.rows = (readRows MAX_ROWS content).length ∧ l.cols = longest (readRows MAX_ROWS content) ∧
      Stored (readRows MAX_ROWS content) 0 mem l := by
  rcases loadMap_cases mem₀ content with ⟨-, hnone⟩ | ⟨hpos, hle, -⟩
  · rw [hnone] at h
    cases h
  · rcases loadMap_cases mem content with ⟨hbad, -⟩ | ⟨-, -, hload⟩
    · omega
    · exact ⟨hle, hload⟩

/-- The cell after the terminator of a row keeps what the memory held. -/
theorem not_independent_of_ragged {content : List UInt8} {mem₀ : Labyrinth}
    (h : (loadMap mem₀ (some content)).isSome) {row : CStr}
    (hrow : row ∈ readRows MAX_ROWS content)
    (hshort : row.length + 1 < longest (readRows MAX_ROWS content)) : ¬ Independent content := by
  intro hind
  obtain ⟨i, hi⟩ := List.mem_iff_getElem?.mp hrow
  have hlt : i < (readRows MAX_ROWS content).length := (List.getElem?_eq_some_iff.mp hi).1
  obtain ⟨hle, l₁, hload₁, hrows₁, hcols₁, hst₁⟩ := loadMap_of_accepted h ⟨fun _ => 0, 0, 0⟩
  obtain ⟨-, l₂, hload₂, hrows₂, hcols₂, hst₂⟩ := loadMap_of_accepted h ⟨fun _ => 1, 0, 0⟩
  have hsave := (hind _ _ l₁ l₂ hload₁ hload₂).saveMap
  have hcell := cell_eq_of_saveMap (hrows₁.trans hrows₂.symm) (hcols₁.trans hcols₂.symm) hsave
    (i := i) (j := row.length + 1) (by omega) (by omega)
  rw [cell, cell, offset_natCast] at hcell
  have h₁ := hst₁.rest i row hi (row.length + 1) (by omega) (by omega)
  have h₂ := hst₂.rest i row hi (row.length + 1) (by omega) (by omega)
  rw [Nat.zero_add] at h₁ h₂
  have hbyte : (0 : UInt8) = 1 := h₁.symm.trans (hcell.trans h₂)
  exact absurd hbyte (by decide)

/-- **When the game depends on the file alone**: exactly when no row is shorter than the longest
one by more than the cell of its terminator. -/
theorem loadMap_independent_iff {content : List UInt8} {mem₀ : Labyrinth}
    (h : (loadMap mem₀ (some content)).isSome) : Independent content ↔
      ∀ row ∈ readRows MAX_ROWS content,
        longest (readRows MAX_ROWS content) ≤ row.length + 1 := by
  constructor
  · intro hind row hrow
    by_contra hshort
    exact not_independent_of_ragged h hrow (not_le.mp hshort) hind
  · intro hwide mem₁ mem₂ l₁ l₂ hload₁ hload₂
    obtain ⟨hle, l₁', hload₁', hrows₁, hcols₁, hst₁⟩ := loadMap_of_accepted h mem₁
    obtain ⟨-, l₂', hload₂', hrows₂, hcols₂, hst₂⟩ := loadMap_of_accepted h mem₂
    obtain rfl : l₁' = l₁ := Option.some.inj (hload₁'.symm.trans hload₁)
    obtain rfl : l₂' = l₂ := Option.some.inj (hload₂'.symm.trans hload₂)
    have hlen := length_readRows_le MAX_ROWS content
    have hmax : MAX_ROWS = 100 := rfl
    have hfits : l₁'.Fits := ⟨by omega, by omega⟩
    refine SameCells.sameGame ⟨hrows₁.trans hrows₂.symm, hcols₁.trans hcols₂.symm, ?_⟩ hfits
    rintro ⟨r, c⟩ ⟨hr0, hr, hc0, hc⟩
    simp only at hr0 hr hc0 hc
    obtain ⟨i, rfl⟩ : ∃ i : ℕ, r = i := ⟨r.toNat, by omega⟩
    obtain ⟨j, rfl⟩ : ∃ j : ℕ, c = j := ⟨c.toNat, by omega⟩
    obtain ⟨row, hi⟩ : ∃ row, (readRows MAX_ROWS content)[i]? = some row :=
      ⟨_, List.getElem?_eq_getElem (by omega)⟩
    have hrow := hwide row (List.mem_of_getElem? hi)
    rw [get, get, cell, cell, offset_natCast]
    -- the cell holds a character of the row, or its terminator
    rcases Nat.lt_or_ge j row.length with hj | hj
    · have hchar := List.getElem?_eq_getElem hj
      have h₁ := hst₁.char i row hi j _ hchar
      have h₂ := hst₂.char i row hi j _ hchar
      rw [Nat.zero_add] at h₁ h₂
      rw [h₁, h₂]
    · obtain rfl : j = row.length := by omega
      have h₁ := hst₁.nul i row hi (by omega)
      have h₂ := hst₂.nul i row hi (by omega)
      rw [Nat.zero_add] at h₁ h₂
      rw [h₁, h₂]

/-- A map of three cells above a single one. -/
def raggedFile : List UInt8 := [dot, dot, dot, newline, dot, newline]

theorem not_independent_raggedFile :
    (loadMap ⟨fun _ => 0, 0, 0⟩ (some raggedFile)).isSome ∧ ¬ Independent raggedFile := by
  have hsome : (loadMap ⟨fun _ => 0, 0, 0⟩ (some raggedFile)).isSome := by
    rw [loadMap_isSome_iff (by decide)]
    decide
  have hrows : readRows MAX_ROWS raggedFile = [[dot, dot, dot], [dot]] := by decide +kernel
  have hmem : [dot] ∈ readRows MAX_ROWS raggedFile := by
    rw [hrows]
    decide
  refine ⟨hsome, not_independent_of_ragged hsome hmem ?_⟩
  rw [hrows]
  decide

/-- A map of two cells above a row of three. -/
def stepFile : List UInt8 := [dot, 49, newline, dot, dot, dot]

theorem loadMap_independent_stepFile : ∃ l₁ l₂,
    loadMap ⟨fun _ => 0, 0, 0⟩ (some stepFile) = some l₁ ∧
      loadMap ⟨fun _ => 1, 0, 0⟩ (some stepFile) = some l₂ ∧ SameGame l₁ l₂ := by
  have hsome : ∀ mem, (loadMap mem (some stepFile)).isSome := by
    intro mem
    rw [loadMap_isSome_iff (by decide)]
    decide
  have hrows : readRows MAX_ROWS stepFile = [[dot, 49], [dot, dot, dot]] := by decide +kernel
  have hind : Independent stepFile := by
    rw [loadMap_independent_iff (hsome ⟨fun _ => 0, 0, 0⟩), hrows]
    decide
  obtain ⟨l₁, hload₁⟩ := Option.isSome_iff_exists.mp (hsome ⟨fun _ => 0, 0, 0⟩)
  obtain ⟨l₂, hload₂⟩ := Option.isSome_iff_exists.mp (hsome ⟨fun _ => 1, 0, 0⟩)
  exact ⟨l₁, l₂, hload₁, hload₂, hind _ _ l₁ l₂ hload₁ hload₂⟩

end Jyyos.Labyrinth
