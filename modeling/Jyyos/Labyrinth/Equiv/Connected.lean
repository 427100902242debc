import Jyyos.Labyrinth.Equiv.Move
import Jyyos.Algorithm.Equiv.Dfs

/-!
# What `isConnected` decides

`dfs_eq_search` identifies the recursive `dfs` with depth-first marking over the four neighbours,
so `Dfs.search_spec` gives that it returns on every map that fits the array and marks exactly the
open cells joined to the start.  `isConnected_iff`: the map is accepted iff it has no empty cell at
all, or any two of its open cells are joined by open cells.
-/

namespace Jyyos.Labyrinth

/-- `p` is a cell of the map that holds a dot or a player. -/
def Open (l : Labyrinth) (p : Position) : Prop := l.Inside p ∧ isOpen (l.get p) = true

/-- A step to an open neighbour. -/
def OpenStep (l : Labyrinth) (p q : Position) : Prop := ∃ d : Direction, q = p.shift d ∧ l.Open q

/-- `q` is reached from `p` through open cells. -/
def Joined (l : Labyrinth) (p q : Position) : Prop := Relation.ReflTransGen l.OpenStep p q

/-- The four neighbours in the order of the table `directions`. -/
def neighbours (p : Position) : List Position :=
  directions.map fun d => ⟨p.row + d.1, p.col + d.2⟩

theorem mem_neighbours {p q : Position} : q ∈ neighbours p ↔ ∃ d : Direction, q = p.shift d := by
  have h : neighbours p = [p.shift .up, p.shift .down, p.shift .left, p.shift .right] := rfl
  rw [h]
  simp only [List.mem_cons, List.not_mem_nil, or_false]
  constructor
  · rintro (h | h | h | h)
    · exact ⟨_, h⟩
    · exact ⟨_, h⟩
    · exact ⟨_, h⟩
    · exact ⟨_, h⟩
  · rintro ⟨d, h⟩
    cases d <;> simp [h]

/-- Every step can be taken back, so joined open cells are joined backwards. -/
theorem Joined.symm {l : Labyrinth} {p q : Position} (hp : l.Open p) (h : l.Joined p q) :
    l.Joined q p := by
  have key : l.Open q ∧ l.Joined q p := by
    induction h with
    | refl => exact ⟨hp, Relation.ReflTransGen.refl⟩
    | tail _ hstep ih =>
      obtain ⟨d, rfl, hopen⟩ := hstep
      exact ⟨hopen, Relation.ReflTransGen.head
        ⟨d.opposite, (Position.shift_opposite _ d).symm, ih.1⟩ ih.2⟩
  exact key.2

section Dfs

variable (l : Labyrinth)

/-- The open-cell test of `dfs`, on positions. -/
def okCell (p : Position) : Bool := l.isEmptySpaceorUser p.row p.col

theorem okCell_iff {p : Position} : l.okCell p = true ↔ l.Open p := isEmptySpaceorUser_iff l p

/-- The recursive function is depth-first marking over the four neighbours. -/
theorem dfs_eq_search : ∀ (fuel : ℕ) (row col : ℤ) (visited : Visited),
    l.dfs fuel row col visited = Dfs.search l.okCell neighbours fuel ⟨row, col⟩ visited := by
  intro fuel
  induction fuel with
  | zero => intro row col visited; rfl
  | succ fuel ih =>
    intro row col visited
    rw [dfs, Dfs.search, neighbours, List.foldlM_map]
    simp only [ih]
    rfl

/-- A step to a neighbour that is open and not yet marked. -/
def FreshStep (visited : Visited) (p q : Position) : Prop :=
  (∃ d : Direction, q = p.shift d) ∧ l.Open q ∧ visited q = false

/-- `q` is reached from `p` by a path of adjacent open cells none of which is marked. -/
def Reached (visited : Visited) (p q : Position) : Prop :=
  Relation.ReflTransGen (l.FreshStep visited) p q

theorem white_iff_reached (visited : Visited) (p q : Position) :
    Dfs.White l.okCell neighbours visited p q ↔ l.Reached visited p q := by
  have h : Dfs.WhiteStep l.okCell neighbours visited = l.FreshStep visited := by
    funext x y
    simp only [Dfs.WhiteStep, FreshStep, mem_neighbours, okCell_iff]
  rw [Dfs.White, Reached, h]

theorem reached_iff_joined (p q : Position) :
    l.Reached (fun _ => false) p q ↔ l.Joined p q := by
  have h : l.FreshStep (fun _ => false) = l.OpenStep := by
    funext x y
    simp only [FreshStep, OpenStep, and_true, eq_iff_iff]
    exact ⟨fun ⟨⟨d, hd⟩, ho⟩ => ⟨d, hd, ho⟩, fun ⟨d, hd, ho⟩ => ⟨⟨d, hd⟩, ho⟩⟩
  rw [Reached, Joined, h]

theorem length_cells : l.cells.length = l.rows.toNat * l.cols.toNat := by
  simp [cells, List.length_flatMap]

variable {l}

theorem length_cells_le (hl : l.Fits) : l.cells.length ≤ 10000 := by
  rw [length_cells]
  have h1 : l.rows.toNat ≤ 100 := by have := hl.rows_le; omega
  have h2 : l.cols.toNat ≤ 100 := by have := hl.cols_le; omega
  calc l.rows.toNat * l.cols.toNat ≤ 100 * 100 := Nat.mul_le_mul h1 h2
    _ = 10000 := rfl

/-- On a map that fits the array the search returns, and marks exactly the cells that are reached
from the start. -/
theorem dfs_marks (hl : l.Fits) {fuel : ℕ} (hfuel : 10000 < fuel) (p : Position)
    (visited : Visited) :
    ∃ visited', l.dfs fuel p.row p.col visited = some visited' ∧
      ∀ q, visited' q = true ↔ visited q = true ∨ l.Reached visited p q := by
  have hS : ∀ b, l.okCell b = true → b ∈ l.cells.toFinset := by
    intro b hb
    rw [List.mem_toFinset, mem_cells]
    exact ((okCell_iff l).mp hb).1
  have hcard : (Dfs.unmarked l.cells.toFinset (Function.update visited p true)).card < fuel := by
    have h1 : (Dfs.unmarked l.cells.toFinset (Function.update visited p true)).card ≤
        l.cells.toFinset.card := Finset.card_le_card (Finset.filter_subset _ _)
    have h2 := List.toFinset_card_le l.cells
    have h3 := length_cells_le hl
    omega
  obtain ⟨visited', hs, hm⟩ := Dfs.search_spec hS fuel p visited hcard
  refine ⟨visited', by rw [dfs_eq_search]; exact hs, fun q => ?_⟩
  rw [hm.iff_white, white_iff_reached]

/-- The search of `isConnected` marks the cells joined to its start. -/
theorem dfs_dfsFuel (hl : l.Fits) (p : Position) :
    ∃ visited, l.dfs dfsFuel p.row p.col (fun _ => false) = some visited ∧
      ∀ q, visited q = true ↔ l.Joined p q := by
  obtain ⟨visited, hdfs, hmarks⟩ := dfs_marks hl (by decide : 10000 < dfsFuel) p (fun _ => false)
  refine ⟨visited, hdfs, fun q => ?_⟩
  rw [hmarks, reached_iff_joined]
  simp

end Dfs

/-- The final scan accepts iff every open cell is marked. -/
theorem all_visited_iff (l : Labyrinth) (visited : Visited) :
    (l.cells.all fun p =>
        !((l.cell p.row p.col == dot || isValidPlayer (l.cell p.row p.col)) && !visited p)) = true ↔
      ∀ q, l.Open q → visited q = true := by
  rw [List.all_eq_true]
  constructor
  · intro h q hq
    have := h q (mem_cells.mpr hq.1)
    have hopen : (l.cell q.row q.col == dot || isValidPlayer (l.cell q.row q.col)) = true := hq.2
    rw [hopen] at this
    simpa using this
  · intro h p hp
    cases hopen : (l.cell p.row p.col == dot || isValidPlayer (l.cell p.row p.col)) with
    | false => rfl
    | true => rw [h p ⟨mem_cells.mp hp, hopen⟩]; rfl

/-- **What `isConnected` decides**: there is no empty cell, or the open cells are pairwise
joined. -/
theorem isConnected_iff {l : Labyrinth} (hl : l.Fits) :
    l.isConnected = true ↔ (∀ q, l.Inside q → l.get q ≠ dot) ∨
      ∀ p q, l.Open p → l.Open q → l.Joined p q := by
  unfold isConnected
  by_cases hnone : ∀ q, l.Inside q → l.get q ≠ dot
  · have h := (findCell_eq_none_iff l dot).mpr hnone
    simp only [findFirstEmptySpace, h, and_self, ↓reduceIte, true_iff]
    exact Or.inl hnone
  · have h : ¬((l.findCell dot).row = -1 ∧ (l.findCell dot).col = -1) :=
      fun h => hnone ((findCell_eq_none_iff l dot).mp h)
    simp only [findFirstEmptySpace, h, ↓reduceIte]
    obtain ⟨hin, hdot⟩ := (findCell_cases l dot).resolve_left (fun hc => hnone hc.2)
    have hstart : l.Open (l.findCell dot) := ⟨hin, by rw [hdot]; exact isOpen_dot⟩
    obtain ⟨visited, hdfs, hvis⟩ := dfs_dfsFuel hl (l.findCell dot)
    rw [hdfs]
    simp only [all_visited_iff, hvis]
    constructor
    · intro hall
      refine Or.inr fun p q hp hq => ?_
      exact ((hall p hp).symm hstart).trans (hall q hq)
    · rintro (hno | hall)
      · exact absurd hno hnone
      · exact fun q hq => hall _ q hstart hq

/-- Whether cells are joined depends on which cells are open. -/
theorem joined_congr {l l' : Labyrinth} (h : ∀ q, l'.Open q ↔ l.Open q) (p q : Position) :
    l'.Joined p q ↔ l.Joined p q := by
  have hstep : l'.OpenStep = l.OpenStep := by
    funext x y
    simp only [OpenStep, h]
  rw [Joined, Joined, hstep]

theorem MoveResult.open_iff {l l' : Labyrinth} {p : UInt8} (h : MoveResult l p l') (hl : l.Fits)
    (hp : isValidPlayer p = true) (q : Position) : l'.Open q ↔ l.Open q := by
  unfold Open
  rw [h.inside_iff hl]
  exact and_congr_right fun hq => by rw [h.isOpen_iff hl hp hq]

/-- **A successful move keeps a connected map connected.**  A map without an empty cell is accepted
too, but there no move succeeds. -/
theorem MoveResult.isConnected {l l' : Labyrinth} {p : UInt8} (h : MoveResult l p l') (hl : l.Fits)
    (hp : isValidPlayer p = true) (hconn : l.isConnected = true) : l'.isConnected = true := by
  rw [isConnected_iff hl] at hconn
  rw [isConnected_iff (h.fits hl)]
  rcases hconn with hnone | hall
  · obtain ⟨q, hq, hdot⟩ := h.exists_dot
    exact absurd hdot (hnone q hq)
  · refine Or.inr fun a b ha hb => ?_
    rw [joined_congr (h.open_iff hl hp)]
    exact hall a b ((h.open_iff hl hp a).mp ha) ((h.open_iff hl hp b).mp hb)

/-- `isConnected` reads the cells of the map and nothing else. -/
theorem isConnected_congr {l l' : Labyrinth} (hl : l.Fits) (hrows : l'.rows = l.rows)
    (hcols : l'.cols = l.cols) (hget : ∀ q, l.Inside q → l'.get q = l.get q) :
    l'.isConnected = l.isConnected := by
  have hin : ∀ q, l'.Inside q ↔ l.Inside q := by
    intro q
    constructor
    · rintro ⟨h1, h2, h3, h4⟩
      exact ⟨h1, hrows ▸ h2, h3, hcols ▸ h4⟩
    · rintro ⟨h1, h2, h3, h4⟩
      exact ⟨h1, hrows.symm ▸ h2, h3, hcols.symm ▸ h4⟩
  have hopen : ∀ q, l'.Open q ↔ l.Open q := by
    intro q
    unfold Open
    rw [hin]
    exact and_congr_right fun hq => by rw [hget q hq]
  have hl' : l'.Fits := ⟨by rw [hrows]; exact hl.rows_le, by rw [hcols]; exact hl.cols_le⟩
  have hdot : (∀ q, l'.Inside q → l'.get q ≠ dot) ↔ ∀ q, l.Inside q → l.get q ≠ dot := by
    refine forall_congr' fun q => ?_
    rw [hin]
    exact forall_congr' fun hq => by rw [hget q hq]
  rw [Bool.eq_iff_iff, isConnected_iff hl', isConnected_iff hl, hdot]
  simp only [hopen, joined_congr hopen]

end Jyyos.Labyrinth
