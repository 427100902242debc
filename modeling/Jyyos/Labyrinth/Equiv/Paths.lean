import Jyyos.Labyrinth.Equiv.Connected
import Mathlib.Data.List.Chain

/-!
# Connectivity in terms of paths

`Joined` is the closure of the steps that `dfs` takes.  Here the same is said of the grid alone: two
cells are `Adjacent` when they differ by one in one coordinate, and a path is a list of open cells
in which neighbours are adjacent (`IsPath`).  `joined_iff_isPath` connects the two, and
`isConnected_iff_isPath` is what `isConnected` decides.

The search starts at a dot, while the cells that it visits and the final scan count players too.  On
a map without a dot there is no start and the map is accepted, even if its players are walled off
from each other: `players_not_joined`.
-/

namespace Jyyos

/-- `p` and `q` share a side. -/
def Position.Adjacent (p q : Position) : Prop :=
  (p.row - q.row).natAbs + (p.col - q.col).natAbs = 1

theorem Position.adjacent_iff {p q : Position} :
    p.Adjacent q ↔ ∃ d : Direction, q = p.shift d := by
  obtain ⟨r, c⟩ := p
  obtain ⟨r', c'⟩ := q
  simp only [Position.Adjacent, Position.shift, Position.mk.injEq]
  constructor
  · intro h
    rcases lt_trichotomy r r' with hr | hr | hr
    · exact ⟨.down, by simp only [Direction.delta]; omega⟩
    · rcases lt_trichotomy c c' with hc | hc | hc
      · exact ⟨.right, by simp only [Direction.delta]; omega⟩
      · omega
      · exact ⟨.left, by simp only [Direction.delta]; omega⟩
    · exact ⟨.up, by simp only [Direction.delta]; omega⟩
  · rintro ⟨d, hr, hc⟩
    cases d <;> simp only [Direction.delta] at hr hc <;> omega

namespace Labyrinth

/-- `ps` is a path of open cells from `p` to `q`. -/
structure IsPath (l : Labyrinth) (p q : Position) (ps : List Position) : Prop where
  first : ps.head? = some p
  last : ps.getLast? = some q
  adjacent : ps.IsChain Position.Adjacent
  isOpen : ∀ x ∈ ps, l.Open x

section Paths

variable {l : Labyrinth} {p q : Position}

/-- Adjacent open cells are a step apart. -/
theorem openStep_iff (p q : Position) : l.OpenStep p q ↔ p.Adjacent q ∧ l.Open q := by
  rw [Position.adjacent_iff, OpenStep, exists_and_right]

/-- A chain of steps from an open cell stays on open cells. -/
theorem open_of_isChain {ps : List Position} (hp : l.Open p)
    (h : (p :: ps).IsChain l.OpenStep) : ∀ x ∈ p :: ps, l.Open x := by
  induction ps generalizing p with
  | nil =>
    intro x hx
    rw [List.mem_singleton.mp hx]
    exact hp
  | cons r ps ih =>
    rw [List.isChain_cons_cons] at h
    have hr : l.Open r := ((openStep_iff p r).mp h.1).2
    intro x hx
    rcases List.mem_cons.mp hx with rfl | hx
    · exact hp
    · exact ih hr h.2 x hx

/-- **Joined means joined by a path.** -/
theorem joined_iff_isPath (hp : l.Open p) : l.Joined p q ↔ ∃ ps, l.IsPath p q ps := by
  constructor
  · intro h
    obtain ⟨ps, hchain, hlast⟩ := List.exists_isChain_cons_of_relationReflTransGen h
    refine ⟨p :: ps, rfl, ?_, ?_, open_of_isChain hp hchain⟩
    · rw [List.getLast?_eq_getLast_of_ne_nil (List.cons_ne_nil p ps), hlast]
    · exact hchain.imp fun x y hstep => ((openStep_iff x y).mp hstep).1
  · rintro ⟨ps, hfirst, hlast, hchain, hopen⟩
    obtain ⟨ps, rfl⟩ : ∃ ps', ps = p :: ps' := by
      cases ps with
      | nil => cases hfirst
      | cons x ps =>
        obtain rfl := Option.some.inj hfirst
        exact ⟨ps, rfl⟩
    rw [List.getLast?_eq_getLast_of_ne_nil (List.cons_ne_nil p ps)] at hlast
    refine List.relationReflTransGen_of_exists_isChain_cons ps ?_ (Option.some.inj hlast)
    rw [List.isChain_iff_getElem] at hchain ⊢
    intro i hi
    exact (openStep_iff _ _).mpr ⟨hchain i hi, hopen _ (List.getElem_mem hi)⟩

end Paths

/-- The map of one row `1#2`. -/
def walledPlayers : Labyrinth where
  map o := ((cstr ['1', '#', '2'])[o]?).getD 0
  rows := 1
  cols := 3

theorem walledPlayers_fits : walledPlayers.Fits := ⟨by decide, by decide⟩

/-- The first player can not leave its cell: on three sides is the border, on the right the wall. -/
theorem walledPlayers_joined {q : Position} (h : walledPlayers.Joined ⟨0, 0⟩ q) : q = ⟨0, 0⟩ := by
  induction h with
  | refl => rfl
  | tail _ hstep ih =>
    obtain ⟨d, rfl, ⟨hr, hr', hc, hc'⟩, hopen⟩ := hstep
    rw [ih] at hr hr' hc hc' hopen
    cases d with
    | up => exact absurd hr (by decide)
    | down => exact absurd hr' (by decide)
    | left => exact absurd hc (by decide)
    | right => exact absurd hopen (by decide)

/-- **What `isConnected` decides, in terms of paths**: the map has no dot, or any two of its open
cells are joined by a path of open cells. -/
theorem isConnected_iff_isPath {l : Labyrinth} (hl : l.Fits) :
    l.isConnected = true ↔ (∀ q, l.Inside q → l.get q ≠ dot) ∨
      ∀ p q, l.Open p → l.Open q → ∃ ps, l.IsPath p q ps := by
  rw [isConnected_iff hl]
  refine or_congr_right (forall_congr' fun p => forall_congr' fun q => forall_congr' fun hp => ?_)
  rw [joined_iff_isPath hp]

/-- The map of the rows `1.` and `#2`. -/
def cornerMap : Labyrinth where
  map o := if o < 100 then ((cstr ['1', '.'])[o]?).getD 0 else ((cstr ['#', '2'])[o - 100]?).getD 0
  rows := 2
  cols := 2

theorem isConnected_iff_isPath_cornerMap : cornerMap.isConnected = true ∧
    ∃ ps, cornerMap.IsPath ⟨0, 0⟩ ⟨1, 1⟩ ps := by
  have hconnected : cornerMap.isConnected = true := by decide +kernel
  rcases (isConnected_iff_isPath ⟨by decide, by decide⟩).mp hconnected with hno | hpaths
  · exact absurd rfl (hno ⟨0, 1⟩ ⟨by decide, by decide, by decide, by decide⟩)
  · exact ⟨hconnected, hpaths _ _ ⟨⟨by decide, by decide, by decide, by decide⟩, by decide⟩
      ⟨⟨by decide, by decide, by decide, by decide⟩, by decide⟩⟩

/-- Two players with a wall between them are accepted, and are not joined by a path. -/
theorem players_not_joined : walledPlayers.Fits ∧
    ¬(walledPlayers.isConnected = true ↔ ∀ p q, walledPlayers.Open p → walledPlayers.Open q →
      ∃ ps, walledPlayers.IsPath p q ps) := by
  refine ⟨walledPlayers_fits, fun h => ?_⟩
  have hp : walledPlayers.Open ⟨0, 0⟩ := ⟨⟨by decide, by decide, by decide, by decide⟩, by decide⟩
  have hq : walledPlayers.Open ⟨0, 2⟩ := ⟨⟨by decide, by decide, by decide, by decide⟩, by decide⟩
  have hpath := h.mp (by decide) ⟨0, 0⟩ ⟨0, 2⟩ hp hq
  exact absurd (walledPlayers_joined ((joined_iff_isPath hp).mpr hpath)) (by decide)

end Labyrinth

end Jyyos
