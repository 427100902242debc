import Jyyos.Labyrinth.Equiv.Basic
import Mathlib.Logic.Equiv.Basic

/-!
# What `movePlayer` can do

`movePlayer_cases` says once what a successful call does: it places an absent player on an empty
cell, or it moves a present player to an empty neighbour.  The four branches are told apart by
`Direction`; `movePlayer_direction` reads each of them as a step to `Position.shift`.

From the cases: the shape of the map stays (`MoveResult.inside_iff`), a cell is open after the
call iff it was before (`MoveResult.isOpen_iff`), and a cell that is not open is not touched.
-/

namespace Jyyos

/-- The four directions of the option `--move`. -/
inductive Direction where
  | up
  | down
  | left
  | right
deriving DecidableEq, Repr

namespace Direction

/-- The text of a direction on the command line. -/
def name : Direction → CStr
  | up => cstr ['u', 'p']
  | down => cstr ['d', 'o', 'w', 'n']
  | left => cstr ['l', 'e', 'f', 't']
  | right => cstr ['r', 'i', 'g', 'h', 't']

/-- The change of row and column. -/
def delta : Direction → ℤ × ℤ
  | up => (-1, 0)
  | down => (1, 0)
  | left => (0, -1)
  | right => (0, 1)

/-- The direction back. -/
def opposite : Direction → Direction
  | up => down
  | down => up
  | left => right
  | right => left

end Direction

/-- The position one step away. -/
def Position.shift (p : Position) (d : Direction) : Position :=
  ⟨p.row + d.delta.1, p.col + d.delta.2⟩

theorem Position.shift_ne (p : Position) (d : Direction) : p.shift d ≠ p := by
  obtain ⟨r, c⟩ := p
  cases d <;> simp only [Position.shift, Direction.delta, ne_eq, Position.mk.injEq] <;> omega

theorem Position.shift_opposite (p : Position) (d : Direction) :
    (p.shift d).shift d.opposite = p := by
  obtain ⟨r, c⟩ := p
  cases d <;>
    simp only [Position.shift, Direction.delta, Direction.opposite, Position.mk.injEq] <;> omega

namespace Labyrinth

/-- The result of a successful `movePlayer`. -/
inductive MoveResult (l : Labyrinth) (p : UInt8) (l' : Labyrinth) : Prop
  | placed (Q : Position) (inside : l.Inside Q) (empty : l.get Q = dot)
      (absent : ∀ q, l.Inside q → l.get q ≠ p) (eq : l' = l.put Q p)
  | moved (P : Position) (d : Direction) (insideP : l.Inside P) (insideQ : l.Inside (P.shift d))
      (player : l.get P = p) (empty : l.get (P.shift d) = dot)
      (eq : l' = (l.put (P.shift d) p).put P dot)

section Branches

variable {l : Labyrinth} {p : UInt8}

/-- `stepTo` towards a direction. -/
theorem stepTo_shift (l : Labyrinth) (p : UInt8) (P : Position) (d : Direction) :
    l.stepTo p P (P.shift d).row (P.shift d).col =
      if l.isEmptySpace (P.shift d).row (P.shift d).col then
        (true, (l.put (P.shift d) p).put P dot)
      else (false, l) := rfl

/-- On a present player the text of a direction selects the step in that direction. -/
theorem movePlayer_direction (hP : l.Inside (l.findPlayer p)) (d : Direction) :
    l.movePlayer p d.name =
      l.stepTo p (l.findPlayer p) ((l.findPlayer p).shift d).row
        ((l.findPlayer p).shift d).col := by
  unfold movePlayer
  have hne : ¬((l.findPlayer p).row = -1 ∧ (l.findPlayer p).col = -1) :=
    fun h => hP.ne_none.1 h.1
  simp only [hne, ↓reduceIte]
  cases d
  · rw [if_pos (by decide)]
    simp [Position.shift, Direction.delta, Int.sub_eq_add_neg]
  · rw [if_neg (by decide), if_pos (by decide)]
    simp [Position.shift, Direction.delta]
  · rw [if_neg (by decide), if_neg (by decide), if_pos (by decide)]
    simp [Position.shift, Direction.delta, Int.sub_eq_add_neg]
  · rw [if_neg (by decide), if_neg (by decide), if_neg (by decide), if_pos (by decide)]
    simp [Position.shift, Direction.delta]

/-- Any other text is refused. -/
theorem movePlayer_other (hP : l.Inside (l.findPlayer p)) {dir : CStr}
    (hd : ∀ d : Direction, dir ≠ d.name) : l.movePlayer p dir = (false, l) := by
  unfold movePlayer
  have hne : ¬((l.findPlayer p).row = -1 ∧ (l.findPlayer p).col = -1) :=
    fun h => hP.ne_none.1 h.1
  simp only [hne, ↓reduceIte]
  have h1 : dir ≠ cstr ['u', 'p'] := hd .up
  have h2 : dir ≠ cstr ['d', 'o', 'w', 'n'] := hd .down
  have h3 : dir ≠ cstr ['l', 'e', 'f', 't'] := hd .left
  have h4 : dir ≠ cstr ['r', 'i', 'g', 'h', 't'] := hd .right
  rw [if_neg h1, if_neg h2, if_neg h3, if_neg h4]

/-- **The cases of a successful `movePlayer`.** -/
theorem movePlayer_cases {l' : Labyrinth} {dir : CStr} (h : l.movePlayer p dir = (true, l')) :
    MoveResult l p l' := by
  rcases findCell_cases l p with ⟨hnone, habsent⟩ | ⟨hin, hget⟩
  · -- the player is absent: the placement branch
    unfold movePlayer findPlayer findFirstEmptySpace at h
    rw [hnone] at h
    simp only [and_self, ↓reduceIte] at h
    split_ifs at h with hempty
    · rcases findCell_cases l dot with ⟨hd, -⟩ | ⟨hdin, hdget⟩
      · rw [hd] at hempty
        exact absurd rfl hempty.1
      · exact .placed _ hdin hdget habsent (Prod.mk.inj h).2.symm
    · exact absurd (Prod.mk.inj h).1 Bool.false_ne_true
  · change l.Inside (l.findPlayer p) at hin
    change l.get (l.findPlayer p) = p at hget
    by_cases hd : ∃ d : Direction, dir = d.name
    · obtain ⟨d, rfl⟩ := hd
      rw [movePlayer_direction hin, stepTo_shift] at h
      split_ifs at h with hempty
      · obtain ⟨hQin, hQ⟩ := (isEmptySpace_iff l _).mp hempty
        exact .moved _ d hin hQin hget hQ (Prod.mk.inj h).2.symm
      · exact absurd (Prod.mk.inj h).1 Bool.false_ne_true
    · rw [movePlayer_other hin (fun d hdir => hd ⟨d, hdir⟩)] at h
      exact absurd (Prod.mk.inj h).1 Bool.false_ne_true

end Branches

namespace MoveResult

variable {l l' : Labyrinth} {p : UInt8} {q : Position}

theorem rows_eq (h : MoveResult l p l') (hl : l.Fits) : l'.rows = l.rows := by
  cases h with
  | placed Q hQ _ _ he => rw [he, rows_put hQ hl]
  | moved P d hP hQ _ _ he =>
    rw [he, rows_put ((inside_put hQ hl p).mpr hP) (fits_put hQ hl p), rows_put hQ hl]

theorem cols_eq (h : MoveResult l p l') (hl : l.Fits) : l'.cols = l.cols := by
  cases h with
  | placed Q hQ _ _ he => rw [he, cols_put hQ hl]
  | moved P d hP hQ _ _ he =>
    rw [he, cols_put ((inside_put hQ hl p).mpr hP) (fits_put hQ hl p), cols_put hQ hl]

theorem inside_iff (h : MoveResult l p l') (hl : l.Fits) : l'.Inside q ↔ l.Inside q := by
  have hr := h.rows_eq hl
  have hc := h.cols_eq hl
  constructor
  · rintro ⟨h1, h2, h3, h4⟩
    exact ⟨h1, hr ▸ h2, h3, hc ▸ h4⟩
  · rintro ⟨h1, h2, h3, h4⟩
    exact ⟨h1, hr.symm ▸ h2, h3, hc.symm ▸ h4⟩

theorem fits (h : MoveResult l p l') (hl : l.Fits) : l'.Fits :=
  ⟨by rw [h.rows_eq hl]; exact hl.rows_le, by rw [h.cols_eq hl]; exact hl.cols_le⟩

/-- An empty cell was there before. -/
theorem exists_dot (h : MoveResult l p l') : ∃ q, l.Inside q ∧ l.get q = dot := by
  cases h with
  | placed Q hQ hdot _ _ => exact ⟨Q, hQ, hdot⟩
  | moved P d _ hQ _ hdot _ => exact ⟨_, hQ, hdot⟩

end MoveResult

/-- A move exchanges the contents of two cells. -/
theorem get_moved {l : Labyrinth} (hl : l.Fits) {p : UInt8} {P Q q : Position} (hP : l.Inside P)
    (hQ : l.Inside Q) (hp : l.get P = p) (hdot : l.get Q = dot) (hq : l.Inside q) :
    ((l.put Q p).put P dot).get q = l.get (Equiv.swap P Q q) := by
  have hP' : (l.put Q p).Inside P := (inside_put hQ hl p).mpr hP
  have hq' : (l.put Q p).Inside q := (inside_put hQ hl p).mpr hq
  have hl' := fits_put hQ hl p
  by_cases hqP : q = P
  · rw [hqP, get_put_self hP' hl', Equiv.swap_apply_left, hdot]
  · rw [get_put_of_ne hP' hq' hl' hqP]
    by_cases hqQ : q = Q
    · rw [hqQ, get_put_self hQ hl, Equiv.swap_apply_right, hp]
    · rw [get_put_of_ne hQ hq hl hqQ, Equiv.swap_apply_of_ne_of_ne hqP hqQ]

/-- A successful call by a player leaves every cell as open as it was. -/
theorem MoveResult.isOpen_iff {l l' : Labyrinth} {p : UInt8} (h : MoveResult l p l') (hl : l.Fits)
    (hp : isValidPlayer p = true) {q : Position} (hq : l.Inside q) :
    isOpen (l'.get q) = isOpen (l.get q) := by
  cases h with
  | placed Q hQ hdot _ he =>
    rw [he]
    by_cases hqQ : q = Q
    · rw [hqQ, get_put_self hQ hl, hdot, isOpen_dot, isOpen_of_player hp]
    · rw [get_put_of_ne hQ hq hl hqQ]
  | moved P d hP hQ hget hdot he =>
    rw [he, get_moved hl hP hQ hget hdot hq]
    -- both cells that change places are open
    by_cases hqP : q = P
    · rw [hqP, Equiv.swap_apply_left, hdot, hget, isOpen_dot, isOpen_of_player hp]
    · by_cases hqQ : q = P.shift d
      · rw [hqQ, Equiv.swap_apply_right, hdot, hget, isOpen_dot, isOpen_of_player hp]
      · rw [Equiv.swap_apply_of_ne_of_ne hqP hqQ]

/-- A successful call does not touch a cell that is not open. -/
theorem MoveResult.get_wall {l l' : Labyrinth} {p : UInt8} (h : MoveResult l p l') (hl : l.Fits)
    (hp : isValidPlayer p = true) {q : Position} (hq : l.Inside q)
    (hwall : isOpen (l.get q) = false) : l'.get q = l.get q := by
  have hne : ∀ r, isOpen (l.get r) = true → q ≠ r := by
    rintro r hr rfl
    rw [hwall] at hr
    exact Bool.noConfusion hr
  cases h with
  | placed Q hQ hdot _ he =>
    rw [he, get_put_of_ne hQ hq hl (hne Q (by rw [hdot]; exact isOpen_dot))]
  | moved P d hP hQ hget hdot he =>
    rw [he, get_moved hl hP hQ hget hdot hq, Equiv.swap_apply_of_ne_of_ne]
    · exact hne P (by rw [hget]; exact isOpen_of_player hp)
    · exact hne _ (by rw [hdot]; exact isOpen_dot)

end Labyrinth

end Jyyos
