import Jyyos.Labyrinth.Equiv.Move

/-!
# Moves of players that are on the map once

For a player on exactly one cell (`Only`) the scan of `movePlayer` finds that cell, so the call is a
guarded exchange of two cells (`movePlayer_only`).  The exchange `moved` is its own inverse and two
exchanges of disjoint pairs commute; both come from three laws of `put` (`put_comm`, `put_put`,
`put_get`).  A player stays on one cell when somebody else moves, and after his own move
(`Only.moved`).

* `movePlayer_comm`: the calls of two players that do not meet commute, whether they succeed or not.
* `movePlayer_opposite`: a successful move is undone by the move back.
-/

namespace Jyyos.Labyrinth

/-- `c` stands on the cell `P` of the map and on no other. -/
structure Only (l : Labyrinth) (c : UInt8) (P : Position) : Prop where
  inside : l.Inside P
  get_eq : l.get P = c
  unique : ∀ q, l.Inside q → l.get q = c → q = P

/-- The same over the list of the cells, where it can be evaluated. -/
theorem only_of_cells {l : Labyrinth} {c : UInt8} {P : Position}
    (h : P ∈ l.cells ∧ l.get P = c ∧ ∀ q ∈ l.cells, l.get q = c → q = P) : l.Only c P where
  inside := mem_cells.mp h.1
  get_eq := h.2.1
  unique q hq := h.2.2 q (mem_cells.mpr hq)

/-- The map with player `p` moved from `P` to `Q`. -/
def moved (l : Labyrinth) (p : UInt8) (P Q : Position) : Labyrinth := (l.put Q p).put P dot

section Put

variable {l : Labyrinth} {P Q : Position}

theorem put_comm (hl : l.Fits) (hP : l.Inside P) (hQ : l.Inside Q) (hne : P ≠ Q) (b c : UInt8) :
    (l.put P b).put Q c = (l.put Q c).put P b := by
  rw [put_eq ((inside_put hP hl b).mpr hQ) (fits_put hP hl b), put_eq hP hl,
    put_eq ((inside_put hQ hl c).mpr hP) (fits_put hQ hl c), put_eq hQ hl]
  simp only [mk.injEq, and_true]
  apply Function.update_comm
  intro h
  exact hne (hP.offset_inj hQ hl h)

theorem put_put (hl : l.Fits) (hP : l.Inside P) (b c : UInt8) :
    (l.put P b).put P c = l.put P c := by
  rw [put_eq ((inside_put hP hl b).mpr hP) (fits_put hP hl b), put_eq hP hl, put_eq hP hl]
  simp only [mk.injEq, and_true]
  apply Function.update_idem

theorem put_get (hl : l.Fits) (hP : l.Inside P) : l.put P (l.get P) = l := by
  rw [put_eq hP hl, get, cell, Function.update_eq_self]

end Put

section Moved

variable {l : Labyrinth} {p : UInt8} {P Q R : Position}

theorem inside_moved (hl : l.Fits) (hP : l.Inside P) (hQ : l.Inside Q) :
    (l.moved p P Q).Inside R ↔ l.Inside R := by
  rw [moved, inside_put ((inside_put hQ hl p).mpr hP) (fits_put hQ hl p), inside_put hQ hl]

/-- Where a character that is on the map once is found after a move. -/
theorem Only.moved {c : UInt8} (h : l.Only c R) (hl : l.Fits) (hP : l.Inside P) (hQ : l.Inside Q)
    (hp : l.get P = p) (hdot : l.get Q = dot) :
    (l.moved p P Q).Only c (Equiv.swap P Q R) := by
  have hswap : ∀ r, l.Inside r → l.Inside (Equiv.swap P Q r) := by
    intro r hr
    rw [Equiv.swap_apply_def]
    split_ifs
    · exact hQ
    · exact hP
    · exact hr
  constructor
  · exact (inside_moved hl hP hQ).mpr (hswap R h.inside)
  · unfold Labyrinth.moved
    rw [get_moved hl hP hQ hp hdot (hswap R h.inside), Equiv.swap_apply_self, h.get_eq]
  · intro q hq hget
    rw [inside_moved hl hP hQ] at hq
    unfold Labyrinth.moved at hget
    rw [get_moved hl hP hQ hp hdot hq] at hget
    rw [← h.unique _ (hswap q hq) hget, Equiv.swap_apply_self]

/-- A move changes no other cell. -/
theorem isEmptySpace_moved (hl : l.Fits) (hP : l.Inside P) (hQ : l.Inside Q) (hp : l.get P = p)
    (hdot : l.get Q = dot) (hRP : R ≠ P) (hRQ : R ≠ Q) :
    (l.moved p P Q).isEmptySpace R.row R.col = l.isEmptySpace R.row R.col := by
  rw [Bool.eq_iff_iff, isEmptySpace_iff, isEmptySpace_iff, inside_moved hl hP hQ]
  refine and_congr_right fun hR => ?_
  unfold moved
  rw [get_moved hl hP hQ hp hdot hR, Equiv.swap_apply_of_ne_of_ne hRP hRQ]

/-- The move back restores the struct. -/
theorem moved_moved (hl : l.Fits) (hP : l.Inside P) (hQ : l.Inside Q) (hne : P ≠ Q)
    (hp : l.get P = p) (hdot : l.get Q = dot) : (l.moved p P Q).moved p Q P = l := by
  have hQ' : (l.put Q p).Inside Q := (inside_put hQ hl p).mpr hQ
  have hP' : (l.put Q p).Inside P := (inside_put hQ hl p).mpr hP
  have hl' := fits_put hQ hl p
  calc (l.moved p P Q).moved p Q P
      = (((l.put Q p).put P dot).put P p).put Q dot := rfl
    _ = ((l.put Q p).put P p).put Q dot := by rw [put_put hl' hP']
    _ = ((l.put Q p).put Q dot).put P p := put_comm hl' hP' hQ' hne p dot
    _ = (l.put Q dot).put P p := by rw [put_put hl hQ]
    _ = (l.put Q (l.get Q)).put P (l.get P) := by rw [hp, hdot]
    _ = l := by rw [put_get hl hQ, put_get hl hP]

/-- Moves on disjoint pairs of cells commute. -/
theorem moved_comm (hl : l.Fits) {q : UInt8} {P' Q' : Position} (hP : l.Inside P)
    (hP' : l.Inside P') (hQ : l.Inside Q) (hQ' : l.Inside Q') (hPQ : P ≠ Q) (hPQ₁ : P ≠ Q')
    (hPQ₂ : P' ≠ Q) (hPQ₃ : P' ≠ Q') :
    (l.moved p P P').moved q Q Q' = (l.moved q Q Q').moved p P P' := by
  have hlP' := fits_put hP' hl p
  have hlQ' := fits_put hQ' hl q
  have inP' : ∀ {r}, l.Inside r → (l.put P' p).Inside r := (inside_put hP' hl p).mpr
  have inQ' : ∀ {r}, l.Inside r → (l.put Q' q).Inside r := (inside_put hQ' hl q).mpr
  calc (l.moved p P P').moved q Q Q'
      = (((l.put P' p).put P dot).put Q' q).put Q dot := rfl
    _ = (((l.put P' p).put Q' q).put P dot).put Q dot := by
        rw [put_comm hlP' (inP' hP) (inP' hQ') hPQ₁]
    _ = (((l.put Q' q).put P' p).put P dot).put Q dot := by rw [put_comm hl hP' hQ' hPQ₃]
    _ = (((l.put Q' q).put P' p).put Q dot).put P dot := by
        rw [put_comm (fits_put (inQ' hP') hlQ' p) ((inside_put (inQ' hP') hlQ' p).mpr (inQ' hP))
          ((inside_put (inQ' hP') hlQ' p).mpr (inQ' hQ)) hPQ]
    _ = (((l.put Q' q).put Q dot).put P' p).put P dot := by
        rw [put_comm hlQ' (inQ' hP') (inQ' hQ) hPQ₂]
    _ = (l.moved q Q Q').moved p P P' := rfl

end Moved

/-- **A move of a player that is on the map once** is a guarded exchange of two cells. -/
theorem movePlayer_only {l : Labyrinth} {p : UInt8} {P : Position} (h : l.Only p P)
    (d : Direction) : l.movePlayer p d.name =
      if l.isEmptySpace (P.shift d).row (P.shift d).col then (true, l.moved p P (P.shift d))
      else (false, l) := by
  have hfind : l.findPlayer p = P := findCell_eq_of_unique h.inside h.get_eq h.unique
  rw [movePlayer_direction (by rw [hfind]; exact h.inside), hfind, stepTo_shift]
  rfl

/-- After a call for `p`, whether it moves him or not, the move of a player `q` that does not meet
him is guarded as before. -/
theorem movePlayer_after {l : Labyrinth} (hl : l.Fits) {p q : UInt8} {P Q : Position}
    (hP : l.Only p P) (hQ : l.Only q Q) {d₁ d₂ : Direction} (hPQ : P ≠ Q) (hPQ₂ : P.shift d₁ ≠ Q)
    (hPQ₃ : P.shift d₁ ≠ Q.shift d₂) (hQP₂ : Q.shift d₂ ≠ P) :
    (l.movePlayer p d₁.name).2.movePlayer q d₂.name =
      if l.isEmptySpace (Q.shift d₂).row (Q.shift d₂).col then
        (true, (l.movePlayer p d₁.name).2.moved q Q (Q.shift d₂))
      else (false, (l.movePlayer p d₁.name).2) := by
  rw [movePlayer_only hP]
  by_cases h₁ : l.isEmptySpace (P.shift d₁).row (P.shift d₁).col = true
  · obtain ⟨hP', hdot⟩ := (isEmptySpace_iff l _).mp h₁
    have honly := hQ.moved hl hP.inside hP' hP.get_eq hdot
    rw [Equiv.swap_apply_of_ne_of_ne hPQ.symm hPQ₂.symm] at honly
    rw [if_pos h₁, movePlayer_only honly,
      isEmptySpace_moved hl hP.inside hP' hP.get_eq hdot hQP₂ hPQ₃.symm]
  · rw [if_neg h₁]
    exact movePlayer_only hQ d₂

/-- **Independent moves commute**: both orders give the same two results and the same struct. -/
theorem movePlayer_comm {l : Labyrinth} (hl : l.Fits) {p q : UInt8} (hne : p ≠ q) {P Q : Position}
    (hP : l.Only p P) (hQ : l.Only q Q) (d₁ d₂ : Direction) (hPQ₂ : P.shift d₁ ≠ Q)
    (hPQ₃ : P.shift d₁ ≠ Q.shift d₂) (hQP₂ : Q.shift d₂ ≠ P) :
    let pq := (l.movePlayer p d₁.name).2.movePlayer q d₂.name
    let qp := (l.movePlayer q d₂.name).2.movePlayer p d₁.name
    (l.movePlayer p d₁.name).1 = qp.1 ∧ pq.1 = (l.movePlayer q d₂.name).1 ∧ pq.2 = qp.2 := by
  have hPQ : P ≠ Q := by
    rintro rfl
    exact hne (hP.get_eq.symm.trans hQ.get_eq)
  have hpq := movePlayer_after hl hP hQ hPQ hPQ₂ hPQ₃ hQP₂
  have hqp := movePlayer_after hl hQ hP hPQ.symm hQP₂ hPQ₃.symm hPQ₂
  simp only
  rw [hpq, hqp, movePlayer_only hP, movePlayer_only hQ]
  by_cases h₁ : l.isEmptySpace (P.shift d₁).row (P.shift d₁).col = true
  · by_cases h₂ : l.isEmptySpace (Q.shift d₂).row (Q.shift d₂).col = true
    · simp only [if_pos h₁, if_pos h₂, true_and]
      have hP' := ((isEmptySpace_iff l _).mp h₁).1
      have hQ' := ((isEmptySpace_iff l _).mp h₂).1
      exact moved_comm hl hP.inside hP' hQ.inside hQ' hPQ hQP₂.symm hPQ₂ hPQ₃
    · simp only [if_pos h₁, if_neg h₂, and_self]
  · by_cases h₂ : l.isEmptySpace (Q.shift d₂).row (Q.shift d₂).col = true
    · simp only [if_neg h₁, if_pos h₂, and_self]
    · simp only [if_neg h₁, if_neg h₂, and_self]

/-- The map of one row `1..2`. -/
def twoPlayers : Labyrinth where
  map o := ((cstr ['1', '.', '.', '2'])[o]?).getD 0
  rows := 1
  cols := 4

theorem twoPlayers_fits : twoPlayers.Fits := ⟨by decide, by decide⟩

theorem twoPlayers_only_one : twoPlayers.Only '1'.toUInt8 ⟨0, 0⟩ := only_of_cells (by decide)

theorem twoPlayers_only_two : twoPlayers.Only '2'.toUInt8 ⟨0, 3⟩ := only_of_cells (by decide)

theorem movePlayer_comm_twoPlayers :
    ((twoPlayers.movePlayer '1'.toUInt8 Direction.right.name).2.movePlayer '2'.toUInt8
        Direction.left.name).2 =
      ((twoPlayers.movePlayer '2'.toUInt8 Direction.left.name).2.movePlayer '1'.toUInt8
        Direction.right.name).2 :=
  (movePlayer_comm twoPlayers_fits (by decide) twoPlayers_only_one twoPlayers_only_two .right .left
    (by decide) (by decide) (by decide)).2.2

/-- **Moves are reversible**: the move back succeeds and restores the struct. -/
theorem movePlayer_opposite {l l' : Labyrinth} (hl : l.Fits) {p : UInt8} {P : Position}
    (hP : l.Only p P) (d : Direction) (h : l.movePlayer p d.name = (true, l')) :
    l'.movePlayer p d.opposite.name = (true, l) := by
  rw [movePlayer_only hP] at h
  by_cases hempty : l.isEmptySpace (P.shift d).row (P.shift d).col = true
  · rw [if_pos hempty] at h
    obtain rfl := (Prod.mk.inj h).2
    obtain ⟨hQ, hdot⟩ := (isEmptySpace_iff l _).mp hempty
    have hne : P ≠ P.shift d := (Position.shift_ne P d).symm
    have honly := hP.moved hl hP.inside hQ hP.get_eq hdot
    rw [Equiv.swap_apply_left] at honly
    -- the cell that he left is empty now
    have hback : (l.moved p P (P.shift d)).isEmptySpace P.row P.col = true := by
      rw [isEmptySpace_iff, inside_moved hl hP.inside hQ]
      refine ⟨hP.inside, ?_⟩
      unfold moved
      rw [get_moved hl hP.inside hQ hP.get_eq hdot hP.inside, Equiv.swap_apply_left, hdot]
    rw [movePlayer_only honly, Position.shift_opposite, if_pos hback,
      moved_moved hl hP.inside hQ hne hP.get_eq hdot]
  · rw [if_neg hempty] at h
    exact absurd (Prod.mk.inj h).1 Bool.false_ne_true

theorem movePlayer_opposite_twoPlayers :
    (twoPlayers.movePlayer '1'.toUInt8 Direction.right.name).2.movePlayer '1'.toUInt8
      Direction.left.name = (true, twoPlayers) :=
  have hmoves : (twoPlayers.movePlayer '1'.toUInt8 Direction.right.name).1 = true := by decide
  movePlayer_opposite twoPlayers_fits twoPlayers_only_one .right (Prod.ext hmoves rfl)

end Jyyos.Labyrinth
