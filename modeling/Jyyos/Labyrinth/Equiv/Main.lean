import Jyyos.Labyrinth.Main
import Jyyos.Labyrinth.Equiv.LoadMap
import Jyyos.Labyrinth.Equiv.Connected
import Mathlib.Data.Fintype.Card
import Mathlib.Data.Fintype.Prod

/-!
# Sequences of runs on one map file

A `Run path` is a run of `main` on the map file `path` by a single-digit player with at most one
direction, in any surroundings.  `Run.exec_cases` says what a run does to the files: nothing, or it
writes the map back, unchanged or after one successful `movePlayer`.  Every such step keeps the
file an `R × C` map and is `Preserves`, which is transitive; so is a whole sequence of runs
(`runs_preserve`).
-/

namespace Jyyos.Labyrinth

variable {R C : ℕ}

namespace MapFile

/-- The number of cells that hold a character. -/
def count (m : MapFile R C) (d : UInt8) : ℕ :=
  (Finset.univ.filter fun x : Fin R × Fin C => m.cell x.1 x.2 = d).card

/-- `loadMap` into the memory `mem` succeeds and `isConnected` accepts the map. -/
def AcceptedIn (m : MapFile R C) (mem : Labyrinth) : Prop :=
  ∃ l, loadMap mem (some m.bytes) = some l ∧ l.isConnected = true

end MapFile

/-- What a sequence of runs keeps of a map. -/
structure Preserves (m m' : MapFile R C) : Prop where
  /-- A cell that is not open holds the same character. -/
  wall : ∀ i j, isOpen (m.cell i j) = false → m'.cell i j = m.cell i j
  /-- The same cells are open. -/
  isOpen_eq : ∀ i j, isOpen (m'.cell i j) = isOpen (m.cell i j)
  /-- No player is lost or duplicated; an absent one may have been placed, once. -/
  count_eq : ∀ d, isValidPlayer d = true →
    m'.count d = m.count d ∨ m.count d = 0 ∧ m'.count d = 1
  /-- A map that was accepted once is accepted in every run. -/
  accepted : (∃ mem, m.AcceptedIn mem) → ∀ mem, m'.AcceptedIn mem

/-! ### Maps and structs -/

/-- The position of an entry of the table. -/
def pos (x : Fin R × Fin C) : Position := ⟨(x.1.val : ℤ), (x.2.val : ℤ)⟩

theorem pos_injective : Function.Injective (pos : Fin R × Fin C → Position) := by
  rintro ⟨i, j⟩ ⟨i', j'⟩ h
  simp only [pos, Position.mk.injEq] at h
  rw [Prod.mk.injEq]
  exact ⟨Fin.ext (by omega), Fin.ext (by omega)⟩

namespace Loaded

variable {m : MapFile R C} {l : Labyrinth}

theorem get_pos (h : Loaded m l) (x : Fin R × Fin C) : l.get (pos x) = m.cell x.1 x.2 :=
  h.cell_eq x.1 x.2

theorem inside_pos (h : Loaded m l) (x : Fin R × Fin C) : l.Inside (pos x) := by
  have h1 := x.1.isLt
  have h2 := x.2.isLt
  have h3 := h.rows_eq
  have h4 := h.cols_eq
  exact ⟨by simp only [pos]; omega, by simp only [pos]; omega, by simp only [pos]; omega,
    by simp only [pos]; omega⟩

theorem exists_pos (h : Loaded m l) {q : Position} (hq : l.Inside q) :
    ∃ x : Fin R × Fin C, q = pos x := by
  obtain ⟨r, c⟩ := q
  obtain ⟨h1, h2, h3, h4⟩ := hq
  rw [h.rows_eq] at h2
  rw [h.cols_eq] at h4
  change 0 ≤ r at h1; change r < R at h2; change 0 ≤ c at h3; change c < C at h4
  refine ⟨(⟨r.toNat, by omega⟩, ⟨c.toNat, by omega⟩), ?_⟩
  simp only [pos, Position.mk.injEq]
  omega

/-- The verdict on a file does not depend on what the memory held. -/
theorem isConnected_eq (h : Loaded m l) {l' : Labyrinth} (h' : Loaded m l') (hR : R ≤ 100)
    (hC : C ≤ 100) : l'.isConnected = l.isConnected := by
  refine isConnected_congr (h.fits hR hC) (h'.rows_eq.trans h.rows_eq.symm)
    (h'.cols_eq.trans h.cols_eq.symm) ?_
  intro q hq
  obtain ⟨x, rfl⟩ := h.exists_pos hq
  rw [h.get_pos, h'.get_pos]

theorem acceptedIn_iff (h : Loaded m l) (hR : 1 ≤ R ∧ R ≤ 100) (hC : 1 ≤ C ∧ C ≤ 100)
    (mem : Labyrinth) : m.AcceptedIn mem ↔ l.isConnected = true := by
  obtain ⟨l', hload, hl'⟩ := loadMap_bytes m hR hC mem
  unfold MapFile.AcceptedIn
  constructor
  · rintro ⟨l'', hl'', hconn⟩
    obtain rfl := Option.some.inj (hload.symm.trans hl'')
    rw [← h.isConnected_eq hl' hR.2 hC.2]
    exact hconn
  · intro hconn
    exact ⟨l', hload, by rw [h.isConnected_eq hl' hR.2 hC.2]; exact hconn⟩

end Loaded

/-! ### One successful move -/

section Move

variable {m m' : MapFile R C} {l l' : Labyrinth} {p : UInt8}

/-- A player that a move places was absent and is then on one cell. -/
theorem count_placed (h : Loaded m l) (h' : Loaded m' l') (hl : l.Fits) {Q : Position}
    (hQ : l.Inside Q) (hdot : l.get Q = dot) (habsent : ∀ q, l.Inside q → l.get q ≠ p)
    (he : l' = l.put Q p) {d : UInt8} (hd : isValidPlayer d = true) :
    m'.count d = m.count d ∨ m.count d = 0 ∧ m'.count d = 1 := by
  obtain ⟨a, rfl⟩ := h.exists_pos hQ
  have hself : m'.cell a.1 a.2 = p := by
    rw [← h'.get_pos, he, get_put_self hQ hl]
  have hother : ∀ x : Fin R × Fin C, x ≠ a → m'.cell x.1 x.2 = m.cell x.1 x.2 := by
    intro x hx
    rw [← h'.get_pos, ← h.get_pos, he,
      get_put_of_ne hQ (h.inside_pos x) hl (fun hpos => hx (pos_injective hpos))]
  have hne : ∀ x : Fin R × Fin C, m.cell x.1 x.2 ≠ p := fun x => by
    rw [← h.get_pos]; exact habsent _ (h.inside_pos x)
  -- the cell was empty, so no player that is counted is lost there
  have hdotd : m.cell a.1 a.2 ≠ d := by
    rw [← h.get_pos, hdot]
    rintro rfl
    exact absurd hd (by decide)
  unfold MapFile.count
  by_cases hdp : d = p
  · right
    subst hdp
    constructor
    · rw [Finset.card_eq_zero, Finset.filter_eq_empty_iff]
      exact fun x _ => hne x
    · rw [Finset.card_eq_one]
      refine ⟨a, ?_⟩
      ext x
      simp only [Finset.mem_filter, Finset.mem_univ, true_and, Finset.mem_singleton]
      constructor
      · intro hx
        by_contra hxa
        rw [hother x hxa] at hx
        exact hne x hx
      · rintro rfl
        exact hself
  · left
    congr 1
    refine Finset.filter_congr fun x _ => ?_
    by_cases hxa : x = a
    · rw [hxa, hself]
      exact ⟨fun heq => absurd heq.symm hdp, fun heq => absurd heq hdotd⟩
    · rw [hother x hxa]

/-- A move of a present player keeps the number of every character. -/
theorem count_moved (h : Loaded m l) (h' : Loaded m' l') (hl : l.Fits) {P Q : Position}
    (hP : l.Inside P) (hQ : l.Inside Q) (hget : l.get P = p) (hdot : l.get Q = dot)
    (he : l' = (l.put Q p).put P dot) (d : UInt8) : m'.count d = m.count d := by
  obtain ⟨a, rfl⟩ := h.exists_pos hP
  obtain ⟨b, rfl⟩ := h.exists_pos hQ
  -- the move swaps two cells, which is a bijection of all of them
  refine Finset.card_equiv (Equiv.swap a b) fun x => ?_
  simp only [Finset.mem_filter, Finset.mem_univ, true_and]
  rw [← h'.get_pos, ← h.get_pos, he, get_moved hl hP hQ hget hdot (h.inside_pos x),
    pos_injective.swap_apply]

theorem count_of_moveResult (h : Loaded m l) (h' : Loaded m' l') (hl : l.Fits)
    (hres : MoveResult l p l') {d : UInt8} (hd : isValidPlayer d = true) :
    m'.count d = m.count d ∨ m.count d = 0 ∧ m'.count d = 1 := by
  cases hres with
  | placed Q hQ hdot habsent he => exact count_placed h h' hl hQ hdot habsent he hd
  | moved P d' hP hQ hget hdot he =>
    exact Or.inl (count_moved h h' hl hP hQ hget hdot he d)

end Move

namespace Preserves

protected theorem refl (m : MapFile R C) (hR : 1 ≤ R ∧ R ≤ 100) (hC : 1 ≤ C ∧ C ≤ 100) :
    Preserves m m where
  wall _ _ _ := rfl
  isOpen_eq _ _ := rfl
  count_eq _ _ := Or.inl rfl
  accepted := by
    rintro ⟨mem, hacc⟩ mem'
    obtain ⟨l, -, hl⟩ := loadMap_bytes m hR hC mem
    rw [hl.acceptedIn_iff hR hC] at hacc ⊢
    exact hacc

protected theorem trans {m₁ m₂ m₃ : MapFile R C} (h : Preserves m₁ m₂) (h' : Preserves m₂ m₃) :
    Preserves m₁ m₃ where
  wall i j hw := by
    rw [h'.wall i j (by rw [h.isOpen_eq]; exact hw), h.wall i j hw]
  isOpen_eq i j := (h'.isOpen_eq i j).trans (h.isOpen_eq i j)
  count_eq d hd := by
    rcases h.count_eq d hd with h1 | ⟨h1, h2⟩
    · rw [← h1]; exact h'.count_eq d hd
    · rcases h'.count_eq d hd with h3 | ⟨h3, h4⟩
      · exact Or.inr ⟨h1, h3.trans h2⟩
      · omega
  accepted hacc mem := h'.accepted ⟨mem, h.accepted hacc mem⟩ mem

/-- A successful move of a player preserves the map. -/
theorem of_moveResult {m m' : MapFile R C} (hR : 1 ≤ R ∧ R ≤ 100) (hC : 1 ≤ C ∧ C ≤ 100)
    {l l' : Labyrinth} {p : UInt8} (h : Loaded m l) (h' : Loaded m' l')
    (hp : isValidPlayer p = true) (hres : MoveResult l p l') : Preserves m m' where
  wall i j hw := by
    rw [← h.get_pos (i, j)] at hw
    rw [← h'.get_pos (i, j), ← h.get_pos (i, j)]
    exact hres.get_wall (h.fits hR.2 hC.2) hp (h.inside_pos (i, j)) hw
  isOpen_eq i j := by
    rw [← h'.get_pos (i, j), ← h.get_pos (i, j)]
    exact hres.isOpen_iff (h.fits hR.2 hC.2) hp (h.inside_pos (i, j))
  count_eq d hd := count_of_moveResult h h' (h.fits hR.2 hC.2) hres hd
  accepted := by
    rintro ⟨mem, hacc⟩ mem'
    rw [h.acceptedIn_iff hR hC] at hacc
    rw [h'.acceptedIn_iff hR hC]
    exact hres.isConnected (h.fits hR.2 hC.2) hp hacc

end Preserves

/-- After a successful move the struct again holds a map. -/
theorem exists_loaded_of_moveResult {m : MapFile R C} {l l' : Labyrinth} {p : UInt8}
    (h : Loaded m l) (hl : l.Fits) (hp : isValidPlayer p = true) (hres : MoveResult l p l') :
    ∃ m' : MapFile R C, Loaded m' l' := by
  -- what a move writes is open, and neither NUL nor newline is
  have hplayer : ∀ c, isOpen c = true → c ≠ 0 ∧ c ≠ newline := by
    intro c hc
    refine ⟨?_, ?_⟩ <;> rintro rfl <;> exact absurd hc (by decide)
  have hplain : ∀ (i : Fin R) (j : Fin C), l'.cell (i.val : ℤ) (j.val : ℤ) ≠ 0 ∧
      l'.cell (i.val : ℤ) (j.val : ℤ) ≠ newline := by
    intro i j
    have hin := h.inside_pos (i, j)
    change l'.get (pos (i, j)) ≠ 0 ∧ l'.get (pos (i, j)) ≠ newline
    cases hopen : isOpen (l.get (pos (i, j))) with
    | true => exact hplayer _ (by rw [hres.isOpen_iff hl hp hin, hopen])
    | false =>
      rw [hres.get_wall hl hp hin hopen, h.get_pos]
      exact m.plain i j
  exact ⟨MapFile.ofLabyrinth R C l' hplain, (hres.rows_eq hl).trans h.rows_eq,
    (hres.cols_eq hl).trans h.cols_eq, fun _ _ => rfl⟩

/-! ### Runs -/

/-- The options `--map path --player p` and, for a direction, `--move d`. -/
def mapOptions (path : CStr) (p : UInt8) (move : Option Direction) : Options where
  filename := some path
  playerId := some [p]
  moveDirection := move.map Direction.name
  versionFlag := false
  otherArgs := true

/-- The usual argument vector with these options. -/
def mapArgs (path : CStr) (p : UInt8) (move : Option Direction) : List CStr :=
  [cstr ['-', '-', 'm', 'a', 'p'], path, cstr ['-', '-', 'p', 'l', 'a', 'y', 'e', 'r'], [p]] ++
    match move with
    | none => []
    | some d => [cstr ['-', '-', 'm', 'o', 'v', 'e'], d.name]

theorem parseOptions_mapArgs (path : CStr) (p : UInt8) (move : Option Direction) :
    parseOptions (mapArgs path p move) = some (mapOptions path p move) := by
  cases move with
  | none => rfl
  | some d => cases d <;> rfl

/-- A run of `main` on the map file `path` by a single-digit player, with no direction or one of
the four, given by any argument vector that says so. -/
structure Run (path : CStr) where
  env : Env
  args : List CStr
  player : UInt8
  move : Option Direction
  isPlayer : isValidPlayer player = true
  parse : parseOptions args = some (mapOptions path player move)

namespace Run

variable {path : CStr}

/-- The files after the run. -/
def exec (r : Run path) (fs : Files) : Files := (main r.env fs r.args).2

/-- The files after a sequence of runs. -/
def execAll (runs : List (Run path)) (fs : Files) : Files := runs.foldl (fun fs r => r.exec fs) fs

/-- Writing back either leaves the files alone or writes the map. -/
theorem saveAndExit_cases (path : CStr) (env : Env) (fs : Files) (l : Labyrinth) :
    (saveAndExit env fs (some path) l).2 = fs ∨
      (saveAndExit env fs (some path) l).2 = Function.update fs path (some l.saveMap) := by
  unfold saveAndExit
  simp only
  split_ifs
  · exact Or.inr rfl
  · exact Or.inl rfl

/-- **What one run does to the files.** -/
theorem exec_cases (r : Run path) {fs : Files} {m : MapFile R C} (hR : 1 ≤ R ∧ R ≤ 100)
    (hC : 1 ≤ C ∧ C ≤ 100) (hfs : fs path = some m.bytes) :
    r.exec fs = fs ∨ r.exec fs = Function.update fs path (some m.bytes) ∨
      ∃ l l', Loaded m l ∧ MoveResult l r.player l' ∧
        r.exec fs = Function.update fs path (some l'.saveMap) := by
  unfold exec main
  rw [r.parse]
  simp only [mapOptions, Bool.false_and, Bool.false_eq_true, ↓reduceIte]
  cases r.env.malloc with
  | none => exact Or.inl rfl
  | some mem =>
    by_cases hread : r.env.canRead path = true
    · obtain ⟨l, hload, hl⟩ := loadMap_bytes m hR hC mem
      simp only [fopenRead, Option.bind_some, hread, ↓reduceIte, hfs, hload, play, r.isPlayer]
      -- a map that is not connected ends the program before anything is written
      by_cases hconn : l.isConnected = true
      · simp only [hconn, ↓reduceIte]
        cases r.move with
        | none =>
          -- no move: the map is written back as it is
          rcases saveAndExit_cases path r.env fs l with h | h
          · exact Or.inl h
          · exact Or.inr (Or.inl (by rw [← saveMap_eq_bytes hl]; exact h))
        | some d =>
          simp only [Option.map_some]
          cases hcall : l.movePlayer r.player d.name with
          | mk ok l' =>
            cases ok with
            -- a refused move ends the program as well
            | false => exact Or.inl rfl
            | true =>
              rcases saveAndExit_cases path r.env fs l' with h | h
              · exact Or.inl h
              · exact Or.inr (Or.inr ⟨l, l', hl, movePlayer_cases hcall, h⟩)
      · simp only [hconn, Bool.false_eq_true, ↓reduceIte, true_or]
    · simp only [fopenRead, Option.bind_some, hread, Bool.false_eq_true, ↓reduceIte, loadMap,
        true_or]

/-- One run keeps the file an `R × C` map and preserves it. -/
theorem exec_preserves (r : Run path) {fs : Files} {m : MapFile R C} (hR : 1 ≤ R ∧ R ≤ 100)
    (hC : 1 ≤ C ∧ C ≤ 100) (hfs : fs path = some m.bytes) :
    ∃ m' : MapFile R C, r.exec fs path = some m'.bytes ∧ Preserves m m' := by
  rcases r.exec_cases hR hC hfs with h | h | ⟨l, l', hl, hres, h⟩
  · exact ⟨m, by rw [h]; exact hfs, Preserves.refl m hR hC⟩
  · exact ⟨m, by rw [h, Function.update_self], Preserves.refl m hR hC⟩
  · obtain ⟨m', hm'⟩ := exists_loaded_of_moveResult hl (hl.fits hR.2 hC.2) r.isPlayer hres
    refine ⟨m', ?_, Preserves.of_moveResult hR hC hl hm' r.isPlayer hres⟩
    rw [h, Function.update_self, saveMap_eq_bytes hm']

end Run

/-- **Runs preserve the map.**  After any sequence of runs on an `R × C` map file, the file is
again an `R × C` map: walls and open cells stay where they are, no player is lost or duplicated,
an absent one can have been placed on one cell, and a map that `isConnected` accepted at the start
is accepted in every later run. -/
theorem runs_preserve {path : CStr} {fs : Files} (m : MapFile R C) (hR : 1 ≤ R ∧ R ≤ 100)
    (hC : 1 ≤ C ∧ C ≤ 100) (hfs : fs path = some m.bytes) (runs : List (Run path)) :
    ∃ m' : MapFile R C, Run.execAll runs fs path = some m'.bytes ∧ Preserves m m' := by
  induction runs generalizing fs m with
  | nil => exact ⟨m, hfs, Preserves.refl m hR hC⟩
  | cons r runs ih =>
    obtain ⟨m₁, h₁, hp₁⟩ := r.exec_preserves hR hC hfs
    obtain ⟨m₂, h₂, hp₂⟩ := ih m₁ h₁
    exact ⟨m₂, h₂, hp₁.trans hp₂⟩

/-- The file `1.` of one line. -/
def smallMap : MapFile 1 2 where
  cell _ j := if j = 0 then '1'.toUInt8 else dot
  plain i j := by revert i j; decide

/-- A run in which player 1 moves right. -/
def smallRun : Run (cstr ['m']) where
  env := ⟨some ⟨fun _ => 0, 0, 0⟩, fun _ => true, fun _ => true⟩
  args := mapArgs (cstr ['m']) '1'.toUInt8 (some .right)
  player := '1'.toUInt8
  move := some .right
  isPlayer := by decide
  parse := parseOptions_mapArgs ..

/-- Every name is that of the file `1.`. -/
def smallFiles : Files := fun _ => some smallMap.bytes

theorem runs_preserve_smallMap :
    Run.execAll [smallRun] smallFiles (cstr ['m']) = some (cstr ['.', '1', '\n']) ∧
      ∃ m' : MapFile 1 2, Run.execAll [smallRun, smallRun] smallFiles (cstr ['m'])
        = some m'.bytes ∧ Preserves smallMap m' := by
  have hfs : smallFiles (cstr ['m']) = some smallMap.bytes := rfl
  exact ⟨by decide, runs_preserve smallMap (by decide) (by decide) hfs [smallRun, smallRun]⟩

end Jyyos.Labyrinth
