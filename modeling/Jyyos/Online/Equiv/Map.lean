import Jyyos.Labyrinth.Equiv.Main
import Jyyos.Online.Equiv.Server

/-!
# The map of the server

If the map file is rectangular and without NULs, then whatever the users do, the temporary file
holds a map with the walls and the players of the original one (`run_intact`): the program that
moves a player places one that is not on the map, but the server only moves players of the map.  The
cells of a player change only when a key is pressed in a session that plays it (`run_undisturbed`).
Two users may play the same player, see `two_users_one_player`; then each of them moves it.

The program may find no memory and may fail to open a file; that it opens the file for writing and
then can not write is left out.
-/

namespace Jyyos.Labyrinth

variable {R C : ℕ}

/-- What becomes of a map when only the player `p` may move, if any. -/
structure MovesOnly (p : Option UInt8) (m m' : MapFile R C) : Prop where
  preserves : Preserves m m'
  count_eq : ∀ d, isValidPlayer d = true → m'.count d = m.count d
  others : ∀ d, isValidPlayer d = true → p ≠ some d → ∀ i j, m'.cell i j = d ↔ m.cell i j = d

protected theorem MovesOnly.refl (p : Option UInt8) (m : MapFile R C) (hR : 1 ≤ R ∧ R ≤ 100)
    (hC : 1 ≤ C ∧ C ≤ 100) : MovesOnly p m m :=
  ⟨.refl m hR hC, fun _ _ => rfl, fun _ _ _ _ _ => Iff.rfl⟩

/-- A player whose digit is in the file is on the map. -/
theorem MapFile.count_pos {m : MapFile R C} {d : UInt8} (hd : d ≠ newline) (h : d ∈ m.bytes) :
    0 < m.count d := by
  obtain ⟨i, -, hi⟩ := List.mem_flatMap.mp h
  obtain hi | hi := List.mem_append.mp hi
  · obtain ⟨j, -, hj⟩ := List.mem_map.mp hi
    exact Finset.card_pos.mpr ⟨(i, j), Finset.mem_filter.mpr ⟨Finset.mem_univ _, hj⟩⟩
  · exact absurd (List.mem_singleton.mp hi) hd

/-- A move of a player that is on the map. -/
theorem MovesOnly.of_moveResult {m m' : MapFile R C} (hR : 1 ≤ R ∧ R ≤ 100) (hC : 1 ≤ C ∧ C ≤ 100)
    {l l' : Labyrinth} {p : UInt8} (h : Loaded m l) (h' : Loaded m' l')
    (hp : isValidPlayer p = true) (hpos : 0 < m.count p) (hres : MoveResult l p l') :
    MovesOnly (some p) m m' := by
  have hpreserves := Preserves.of_moveResult hR hC h h' hp hres
  have hl := h.fits hR.2 hC.2
  cases hres with
  | placed Q hQ hdot habsent he =>
    obtain ⟨x, hx⟩ := Finset.card_pos.mp hpos
    have hcell := (Finset.mem_filter.mp hx).2
    rw [← h.get_pos] at hcell
    exact absurd hcell (habsent _ (h.inside_pos x))
  | moved P dir hP hQ hget hdot he =>
    refine ⟨hpreserves, fun d _ => count_moved h h' hl hP hQ hget hdot he d, ?_⟩
    intro d hd hne i j
    have hdotd : dot ≠ d := by
      rintro rfl
      exact absurd hd (by decide)
    have hpd : p ≠ d := fun heq => hne (congrArg some heq)
    rw [← h'.get_pos (i, j), ← h.get_pos (i, j), he,
      get_moved hl hP hQ hget hdot (h.inside_pos (i, j))]
    -- the two cells that are swapped hold the player and a dot
    rcases eq_or_ne (pos (i, j)) P with heq | hneP
    · rw [heq, Equiv.swap_apply_left, hget, hdot]
      exact ⟨fun h => absurd h hdotd, fun h => absurd h hpd⟩
    · rcases eq_or_ne (pos (i, j)) (P.shift dir) with heq | hneQ
      · rw [heq, Equiv.swap_apply_right, hget, hdot]
        exact ⟨fun h => absurd h hpd, fun h => absurd h hdotd⟩
      · rw [Equiv.swap_apply_of_ne_of_ne hneP hneQ]

namespace Run

variable {path : CStr} {fs : Files} {m : MapFile R C}

/-- Other files are left alone. -/
theorem exec_of_ne (r : Run path) (hR : 1 ≤ R ∧ R ≤ 100) (hC : 1 ≤ C ∧ C ≤ 100)
    (hfs : fs path = some m.bytes) {f : CStr} (hf : f ≠ path) : r.exec fs f = fs f := by
  rcases r.exec_cases hR hC hfs with h | h | ⟨l, l', -, -, h⟩
  · rw [h]
  · rw [h, Function.update_of_ne hf]
  · rw [h, Function.update_of_ne hf]

/-- A run by a player that is on the map. -/
theorem exec_movesOnly (r : Run path) (hR : 1 ≤ R ∧ R ≤ 100) (hC : 1 ≤ C ∧ C ≤ 100)
    (hfs : fs path = some m.bytes) (hpos : 0 < m.count r.player) :
    ∃ m' : MapFile R C, r.exec fs path = some m'.bytes ∧ MovesOnly (some r.player) m m' := by
  rcases r.exec_cases hR hC hfs with h | h | ⟨l, l', hl, hres, h⟩
  · exact ⟨m, by rw [h]; exact hfs, .refl _ m hR hC⟩
  · exact ⟨m, by rw [h, Function.update_self], .refl _ m hR hC⟩
  · obtain ⟨m', hm'⟩ := exists_loaded_of_moveResult hl (hl.fits hR.2 hC.2) r.isPlayer hres
    refine ⟨m', ?_, .of_moveResult hR hC hl hm' r.isPlayer hpos hres⟩
    rw [h, Function.update_self, saveMap_eq_bytes hm']

/-- A run without a move. -/
theorem exec_of_move_none (r : Run path) (hR : 1 ≤ R ∧ R ≤ 100) (hC : 1 ≤ C ∧ C ≤ 100)
    (hfs : fs path = some m.bytes) (hmove : r.move = none) : r.exec fs path = some m.bytes := by
  unfold exec main
  rw [r.parse]
  simp only [mapOptions, Bool.false_and, Bool.false_eq_true, ↓reduceIte, hmove, Option.map_none]
  cases r.env.malloc with
  | none => exact hfs
  | some mem =>
    by_cases hread : r.env.canRead path = true
    · obtain ⟨l, hload, hl⟩ := loadMap_bytes m hR hC mem
      simp only [fopenRead, Option.bind_some, hread, ↓reduceIte, hfs, hload, play, r.isPlayer]
      by_cases hconn : l.isConnected = true
      · simp only [hconn, ↓reduceIte]
        rcases saveAndExit_cases path r.env fs l with h | h
        · rw [h, hfs]
        · rw [h, Function.update_self, saveMap_eq_bytes hl]
      · simp only [hconn, Bool.false_eq_true, ↓reduceIte, hfs]
    · simp only [fopenRead, Option.bind_some, hread, Bool.false_eq_true, ↓reduceIte, loadMap, hfs]

end Run

end Jyyos.Labyrinth

namespace Jyyos.Online.Server

open Labyrinth Runs

variable {S : Type*} {R C : ℕ}

/-! ### The program as the server calls it -/

/-- The character of a player. -/
def digit (i : ℕ) : UInt8 := (Nat.digitChar i).toUInt8

theorem isValidPlayer_digit : ∀ i < 10, isValidPlayer (digit i) = true := by decide

theorem digit_ne_newline : ∀ i < 10, digit i ≠ newline := by decide

theorem cstr_toDigits : ∀ i < 10, cstr (Nat.toDigits 10 i) = [digit i] := by decide

/-- The run for `get_map_state`. -/
def lookRun (path : CStr) (env : Env) : Labyrinth.Run path where
  env := env
  args := mapArgs path (digit 0) none
  player := digit 0
  move := none
  isPlayer := by decide
  parse := parseOptions_mapArgs ..

/-- The run for `move_player`. -/
def keyRun (path : CStr) (env : Env) {i : ℕ} (hi : i < 10) (dir : Direction) :
    Labyrinth.Run path where
  env := env
  args := mapArgs path (digit i) (some dir)
  player := digit i
  move := some dir
  isPlayer := isValidPlayer_digit i hi
  parse := parseOptions_mapArgs ..

theorem files_getMapState (st : Server S) (env : Env) :
    (st.getMapState env).files = (lookRun st.tempMapFile env).exec st.files := rfl

theorem files_movePlayer (st : Server S) (env : Env) {i : ℕ} (hi : i < 10) (dir : Direction) :
    (st.movePlayer env i dir.name).files = (keyRun st.tempMapFile env hi dir).exec st.files := by
  rw [movePlayer, cstr_toDigits i hi]
  rfl

theorem exists_direction {key : Char} {direction : CStr} (h : direction? key = some direction) :
    ∃ dir : Direction, direction = dir.name := by
  unfold direction? at h
  split_ifs at h
  · exact ⟨.up, (Option.some.inj h).symm⟩
  · exact ⟨.left, (Option.some.inj h).symm⟩
  · exact ⟨.down, (Option.some.inj h).symm⟩
  · exact ⟨.right, (Option.some.inj h).symm⟩

/-! ### Blocks -/

/-- No key is pressed in a session that plays one of the players in `D`. -/
def Quiet (D : Set UInt8) (st : Server S) : Event S → Prop
  | .key s _ _ => ∀ username i, st.sessions s = .playing username i → digit i ∉ D
  | _ => True

/-- The temporary file holds what the map `m` has become, and the players in `D` are where they
were. -/
structure Intact (D : Set UInt8) (mapContent : Option Str) (temp : CStr) (files : Files)
    (m : MapFile R C) (st : Server S) : Prop where
  held : Held mapContent st
  temp_eq : st.tempMapFile = temp
  map : ∃ m' : MapFile R C, st.files temp = some m'.bytes ∧ Preserves m m' ∧
    (∀ d, isValidPlayer d = true → m'.count d = m.count d) ∧
    ∀ d ∈ D, isValidPlayer d = true → ∀ i j, m'.cell i j = d ↔ m.cell i j = d
  frame : ∀ f ≠ temp, st.files f = files f

/-- The digits that the server has read are on the map. -/
def OnMap (mapContent : Option Str) (m : MapFile R C) : Prop :=
  ∀ content ∈ mapContent, ∀ i < 10, Nat.digitChar i ∈ content → digit i ∈ m.bytes

section Step

variable {D : Set UInt8} {mapContent : Option Str} {temp : CStr} {files : Files}
  {m : MapFile R C} {st st' : Server S}

/-- A run of the program that moves only a player outside `D`. -/
theorem Intact.run (hst : Intact D mapContent temp files m st) (hheld : Held mapContent st')
    (htemp : st'.tempMapFile = temp) {p : Option UInt8} (hp : ∀ d ∈ D, p ≠ some d)
    (hmap : ∀ m' : MapFile R C, st.files temp = some m'.bytes →
      (∀ d, isValidPlayer d = true → m'.count d = m.count d) →
      (∃ m'' : MapFile R C, st'.files temp = some m''.bytes ∧ MovesOnly p m' m'') ∧
      ∀ f ≠ temp, st'.files f = st.files f) : Intact D mapContent temp files m st' := by
  obtain ⟨m', hfile, hpres, hcount, hcells⟩ := hst.map
  obtain ⟨⟨m'', hfile', hmoves⟩, hframe⟩ := hmap m' hfile hcount
  refine ⟨hheld, htemp, ⟨m'', hfile', hpres.trans hmoves.preserves, ?_, ?_⟩, ?_⟩
  · exact fun d hd => (hmoves.count_eq d hd).trans (hcount d hd)
  · exact fun d hd hvalid i j =>
      (hmoves.others d hvalid (hp d hd) i j).trans (hcells d hd hvalid i j)
  · exact fun f hf => (hframe f hf).trans (hst.frame f hf)

theorem Intact.step [DecidableEq S] (hR : 1 ≤ R ∧ R ≤ 100) (hC : 1 ≤ C ∧ C ≤ 100)
    (hmap : OnMap mapContent m) {e : Event S} (hst : Intact D mapContent temp files m st)
    (hquiet : Quiet D st e) (h : st.step e = some st') : Intact D mapContent temp files m st' := by
  have hheld := hst.held.step h
  cases e with
  | connect s username =>
    rw [Server.step] at h
    split at h
    · cases h
      have hfiles : (st.connect s username).files = st.files ∧
          (st.connect s username).tempMapFile = st.tempMapFile := by
        unfold connect
        split
        · exact ⟨rfl, rfl⟩
        · split
          · exact ⟨rfl, rfl⟩
          · exact ⟨rfl, rfl⟩
      exact ⟨hheld, hfiles.2.trans hst.temp_eq, hfiles.1 ▸ hst.map, hfiles.1 ▸ hst.frame⟩
    · cases h
  | look s env =>
    rw [Server.step] at h
    split at h
    · cases h
      refine hst.run hheld hst.temp_eq (fun d _ => (Option.some_ne_none d).symm)
        fun m' hfile _ => ?_
      have hfile' : st.files st.tempMapFile = some m'.bytes := hst.temp_eq ▸ hfile
      rw [files_getMapState, ← hst.temp_eq]
      refine ⟨⟨m', (lookRun _ env).exec_of_move_none hR hC hfile' rfl, .refl _ m' hR hC⟩, ?_⟩
      exact fun f hf => (lookRun _ env).exec_of_ne hR hC hfile' hf
    · cases h
  | key s env key =>
    rw [Server.step] at h
    split at h
    · rename_i username i hplay
      split at h
      · rename_i direction hdir
        cases h
        obtain ⟨dir, rfl⟩ := exists_direction hdir
        have hav := hst.held.session s username i hplay
        rw [hst.held.available] at hav
        obtain ⟨hi, content, hcontent, hmem⟩ := mem_getAvailablePlayerIds.mp hav
        have hdigit := hmap content hcontent i hi hmem
        refine hst.run (p := some (digit i)) hheld hst.temp_eq ?_ fun m' hfile hcount => ?_
        · rintro d hd heq
          exact hquiet username i hplay (Option.some.inj heq ▸ hd)
        · have hfile' : st.files st.tempMapFile = some m'.bytes := hst.temp_eq ▸ hfile
          have hpos : 0 < m'.count (digit i) := by
            rw [hcount _ (isValidPlayer_digit i hi)]
            exact MapFile.count_pos (digit_ne_newline i hi) hdigit
          rw [files_movePlayer st env hi dir, ← hst.temp_eq]
          exact ⟨(keyRun _ env hi dir).exec_movesOnly hR hC hfile' hpos,
            fun f hf => (keyRun _ env hi dir).exec_of_ne hR hC hfile' hf⟩
      · cases h
        exact hst
    · cases h
  | close s =>
    rw [Server.step] at h
    split at h
    · cases h
    · cases h
      exact ⟨hheld, hst.temp_eq, hst.map, hst.frame⟩

theorem intact_init (hR : 1 ≤ R ∧ R ≤ 100) (hC : 1 ≤ C ∧ C ≤ 100)
    (hfile : files temp = some m.bytes) :
    Intact D mapContent temp files m (init mapContent temp files : Server S) where
  held := ⟨rfl, nofun, nofun⟩
  temp_eq := rfl
  map := ⟨m, hfile, .refl m hR hC, fun _ _ => rfl, fun _ _ _ _ _ => Iff.rfl⟩
  frame := fun _ _ => rfl

end Step

section Run

variable [DecidableEq S] {mapContent : Option Str} {temp : CStr} {files : Files} {m : MapFile R C}

/-- **The map stays a map.**  After any interleaving of sessions, looks, keys and session ends, the
temporary file holds a map of the same size with the same walls, on which every player occurs as
often as on the original map; and no other file has changed. -/
theorem run_intact (hR : 1 ≤ R ∧ R ≤ 100) (hC : 1 ≤ C ∧ C ≤ 100) (hfile : files temp = some m.bytes)
    (hmap : OnMap mapContent m) {events : List (Event S)} {st : Server S}
    (hrun : (init mapContent temp files).run events = some st) :
    (∃ m' : MapFile R C, st.files temp = some m'.bytes ∧ Preserves m m' ∧
      ∀ d, isValidPlayer d = true → m'.count d = m.count d) ∧
    ∀ f ≠ temp, st.files f = files f := by
  have hquiet : ∀ (st : Server S) (e : Event S), Quiet ∅ st e := by
    intro st e
    cases e with
    | connect s username => trivial
    | look s env => trivial
    | key s env key => exact fun _ _ _ => Set.notMem_empty _
    | close s => trivial
  have hst := run_invariant (fun _ _ _ hst hq hstep => Intact.step hR hC hmap hst hq hstep)
    (intact_init hR hC hfile) (Guarded.of_forall hquiet events _) hrun
  obtain ⟨m', hfile', hpres, hcount, -⟩ := hst.map
  exact ⟨⟨m', hfile', hpres, hcount⟩, hst.frame⟩

/-- **A player is moved only from its own sessions.**  It stays where it is in every run in which no
key is pressed in a session that plays it. -/
theorem run_undisturbed (hR : 1 ≤ R ∧ R ≤ 100) (hC : 1 ≤ C ∧ C ≤ 100)
    (hfile : files temp = some m.bytes) (hmap : OnMap mapContent m) {d : UInt8}
    (hd : isValidPlayer d = true) {events : List (Event S)}
    (hquiet : Guarded step (Quiet {d}) (init mapContent temp files) events) {st : Server S}
    (hrun : (init mapContent temp files).run events = some st) :
    ∃ m' : MapFile R C, st.files temp = some m'.bytes ∧
      ∀ i j, m'.cell i j = d ↔ m.cell i j = d := by
  have hst := run_invariant (fun _ _ _ hst hq hstep => Intact.step hR hC hmap hst hq hstep)
    (intact_init hR hC hfile) hquiet hrun
  obtain ⟨m', hfile', -, -, hcells⟩ := hst.map
  exact ⟨m', hfile', hcells d rfl hd⟩

end Run

/-- The map `1.2`. -/
def duoMap : MapFile 1 3 where
  cell _ j := if j = 0 then '1'.toUInt8 else if j = 1 then dot else '2'.toUInt8
  plain i j := by revert i j; decide

theorem onMap_duoMap : OnMap (some "1.2\n".toList) duoMap := by
  have hall : ∀ i < 10, Nat.digitChar i ∈ "1.2\n".toList → digit i ∈ duoMap.bytes := by decide
  intro content hcontent i hi hmem
  cases hcontent
  exact hall i hi hmem

/-- Every file is this map. -/
def duoFiles : Files := fun _ => some duoMap.bytes

/-- Player 1 goes right. -/
def duoRun : List (Event Bool) :=
  [.connect false "alice".toList,
    .key false ⟨some ⟨fun _ => 0, 0, 0⟩, fun _ => true, fun _ => true⟩ 'd']

theorem run_intact_duoMap : ∃ st : Server Bool,
    (init (some "1.2\n".toList) (cstr ['t']) duoFiles).run duoRun = some st ∧
    ∃ m' : MapFile 1 3, st.files (cstr ['t']) = some m'.bytes ∧ Preserves duoMap m' := by
  refine ⟨_, rfl, ?_⟩
  obtain ⟨⟨m', hfile, hpres, -⟩, -⟩ := @run_intact Bool 1 3 _ _ (cstr ['t']) duoFiles duoMap
    (by decide) (by decide) rfl onMap_duoMap duoRun _ rfl
  exact ⟨m', hfile, hpres⟩

theorem run_undisturbed_duoMap : ∃ st : Server Bool,
    (init (some "1.2\n".toList) (cstr ['t']) duoFiles).run duoRun = some st ∧
    ∃ m' : MapFile 1 3, st.files (cstr ['t']) = some m'.bytes ∧
      ∀ i j, m'.cell i j = '2'.toUInt8 ↔ duoMap.cell i j = '2'.toUInt8 := by
  refine ⟨_, rfl, ?_⟩
  have hvalid : isValidPlayer '2'.toUInt8 = true := by decide
  refine @run_undisturbed Bool 1 3 _ _ (cstr ['t']) duoFiles duoMap (by decide) (by decide) rfl
    onMap_duoMap _ hvalid duoRun ?_ _ rfl
  refine Guarded.cons trivial rfl (Guarded.cons ?_ rfl trivial)
  intro username i hplay hmem
  cases hplay
  exact absurd hmem (by decide)

end Jyyos.Online.Server
