import Jyyos.Labyrinth.Equiv.Options

/-!
# The exits of `main`

`main_cases` lists how a run ends: with the version text, with a map that is written back, with
status 1, or in the failed assertion on `malloc`.  Only the second exit touches a file, and it is
reached with a connected map that `movePlayer`, if it was called at all, has accepted
(`main_changes_nothing`).
-/

namespace Jyyos.Labyrinth

open Getopt

/-- What the moving part of `main` makes of the loaded map: nothing without a direction, and
otherwise what a successful `movePlayer` leaves. -/
def Moved (o : Options) (p : UInt8) (l l' : Labyrinth) : Prop :=
  match o.moveDirection with
  | none => l' = l
  | some d => l.movePlayer p d = (true, l')

/-- The run that writes a map back. -/
structure Saves (env : Env) (fs : Files) (o : Options) (f : CStr) (p : UInt8)
    (l l' : Labyrinth) : Prop where
  filename : o.filename = some f
  playerId : o.playerId = some [p]
  isPlayer : isValidPlayer p = true
  load : ∃ mem, env.malloc = some mem ∧ loadMap mem (fopenRead env fs (some f)) = some l
  connected : l.isConnected = true
  moved : Moved o p l l'

theorem saveAndExit_eq (env : Env) (fs : Files) (filename : Option CStr) (l : Labyrinth) :
    (∃ f, filename = some f ∧ saveAndExit env fs filename l =
        (.status 0, Function.update fs f (some l.saveMap))) ∨
      saveAndExit env fs filename l = (.status 1, fs) := by
  unfold saveAndExit
  cases filename with
  | none => exact Or.inr rfl
  | some f =>
    dsimp only
    split_ifs
    · exact Or.inl ⟨f, rfl, rfl⟩
    · exact Or.inr rfl

/-- How `main` ends once the map is loaded. -/
theorem play_cases (env : Env) (fs : Files) (o : Options) (l : Labyrinth) :
    (∃ f p l', o.filename = some f ∧ o.playerId = some [p] ∧ isValidPlayer p = true ∧
        l.isConnected = true ∧ Moved o p l l' ∧
        play env fs o l = (.status 0, Function.update fs f (some l'.saveMap))) ∨
      play env fs o l = (.status 1, fs) := by
  unfold play
  rcases hp : o.playerId with _ | _ | ⟨p, _ | ⟨q, ps⟩⟩
  · exact Or.inr rfl
  · exact Or.inr rfl
  · dsimp only
    by_cases hvalid : isValidPlayer p = true
    · by_cases hconn : l.isConnected = true
      · rw [if_pos hvalid, if_pos hconn]
        cases hmove : o.moveDirection with
        | none =>
          rcases saveAndExit_eq env fs o.filename l with ⟨f, hf, h⟩ | h
          · exact Or.inl ⟨f, p, l, hf, rfl, hvalid, hconn, by rw [Moved, hmove], h⟩
          · exact Or.inr h
        | some d =>
          dsimp only
          rcases hcall : l.movePlayer p d with ⟨_ | _, l'⟩
          · exact Or.inr rfl
          · rcases saveAndExit_eq env fs o.filename l' with ⟨f, hf, h⟩ | h
            · exact Or.inl ⟨f, p, l', hf, rfl, hvalid, hconn, by rw [Moved, hmove]; exact hcall, h⟩
            · exact Or.inr h
      · rw [if_pos hvalid, if_neg hconn]
        exact Or.inr rfl
    · rw [if_neg hvalid]
      exact Or.inr rfl
  · exact Or.inr rfl

/-- **How a run ends.** -/
theorem main_cases (env : Env) (fs : Files) (args : List CStr) :
    (∃ o, parseOptions args = some o ∧ o.versionFlag = true ∧ o.otherArgs = false ∧
        main env fs args = (.status 0, fs)) ∨
      (∃ o f p l l', parseOptions args = some o ∧ o.versionFlag = false ∧
        Saves env fs o f p l l' ∧
        main env fs args = (.status 0, Function.update fs f (some l'.saveMap))) ∨
      main env fs args = (.status 1, fs) ∨
      env.malloc = none ∧ main env fs args = (.abort, fs) := by
  unfold main
  cases hparse : parseOptions args with
  | none => exact Or.inr (Or.inr (Or.inl rfl))
  | some o =>
    cases hversion : o.versionFlag with
    | true =>
      cases hother : o.otherArgs with
      | true => exact Or.inr (Or.inr (Or.inl (by simp [hversion, hother])))
      | false => exact Or.inl ⟨o, rfl, hversion, hother, by simp [hversion, hother]⟩
    | false =>
      simp only [hversion, Bool.false_and, Bool.false_eq_true, ↓reduceIte]
      cases hmalloc : env.malloc with
      | none => exact Or.inr (Or.inr (Or.inr ⟨rfl, rfl⟩))
      | some mem =>
        dsimp only
        cases hload : loadMap mem (fopenRead env fs o.filename) with
        | none => exact Or.inr (Or.inr (Or.inl rfl))
        | some l =>
          rcases play_cases env fs o l with ⟨f, p, l', hf, hp, hvalid, hconn, hmoved, h⟩ | h
          · refine Or.inr (Or.inl ⟨o, f, p, l, l', rfl, hversion, ?_, h⟩)
            exact ⟨hf, hp, hvalid, ⟨mem, hmalloc, hf ▸ hload⟩, hconn, hmoved⟩
          · exact Or.inr (Or.inr (Or.inl h))

/-- **A failing run changes nothing.**  Whatever the arguments and the files: a run that does not
return 0 leaves all files as they are.  If a run returns 0 and a file has changed, then it is the
map file, which had been loaded as a map `l` that `isConnected` accepts, and what was written is
`l` itself or, if `--move` was given, what `movePlayer` made of it when it returned `true`. -/
theorem main_changes_nothing (env : Env) (fs : Files) (args : List CStr) :
    ((main env fs args).1 ≠ .status 0 → (main env fs args).2 = fs) ∧
      ((main env fs args).1 = .status 0 → (main env fs args).2 ≠ fs →
        ∃ f mem l l', lastArg 'm'.toUInt8 (scanned args) = some f ∧ env.malloc = some mem ∧
          loadMap mem (fopenRead env fs (some f)) = some l ∧ l.isConnected = true ∧
          (main env fs args).2 = Function.update fs f (some l'.saveMap) ∧
          ((∀ d, .opt 'd'.toUInt8 (some d) ∉ scanned args) → l' = l) ∧
          ((∃ d, .opt 'd'.toUInt8 (some d) ∈ scanned args) →
            ∃ p d, lastArg 'p'.toUInt8 (scanned args) = some [p] ∧
              lastArg 'd'.toUInt8 (scanned args) = some d ∧ l.movePlayer p d = (true, l'))) := by
  rcases main_cases env fs args with ⟨o, -, -, -, h⟩ | ⟨o, f, p, l, l', hparse, -, hsaves, h⟩ |
    h | ⟨-, h⟩
  · rw [h]
    exact ⟨fun hne => absurd rfl hne, fun _ hne => absurd rfl hne⟩
  · rw [h]
    refine ⟨fun hne => absurd rfl hne, fun _ _ => ?_⟩
    obtain ⟨-, rfl⟩ := parseOptions_eq_some hparse
    obtain ⟨hf, hp, -, ⟨mem, hmalloc, hload⟩, hconn, hmoved⟩ := hsaves
    have hmove := lastArg_isSome_iff (scanned args) (c := 'd'.toUInt8)
      (fun _ he => returned_of_mem he) (by decide)
    refine ⟨f, mem, l, l', hf, hmalloc, hload, hconn, rfl, fun hnot => ?_, fun hgiven => ?_⟩
    · have hnone : lastArg 'd'.toUInt8 (scanned args) = none := by
        rw [← Option.not_isSome_iff_eq_none, hmove]
        rintro ⟨d, hd⟩
        exact hnot d hd
      rw [Moved, optionsOf, hnone] at hmoved
      exact hmoved
    · obtain ⟨d, hd⟩ := Option.isSome_iff_exists.mp (hmove.mpr hgiven)
      rw [Moved, optionsOf, hd] at hmoved
      exact ⟨p, d, hp, hd, hmoved⟩
  · rw [h]
    exact ⟨fun _ => rfl, fun hz => by cases hz⟩
  · rw [h]
    exact ⟨fun _ => rfl, fun hz => by cases hz⟩

end Jyyos.Labyrinth
