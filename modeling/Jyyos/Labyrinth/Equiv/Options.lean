import Jyyos.Labyrinth.Main
import Mathlib.Data.List.Induction
import Mathlib.Tactic.Common

/-!
# The options of `labyrinth`

What `getopt_long` can return: `'?'`, or an option of the string or the table, with an argument iff
it takes one (`mem_scan`).  The option loop of `main` then depends on four things only
(`foldlM_handleOption`): whether it is stopped by a `'?'` or an unknown direction, and otherwise on
which options occur and on the last argument of each.
-/

namespace Jyyos

namespace Getopt

variable {optstring : List UInt8} {table : List LongOption}

/-- The option `c` is in the table or the string, and takes an argument iff `hasArg`. -/
def Known (optstring : List UInt8) (table : List LongOption) (c : UInt8) (hasArg : Bool) : Prop :=
  (∃ o ∈ table, o.val = c ∧ o.hasArg = hasArg) ∨ shortKind c optstring = some hasArg

/-- What a call can return. -/
inductive Result (optstring : List UInt8) (table : List LongOption) : Getopt → Prop
  | bad : Result optstring table .bad
  | flag {c : UInt8} (h : Known optstring table c false) : Result optstring table (.opt c none)
  | arg {c : UInt8} (h : Known optstring table c true) (a : CStr) :
    Result optstring table (.opt c (some a))

theorem mem_of_matchLong {name : CStr} {o : LongOption} (h : matchLong table name = [o]) :
    o ∈ table := by
  unfold matchLong at h
  split at h
  · rename_i o' hfind
    obtain rfl : o' = o := List.singleton_inj.mp h
    exact List.mem_of_find?_eq_some hfind
  · exact (List.mem_filter.mp (h ▸ List.mem_singleton_self o)).1

/-- An element gives results, and the option that waits takes an argument. -/
def ElementOk (optstring : List UInt8) (table : List LongOption)
    (r : List Getopt × Option UInt8) : Prop :=
  (∀ e ∈ r.1, Result optstring table e) ∧ ∀ c, r.2 = some c → Known optstring table c true

theorem longElement_ok (body : CStr) : ElementOk optstring table (longElement table body) := by
  unfold longElement
  dsimp only
  split
  · rename_i o hmatch
    have ho := mem_of_matchLong hmatch
    split
    · rename_i harg _
      refine ⟨fun e he => ?_, nofun⟩
      rw [List.mem_singleton.mp he]
      exact .flag (Or.inl ⟨o, ho, rfl, harg⟩)
    · refine ⟨fun e he => ?_, nofun⟩
      rw [List.mem_singleton.mp he]
      exact .bad
    · rename_i harg _
      refine ⟨nofun, fun c hc => ?_⟩
      exact Or.inl ⟨o, ho, Option.some.inj hc, harg⟩
    · rename_i harg _
      refine ⟨fun e he => ?_, nofun⟩
      rw [List.mem_singleton.mp he]
      exact .arg (Or.inl ⟨o, ho, rfl, harg⟩) _
  · refine ⟨fun e he => ?_, nofun⟩
    rw [List.mem_singleton.mp he]
    exact .bad

theorem shortElement_ok (cs : CStr) : ElementOk optstring table (shortElement optstring cs) := by
  induction cs with
  | nil => exact ⟨nofun, nofun⟩
  | cons c cs ih =>
    unfold shortElement
    split
    · refine ⟨fun e he => ?_, nofun⟩
      rw [List.mem_singleton.mp he]
      exact .bad
    · rename_i hkind
      refine ⟨fun e he => ?_, ih.2⟩
      rcases List.mem_cons.mp he with rfl | he
      · exact .flag (Or.inr hkind)
      · exact ih.1 e he
    · rename_i hkind
      split
      · refine ⟨nofun, fun c' hc => ?_⟩
        obtain rfl := Option.some.inj hc
        exact Or.inr hkind
      · refine ⟨fun e he => ?_, nofun⟩
        rw [List.mem_singleton.mp he]
        exact .arg (Or.inr hkind) _

/-- **What the scanner returns.** -/
theorem mem_scan (args : List CStr) : ∀ {waiting : Option UInt8},
    (∀ c, waiting = some c → Known optstring table c true) →
      ∀ e ∈ scan optstring table waiting args, Result optstring table e := by
  induction args with
  | nil =>
    intro waiting hw e he
    cases waiting with
    | none => cases he
    | some c =>
      rw [List.mem_singleton.mp he]
      exact .bad
  | cons arg rest ih =>
    intro waiting hw e he
    have hnone : ∀ c, (none : Option UInt8) = some c → Known optstring table c true :=
      fun _ h => nomatch h
    have hrest : ∀ {r : List Getopt × Option UInt8}, ElementOk optstring table r →
        e ∈ r.1 ++ scan optstring table r.2 rest → Result optstring table e := by
      intro r hr hmem
      rcases List.mem_append.mp hmem with hmem | hmem
      · exact hr.1 e hmem
      · exact ih hr.2 e hmem
    cases waiting with
    | some c =>
      -- the whole element is the argument of the option that waits
      rw [scan] at he
      rcases List.mem_cons.mp he with rfl | he
      · exact .arg (hw c rfl) arg
      · exact ih hnone e he
    | none =>
      rcases arg with _ | ⟨a, _ | ⟨b, body⟩⟩
      · exact ih hnone e he
      · exact ih hnone e he
      · rw [scan] at he
        split_ifs at he
        · exact ih hnone e he
        · cases he
        · exact hrest (longElement_ok body) he
        · exact hrest (shortElement_ok (b :: body)) he

/-- The argument of the last option `c`. -/
def lastArg (c : UInt8) (es : List Getopt) : Option CStr :=
  es.foldl (fun last e =>
    match e with
    | .opt c' optarg => if c' = c then optarg else last
    | .bad => last) none

theorem lastArg_concat_opt (c c' : UInt8) (optarg : Option CStr) (es : List Getopt) :
    lastArg c (es ++ [.opt c' optarg]) = if c' = c then optarg else lastArg c es := by
  rw [lastArg, List.foldl_append]
  rfl

theorem lastArg_concat_bad (c : UInt8) (es : List Getopt) :
    lastArg c (es ++ [.bad]) = lastArg c es := by
  rw [lastArg, List.foldl_append]
  rfl

end Getopt

namespace Labyrinth

open Getopt

/-- The results of the scanner on an argument vector. -/
def scanned (args : List CStr) : List Getopt := getoptLong optstring longOptions args

/-- A result of the scanner for `labyrinth`. -/
inductive Returned : Getopt → Prop
  | bad : Returned .bad
  | version : Returned (.opt 'v'.toUInt8 none)
  | map (a : CStr) : Returned (.opt 'm'.toUInt8 (some a))
  | player (a : CStr) : Returned (.opt 'p'.toUInt8 (some a))
  | move (a : CStr) : Returned (.opt 'd'.toUInt8 (some a))
  | other (a : CStr) : Returned (.opt 'o'.toUInt8 (some a))

theorem returned_of_known {c : UInt8} {hasArg : Bool} (h : Known optstring longOptions c hasArg) :
    (hasArg = false ∧ c = 'v'.toUInt8) ∨ (hasArg = true ∧ (c = 'm'.toUInt8 ∨ c = 'p'.toUInt8 ∨
      c = 'd'.toUInt8 ∨ c = 'o'.toUInt8)) := by
  rcases h with ⟨o, ho, rfl, rfl⟩ | h
  · simp only [longOptions, List.mem_cons, List.not_mem_nil, or_false] at ho
    rcases ho with rfl | rfl | rfl | rfl <;> simp
  · simp only [optstring, cstr, List.map_cons, List.map_nil, shortKind] at h
    split_ifs at h with h₀ hv hm hcolon hp ho
    · obtain rfl := hv
      exact Or.inl ⟨(Option.some.inj h).symm, rfl⟩
    · obtain rfl := hm
      exact Or.inr ⟨(Option.some.inj h).symm, Or.inl rfl⟩
    · -- a colon in the string is no option
      rw [← hcolon] at h₀
      exact absurd (by decide) h₀
    · obtain rfl := hp
      exact Or.inr ⟨(Option.some.inj h).symm, Or.inr (Or.inl rfl)⟩
    · obtain rfl := ho
      exact Or.inr ⟨(Option.some.inj h).symm, Or.inr (Or.inr (Or.inr rfl))⟩

theorem returned_of_mem {args : List CStr} {e : Getopt} (he : e ∈ scanned args) : Returned e := by
  have hnone : ∀ c, (none : Option UInt8) = some c → Known optstring longOptions c true :=
    fun _ h => nomatch h
  cases mem_scan args hnone e he with
  | bad => exact .bad
  | flag h =>
    obtain ⟨-, rfl⟩ := (returned_of_known h).resolve_right (by simp)
    exact .version
  | arg h a =>
    obtain ⟨-, rfl | rfl | rfl | rfl⟩ := (returned_of_known h).resolve_left (by simp)
    · exact .map a
    · exact .player a
    · exact .move a
    · exact .other a

/-! ### The option loop -/

/-- The result ends the loop with status 1. -/
def Stops (e : Getopt) : Prop :=
  e = .bad ∨ ∃ d, e = .opt 'd'.toUInt8 (some d) ∧ d ≠ [] ∧ d ∉ directionNames

/-- The result sets `version_flag`. -/
def isVersion : Getopt → Bool
  | .opt c _ => c == 'v'.toUInt8
  | .bad => false

/-- The result sets `other_args`. -/
def isOther : Getopt → Bool
  | .opt c (some a) => c == 'm'.toUInt8 || c == 'p'.toUInt8 || (c == 'd'.toUInt8 && a != [])
  | _ => false

/-- The variables after a loop that was not stopped. -/
def optionsOf (es : List Getopt) : Options where
  filename := lastArg 'm'.toUInt8 es
  playerId := lastArg 'p'.toUInt8 es
  moveDirection := lastArg 'd'.toUInt8 es
  versionFlag := es.any isVersion
  otherArgs := es.any isOther

/-- The codes of the options, for comparing them. -/
theorem optionCodes : 'v'.toUInt8 = 118 ∧ 'm'.toUInt8 = 109 ∧ 'p'.toUInt8 = 112 ∧
    'd'.toUInt8 = 100 ∧ 'o'.toUInt8 = 111 := by decide

/-- One pass of the loop. -/
theorem handleOption_eq (es : List Getopt) {e : Getopt} (he : Returned e) :
    (Stops e ∧ ∀ o, handleOption o e = none) ∨
      (¬ Stops e ∧ handleOption (optionsOf es) e = some (optionsOf (es ++ [e]))) := by
  cases he with
  | bad => exact Or.inl ⟨Or.inl rfl, fun _ => rfl⟩
  | version =>
    refine Or.inr ⟨by simp [Stops], ?_⟩
    simp [handleOption, optionsOf, lastArg_concat_opt, isVersion, isOther, optionCodes]
  | map a =>
    refine Or.inr ⟨by simp [Stops, optionCodes], ?_⟩
    simp [handleOption, optionsOf, lastArg_concat_opt, isVersion, isOther, optionCodes]
  | player a =>
    refine Or.inr ⟨by simp [Stops, optionCodes], ?_⟩
    simp [handleOption, optionsOf, lastArg_concat_opt, isVersion, isOther, optionCodes]
  | move a =>
    cases a with
    | nil =>
      -- an empty direction is stored, but counts for nothing
      refine Or.inr ⟨by simp [Stops], ?_⟩
      simp [handleOption, optionsOf, lastArg_concat_opt, isVersion, isOther, optionCodes]
    | cons c cs =>
      by_cases hdir : c :: cs ∈ directionNames
      · refine Or.inr ⟨by simp [Stops, hdir], ?_⟩
        simp [handleOption, optionsOf, lastArg_concat_opt, isVersion, isOther, optionCodes, hdir]
      · refine Or.inl ⟨Or.inr ⟨c :: cs, rfl, List.cons_ne_nil c cs, hdir⟩, fun o => ?_⟩
        simp [handleOption, optionCodes, hdir]
  | other a =>
    refine Or.inr ⟨by simp [Stops, optionCodes], ?_⟩
    simp [handleOption, optionsOf, lastArg_concat_opt, isVersion, isOther, optionCodes]

/-- **The option loop**: it is stopped by one of its results, or it leaves the last arguments. -/
theorem foldlM_handleOption (es : List Getopt) (hes : ∀ e ∈ es, Returned e) :
    ((∃ e ∈ es, Stops e) ∧ es.foldlM handleOption {} = none) ∨
      ((∀ e ∈ es, ¬ Stops e) ∧ es.foldlM handleOption {} = some (optionsOf es)) := by
  induction es using List.reverseRecOn with
  | nil => exact Or.inr ⟨nofun, rfl⟩
  | append_singleton es e ih =>
    rw [List.foldlM_append]
    rcases ih fun e' he' => hes e' (List.mem_append_left _ he') with ⟨⟨e', he', hs⟩, h⟩ | ⟨hs, h⟩
    · refine Or.inl ⟨⟨e', List.mem_append_left _ he', hs⟩, ?_⟩
      rw [h]
      rfl
    · rw [h]
      have he : Returned e := hes e (List.mem_append_right _ (List.mem_singleton_self e))
      rcases handleOption_eq es he with ⟨hstop, hnone⟩ | ⟨hstop, hsome⟩
      · refine Or.inl ⟨⟨e, List.mem_append_right _ (List.mem_singleton_self e), hstop⟩, ?_⟩
        simp [hnone]
      · refine Or.inr ⟨fun e' he' => ?_, ?_⟩
        · rcases List.mem_append.mp he' with he' | he'
          · exact hs e' he'
          · rw [List.mem_singleton.mp he']
            exact hstop
        · simp [hsome]

/-- What the option loop makes of an argument vector. -/
theorem parseOptions_cases (args : List CStr) :
    ((∃ e ∈ scanned args, Stops e) ∧ parseOptions args = none) ∨
      ((∀ e ∈ scanned args, ¬ Stops e) ∧ parseOptions args = some (optionsOf (scanned args))) :=
  foldlM_handleOption (scanned args) fun _ he => returned_of_mem he

theorem parseOptions_eq_some {args : List CStr} {o : Options} (h : parseOptions args = some o) :
    (∀ e ∈ scanned args, ¬ Stops e) ∧ o = optionsOf (scanned args) := by
  rcases parseOptions_cases args with ⟨-, hnone⟩ | ⟨hstop, hsome⟩
  · rw [hnone] at h
    cases h
  · exact ⟨hstop, Option.some.inj (h.symm.trans hsome)⟩

/-- An option with an argument has a last one iff it occurs. -/
theorem lastArg_isSome_iff (es : List Getopt) {c : UInt8} (hes : ∀ e ∈ es, Returned e)
    (hc : c ≠ 'v'.toUInt8) :
    (lastArg c es).isSome ↔ ∃ a, .opt c (some a) ∈ es := by
  induction es using List.reverseRecOn with
  | nil => simp [lastArg]
  | append_singleton es e ih =>
    have ih := ih fun e' he' => hes e' (List.mem_append_left _ he')
    have he : Returned e := hes e (List.mem_append_right _ (List.mem_singleton_self e))
    cases he with
    | bad => simp [lastArg_concat_bad, ih]
    | version => simp [lastArg_concat_opt, hc.symm, ih]
    | map a | player a | move a | other a =>
      rw [lastArg_concat_opt]
      split_ifs with heq
      · simp [heq]
      · simp [ih, Ne.symm heq]

end Labyrinth

end Jyyos
