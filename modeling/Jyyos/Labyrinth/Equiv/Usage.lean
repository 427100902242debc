import Jyyos.Labyrinth.Equiv.Exit
import Jyyos.Labyrinth.Equiv.Lines
import Jyyos.Labyrinth.Equiv.Move

/-!
# The command line

The usage that `labyrinth` documents is `[-m|--map FILE] [-p|--player ID] [--move DIRECTION]`
with a map and a player, or `--version` alone (`Documented`).  `main` is to return 0 for such a
vector only, and 1 for one with another option, with an operand, or with `--version` beside
something else (`Contract`).

`main` checks less.  It never looks at the operands; its option string has `-v` and an `-o` that it
passes over; and an empty direction is stored without being counted.  `contract_iff` says that
these are the only ways to break the contract: it holds for a vector exactly if one of the checks
of `main` refuses it (`Refused`) or it has none of the three (`Slips`).
-/

namespace Jyyos

namespace Getopt

variable {optstring optstring' : List UInt8} {table : List LongOption}

/-- Characters that a smaller option string knows are read the same with a larger one. -/
theorem shortElement_congr (hsub : ∀ c b, shortKind c optstring = some b →
    shortKind c optstring' = some b) (cs : CStr) : .bad ∉ (shortElement optstring cs).1 →
      shortElement optstring' cs = shortElement optstring cs := by
  induction cs with
  | nil => exact fun _ => rfl
  | cons c cs ih =>
    intro hbad
    unfold shortElement at hbad ⊢
    cases hkind : shortKind c optstring with
    | none => simp [hkind] at hbad
    | some b =>
      rw [hsub c b hkind]
      cases b with
      | false =>
        simp only [hkind, List.mem_cons, not_or] at hbad
        dsimp only
        rw [ih hbad.2]
      | true => rfl

/-- A vector without an error for a smaller option string is scanned the same with a larger
one. -/
theorem scan_congr (hsub : ∀ c b, shortKind c optstring = some b →
    shortKind c optstring' = some b) (args : List CStr) : ∀ {waiting : Option UInt8},
    .bad ∉ scan optstring table waiting args →
      scan optstring' table waiting args = scan optstring table waiting args := by
  induction args with
  | nil =>
    intro waiting _
    cases waiting <;> rfl
  | cons arg rest ih =>
    intro waiting hbad
    cases waiting with
    | some c =>
      rw [scan] at hbad
      rw [scan, scan, ih fun h => hbad (List.mem_cons_of_mem _ h)]
    | none =>
      rcases arg with _ | ⟨a, _ | ⟨b, body⟩⟩
      · exact ih hbad
      · exact ih hbad
      · rw [scan] at hbad
        rw [scan, scan]
        split_ifs at hbad ⊢
        · exact ih hbad
        · rfl
        · dsimp only at hbad ⊢
          rw [ih fun h => hbad (List.mem_append_right _ h)]
        · dsimp only at hbad ⊢
          rw [shortElement_congr hsub (b :: body) fun h => hbad (List.mem_append_left _ h),
            ih fun h => hbad (List.mem_append_right _ h)]

end Getopt

namespace Labyrinth

open Getopt

/-- The documented short options, `-m` and `-p`. -/
def docOptstring : List UInt8 := cstr ['m', ':', 'p', ':']

/-- The options of a vector as documented; any other one is `.bad`. -/
def docScanned (args : List CStr) : List Getopt := getoptLong docOptstring longOptions args

/-- The operands of a vector. -/
def docOperands (args : List CStr) : List CStr := operands docOptstring longOptions none args

/-- The vector is a documented usage. -/
structure Documented (args : List CStr) : Prop where
  options : .bad ∉ docScanned args
  operands : docOperands args = []
  usage : (docScanned args ≠ [] ∧ ∀ e ∈ docScanned args, isVersion e = true) ∨
    ((∀ e ∈ docScanned args, isVersion e = false) ∧
      (lastArg 'm'.toUInt8 (docScanned args)).isSome ∧
      (∃ p, lastArg 'p'.toUInt8 (docScanned args) = some [p] ∧ isValidPlayer p = true) ∧
      ∀ d, lastArg 'd'.toUInt8 (docScanned args) = some d → d ∈ directionNames)

/-- The vector has an undocumented option, an operand, or the version option beside something
else. -/
def Misused (args : List CStr) : Prop :=
  .bad ∈ docScanned args ∨ docOperands args ≠ [] ∨
    ∃ v ∈ docScanned args, ∃ e ∈ docScanned args, isVersion v = true ∧ isVersion e = false

/-- What `main` is to do with the vector, wherever it runs: return 0 only for a documented usage,
and 1 for a misuse, unless there is no memory. -/
def Contract (args : List CStr) : Prop :=
  ∀ env fs, ((main env fs args).1 = .status 0 → Documented args) ∧
    (Misused args → env.malloc.isSome → (main env fs args).1 = .status 1)

/-- The checks of `main` that do not depend on the map: an unknown option, a missing argument or
an unknown direction; the version beside a map, a player or a direction; no map or no player. -/
def Refused (args : List CStr) : Prop :=
  (∃ e ∈ scanned args, Stops e) ∨
    ((scanned args).any isVersion = true ∧ (scanned args).any isOther = true) ∨
    ((scanned args).any isVersion = false ∧
      (lastArg 'm'.toUInt8 (scanned args) = none ∨
        ∀ p, lastArg 'p'.toUInt8 (scanned args) = some [p] → isValidPlayer p = false))

/-- What `main` does not check: `-v` and `-o`, operands, and an empty direction as the last one or
beside the version. -/
def Slips (args : List CStr) : Prop :=
  .bad ∈ docScanned args ∨ docOperands args ≠ [] ∨
    lastArg 'd'.toUInt8 (scanned args) = some [] ∨
    ((scanned args).any isVersion = true ∧ .opt 'd'.toUInt8 (some []) ∈ scanned args)

/-- The documented options are options of `main`. -/
theorem shortKind_of_doc (c : UInt8) (b : Bool) (h : shortKind c docOptstring = some b) :
    shortKind c optstring = some b := by
  simp only [docOptstring, cstr, List.map_cons, List.map_nil, shortKind] at h
  split_ifs at h with h₀ hm hcolon hp
  · obtain rfl := hm
    rw [← h]
    decide
  · -- a colon in the string is no option
    rw [← hcolon] at h₀
    exact absurd (by decide) h₀
  · obtain rfl := hp
    rw [← h]
    decide

theorem scanned_eq {args : List CStr} (h : .bad ∉ docScanned args) :
    scanned args = docScanned args :=
  scan_congr shortKind_of_doc args h

/-- `-o` is not documented. -/
theorem other_not_mem {args : List CStr} (a : CStr) :
    .opt 'o'.toUInt8 (some a) ∉ docScanned args := by
  intro h
  have hnone : ∀ c, (none : Option UInt8) = some c → Known docOptstring longOptions c true :=
    fun _ h => nomatch h
  cases mem_scan args hnone _ h with
  | arg hknown _ =>
    rcases hknown with ⟨o, ho, hval, -⟩ | hkind
    · simp only [longOptions, List.mem_cons, List.not_mem_nil, or_false] at ho
      rcases ho with rfl | rfl | rfl | rfl <;> exact absurd hval (by decide)
    · exact absurd hkind (by decide)

/-! ### What `main` refuses -/

/-- A refused vector never gives status 0. -/
theorem main_of_refused {args : List CStr} (h : Refused args) (env : Env) (fs : Files) :
    (main env fs args).1 ≠ .status 0 := by
  rcases main_cases env fs args with ⟨o, hparse, hv, ho, -⟩ | ⟨o, f, p, l, l', hparse, hv, hs, -⟩ |
    heq | ⟨-, heq⟩
  · exfalso
    obtain ⟨hstop, rfl⟩ := parseOptions_eq_some hparse
    rcases h with ⟨e, he, hs⟩ | ⟨-, hother⟩ | ⟨hno, -⟩
    · exact hstop e he hs
    · exact Bool.false_ne_true (ho.symm.trans hother)
    · exact Bool.false_ne_true (hno.symm.trans hv)
  · exfalso
    obtain ⟨hstop, rfl⟩ := parseOptions_eq_some hparse
    rcases h with ⟨e, he, hs'⟩ | ⟨hyes, -⟩ | ⟨-, hmap | hplayer⟩
    · exact hstop e he hs'
    · exact Bool.false_ne_true (hv.symm.trans hyes)
    · have hf : lastArg 'm'.toUInt8 (scanned args) = some f := hs.filename
      rw [hmap] at hf
      cases hf
    · exact Bool.false_ne_true ((hplayer p hs.playerId).symm.trans hs.isPlayer)
  · rw [heq]
    nofun
  · rw [heq]
    nofun

/-- With memory, `main` returns 0 or 1. -/
theorem main_status (env : Env) (fs : Files) (args : List CStr) (hmem : env.malloc.isSome) :
    (main env fs args).1 = .status 0 ∨ (main env fs args).1 = .status 1 := by
  rcases main_cases env fs args with ⟨o, -, -, -, heq⟩ | ⟨o, f, p, l, l', -, -, -, heq⟩ | heq |
    ⟨hnone, -⟩
  · exact Or.inl (by rw [heq])
  · exact Or.inl (by rw [heq])
  · exact Or.inr (by rw [heq])
  · rw [hnone] at hmem
    cases hmem

/-- Surroundings where everything works and every file is a map of one empty cell. -/
def friendly : Env where
  malloc := some ⟨fun _ => 0, 0, 0⟩
  canRead _ := true
  canWrite _ := true

def oneCellFiles : Files := fun _ => some [dot]

/-- The map of one empty cell is accepted, and a player can be placed on it. -/
theorem loadMap_oneCell : ∃ l, loadMap ⟨fun _ => 0, 0, 0⟩ (some [dot]) = some l ∧
    l.isConnected = true ∧ ∀ p, isValidPlayer p = true → ∀ d, (l.movePlayer p d).1 = true := by
  obtain ⟨l, hload, hrows, hcols, hcell, hconn⟩ : ∃ l,
      loadMap ⟨fun _ => 0, 0, 0⟩ (some [dot]) = some l ∧
        l.rows = 1 ∧ l.cols = 1 ∧ l.cell 0 0 = dot ∧ l.isConnected = true :=
    ⟨_, rfl, by decide +kernel, by decide +kernel, by decide +kernel, by decide +kernel⟩
  refine ⟨l, hload, hconn, fun p hp d => ?_⟩
  have hin : l.Inside ⟨0, 0⟩ := ⟨by simp, by simp [hrows], by simp, by simp [hcols]⟩
  have hget : ∀ q, l.Inside q → l.get q = dot := by
    rintro ⟨r, c⟩ ⟨h1, h2, h3, h4⟩
    simp only [hrows, hcols] at h1 h2 h3 h4
    obtain rfl : r = 0 := by omega
    obtain rfl : c = 0 := by omega
    exact hcell
  have habsent : l.findPlayer p = ⟨-1, -1⟩ := by
    rcases findCell_cases l p with ⟨hnone, -⟩ | ⟨hin', hp'⟩
    · exact hnone
    · rw [hget _ hin'] at hp'
      rw [← hp'] at hp
      exact absurd hp (by decide)
  have hempty : (l.findFirstEmptySpace).row ≠ -1 ∧ (l.findFirstEmptySpace).col ≠ -1 := by
    rcases findCell_cases l dot with ⟨-, hno⟩ | ⟨hin', -⟩
    · exact absurd hcell (hno ⟨0, 0⟩ hin)
    · exact hin'.ne_none
  unfold movePlayer
  rw [habsent]
  simp only [and_self, ↓reduceIte]
  rw [if_pos hempty]

/-- A vector that is not refused gives status 0 where everything works. -/
theorem main_of_not_refused {args : List CStr} (h : ¬ Refused args) :
    (main friendly oneCellFiles args).1 = .status 0 := by
  simp only [Refused, not_or, not_and, not_exists] at h
  obtain ⟨hstop, hversion, hplay⟩ := h
  rcases parseOptions_cases args with ⟨⟨e, he, hs⟩, -⟩ | ⟨-, hparse⟩
  · exact absurd hs (hstop e he)
  · unfold main
    rw [hparse]
    cases hv : (scanned args).any isVersion with
    | true =>
      have hother : (scanned args).any isOther = false := by
        rw [← Bool.not_eq_true]
        exact hversion hv
      simp only [optionsOf, hv, hother, Bool.and_false, Bool.false_eq_true, ↓reduceIte]
    | false =>
      obtain ⟨hmap, hplayer⟩ := hplay hv
      obtain ⟨f, hf⟩ := Option.ne_none_iff_exists'.mp hmap
      obtain ⟨p, hp, hvalid⟩ : ∃ p, lastArg 'p'.toUInt8 (scanned args) = some [p] ∧
          isValidPlayer p = true := by
        by_contra hnot
        refine hplayer fun p hp => ?_
        rw [← Bool.not_eq_true]
        exact fun hvalid => hnot ⟨p, hp, hvalid⟩
      obtain ⟨l, hload, hconn, hmove⟩ := loadMap_oneCell
      simp only [optionsOf, hv, hf, hp, Bool.false_and, Bool.false_eq_true, ↓reduceIte, friendly,
        fopenRead, oneCellFiles, Option.bind_some, hload, play, hvalid, hconn]
      cases hd : lastArg 'd'.toUInt8 (scanned args) with
      | none => rfl
      | some d =>
        have htrue := hmove p hvalid d
        dsimp only
        rcases hcall : l.movePlayer p d with ⟨b, l'⟩
        rw [hcall] at htrue
        obtain rfl : b = true := htrue
        rfl

/-! ### The contract -/

/-- A last argument is the argument of an option. -/
theorem mem_of_lastArg {es : List Getopt} {c : UInt8} {a : CStr} (h : lastArg c es = some a) :
    .opt c (some a) ∈ es := by
  induction es using List.reverseRecOn with
  | nil => cases h
  | append_singleton es e ih =>
    cases e with
    | bad =>
      rw [lastArg_concat_bad] at h
      exact List.mem_append_left _ (ih h)
    | opt c' optarg =>
      rw [lastArg_concat_opt] at h
      split_ifs at h with heq
      · rw [heq, h]
        exact List.mem_append_right _ (List.mem_singleton_self _)
      · exact List.mem_append_left _ (ih h)

/-- Beside the version a vector that is not refused has no other option, unless it slips. -/
theorem isVersion_of_mem {args : List CStr} (href : ¬ Refused args) (hslip : ¬ Slips args)
    (hv : (scanned args).any isVersion = true) {e : Getopt} (he : e ∈ scanned args) :
    isVersion e = true := by
  simp only [Refused, Slips, not_or, not_and] at href hslip
  have hnot : isOther e = false := by
    rw [← Bool.not_eq_true]
    exact fun h => href.2.1 hv (List.any_eq_true.mpr ⟨e, he, h⟩)
  have hdoc := scanned_eq hslip.1
  cases returned_of_mem he with
  | bad => exact absurd (hdoc ▸ he) hslip.1
  | version => rfl
  | map a => simp [isOther] at hnot
  | player a => simp [isOther] at hnot
  | move a =>
    cases a with
    | nil => exact absurd he (hslip.2.2.2 hv)
    | cons c cs => simp [isOther] at hnot
  | other a => exact absurd (hdoc ▸ he) (other_not_mem a)

/-- Of the vectors that are not refused, those without a slip are the documented ones. -/
theorem documented_iff {args : List CStr} (href : ¬ Refused args) :
    Documented args ↔ ¬ Slips args := by
  constructor
  · rintro ⟨hbad, hops, husage⟩ (hslip | hslip | hslip | ⟨hv, hslip⟩)
    · exact hbad hslip
    · exact hslip hops
    · rw [scanned_eq hbad] at hslip
      rcases husage with ⟨-, hall⟩ | ⟨-, -, -, hdir⟩
      · exact absurd (hall _ (mem_of_lastArg hslip)) (by decide)
      · exact absurd (hdir [] hslip) (by decide)
    · rw [scanned_eq hbad] at hslip hv
      rcases husage with ⟨-, hall⟩ | ⟨hall, -⟩
      · exact absurd (hall _ hslip) (by decide)
      · obtain ⟨e, he, hve⟩ := List.any_eq_true.mp hv
        exact Bool.false_ne_true ((hall e he).symm.trans hve)
  · intro hslip
    have hversion : (scanned args).any isVersion = true →
        ∀ e ∈ scanned args, isVersion e = true :=
      fun hv e he => isVersion_of_mem href hslip hv he
    simp only [Refused, Slips, not_or, not_and, not_exists] at href hslip
    obtain ⟨hstop, -, hplay⟩ := href
    obtain ⟨hbad, hops, hdir, -⟩ := hslip
    refine ⟨hbad, not_ne_iff.mp hops, ?_⟩
    rw [← scanned_eq hbad]
    cases hv : (scanned args).any isVersion with
    | true =>
      obtain ⟨e, he, -⟩ := List.any_eq_true.mp hv
      exact Or.inl ⟨List.ne_nil_of_mem he, hversion hv⟩
    | false =>
      obtain ⟨hmap, hplayer⟩ := hplay hv
      refine Or.inr ⟨fun e he => ?_, Option.isSome_iff_ne_none.mpr hmap, ?_, fun d hd => ?_⟩
      · rw [← Bool.not_eq_true]
        exact fun hve => Bool.false_ne_true (hv.symm.trans (List.any_eq_true.mpr ⟨e, he, hve⟩))
      · by_contra hnot
        refine hplayer fun p hp => ?_
        rw [← Bool.not_eq_true]
        exact fun hvalid => hnot ⟨p, hp, hvalid⟩
      · by_contra hunknown
        have hne : d ≠ [] := by
          rintro rfl
          exact hdir hd
        exact hstop _ (mem_of_lastArg hd) (Or.inr ⟨d, rfl, hne, hunknown⟩)

/-- A documented usage is no misuse. -/
theorem Documented.not_misused {args : List CStr} (h : Documented args) : ¬ Misused args := by
  rintro (hbad | hops | ⟨v, hv, e, he, hvv, hev⟩)
  · exact h.options hbad
  · exact hops h.operands
  · rcases h.usage with ⟨-, hall⟩ | ⟨hall, -⟩
    · exact Bool.false_ne_true (hev.symm.trans (hall e he))
    · exact Bool.false_ne_true ((hall v hv).symm.trans hvv)

/-- **When `main` keeps the contract of its command line**: exactly when one of its checks refuses
the vector, or the vector has nothing that these checks pass over. -/
theorem contract_iff (args : List CStr) : Contract args ↔ Refused args ∨ ¬ Slips args := by
  constructor
  · intro hcontract
    rw [or_iff_not_imp_left]
    intro href
    rw [← documented_iff href]
    exact (hcontract friendly oneCellFiles).1 (main_of_not_refused href)
  · intro h env fs
    by_cases href : Refused args
    · have hne := main_of_refused href env fs
      exact ⟨fun h0 => absurd h0 hne, fun _ hmem => (main_status env fs args hmem).resolve_left hne⟩
    · have hdoc := (documented_iff href).mpr (h.resolve_left href)
      exact ⟨fun _ => hdoc, fun hmis => absurd hmis hdoc.not_misused⟩

/-- The vector `--version ??`. -/
def versionAndOperand : List CStr :=
  [cstr ['-', '-', 'v', 'e', 'r', 's', 'i', 'o', 'n'], cstr ['?', '?']]

/-- The operand beside the version is passed over. -/
theorem not_contract_versionAndOperand : ¬ Contract versionAndOperand := by
  intro h
  have hdoc := (h ⟨none, fun _ => true, fun _ => true⟩ fun _ => none).1 (by decide +kernel)
  exact absurd hdoc.operands (by decide +kernel)

end Labyrinth

end Jyyos
