import Mathlib.Data.Nat.Notation
import Mathlib.Tactic.Common

/-!
# Runs of a state machine

A state machine is given by `step`, which says what an event does in a state; `none` means that the
event cannot happen there.  `run` takes a list of events, `Guarded` says that every event of a run
meets a condition in the state in which it happens.

`run_invariant` is the rule for invariants: what every step that meets the condition preserves,
every run whose steps all meet the condition preserves.
-/

namespace Jyyos.Runs

variable {σ ε : Type*}

/-- The events one after the other. -/
def run (step : σ → ε → Option σ) (s : σ) (events : List ε) : Option σ := events.foldlM step s

/-- Every event meets `guard` in the state in which it happens. -/
def Guarded (step : σ → ε → Option σ) (guard : σ → ε → Prop) : σ → List ε → Prop
  | _, [] => True
  | s, e :: es => guard s e ∧ ∀ s', step s e = some s' → Guarded step guard s' es

variable {step : σ → ε → Option σ} {guard : σ → ε → Prop}

theorem run_cons {s s' : σ} {e : ε} {es : List ε} :
    run step s (e :: es) = some s' ↔ ∃ mid, step s e = some mid ∧ run step mid es = some s' := by
  rw [run, List.foldlM_cons, Option.bind_eq_bind, Option.bind_eq_some_iff]
  rfl

theorem Guarded.cons {s mid : σ} {e : ε} {es : List ε} (hguard : guard s e)
    (hstep : step s e = some mid) (h : Guarded step guard mid es) :
    Guarded step guard s (e :: es) := by
  refine ⟨hguard, fun s' hs' => ?_⟩
  rw [hstep] at hs'
  cases hs'
  exact h

/-- A condition that always holds is met by every run. -/
theorem Guarded.of_forall (h : ∀ s e, guard s e) (events : List ε) (s : σ) :
    Guarded step guard s events := by
  induction events generalizing s with
  | nil => exact trivial
  | cons e es ih => exact ⟨h s e, fun s' _ => ih s'⟩

/-- The beginning of a guarded run is guarded. -/
theorem Guarded.take {events : List ε} (n : ℕ) {s : σ} (h : Guarded step guard s events) :
    Guarded step guard s (events.take n) := by
  induction events generalizing n s with
  | nil => rwa [List.take_nil]
  | cons e es ih =>
    cases n with
    | zero => exact trivial
    | succ n => exact ⟨h.1, fun s' hs' => ih n (h.2 s' hs')⟩

/-- **Invariants of steps are invariants of runs.** -/
theorem run_invariant {P : σ → Prop}
    (hstep : ∀ s e s', P s → guard s e → step s e = some s' → P s') {events : List ε} {s s' : σ}
    (hs : P s) (hguard : Guarded step guard s events) (hrun : run step s events = some s') :
    P s' := by
  induction events generalizing s with
  | nil =>
    cases hrun
    exact hs
  | cons e es ih =>
    obtain ⟨mid, hmid, hrest⟩ := run_cons.mp hrun
    exact ih (hstep s e mid hs hguard.1 hmid) (hguard.2 mid hmid) hrest

end Jyyos.Runs
