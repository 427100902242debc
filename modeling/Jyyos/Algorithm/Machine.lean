import Mathlib.Logic.Relation
import Mathlib.Tactic.Common

/-!
# Deterministic machines

A machine is given by `step`; `none` means that it has stopped.  `Reaches step a b`: the machine
comes from `a` to `b`.  `Along step P a b`: it does so through states that all have the property
`P`, the two ends included.

Runs are put together with `Along.head` and `Along.trans`.  When a run ends in a state where the
machine has stopped, it is the whole run, and what holds along it holds in every state that the
machine reaches (`Along.of_reaches`).
-/

namespace Jyyos.Machine

variable {σ : Type*}

/-- The machine comes from `a` to `b`. -/
def Reaches (step : σ → Option σ) : σ → σ → Prop := Relation.ReflTransGen fun a b => step a = some b

/-- The machine comes from `a` to `b` through states with the property `P`. -/
inductive Along (step : σ → Option σ) (P : σ → Prop) : σ → σ → Prop
  | refl {a : σ} (ha : P a) : Along step P a a
  | head {a b c : σ} (ha : P a) (hab : step a = some b) (hbc : Along step P b c) : Along step P a c

variable {step : σ → Option σ} {P Q : σ → Prop} {a b c : σ}

theorem Reaches.single (h : step a = some b) : Reaches step a b := Relation.ReflTransGen.single h

theorem Reaches.trans (h₁ : Reaches step a b) (h₂ : Reaches step b c) : Reaches step a c :=
  Relation.ReflTransGen.trans h₁ h₂

/-- What the start has and every step preserves, every state that is reached has. -/
theorem Reaches.invariant (h : Reaches step a b) (ha : P a)
    (hstep : ∀ s t, P s → step s = some t → P t) : P b := by
  induction h with
  | refl => exact ha
  | tail _ hst ih => exact hstep _ _ ih hst

namespace Along

theorem trans (h₁ : Along step P a b) (h₂ : Along step P b c) : Along step P a c := by
  induction h₁ with
  | refl _ => exact h₂
  | head ha hab _ ih => exact head ha hab (ih h₂)

theorem mono (h : Along step P a b) (hPQ : ∀ s, P s → Q s) : Along step Q a b := by
  induction h with
  | refl ha => exact refl (hPQ _ ha)
  | head ha hab _ ih => exact head (hPQ _ ha) hab ih

theorem reaches (h : Along step P a b) : Reaches step a b := by
  induction h with
  | refl _ => exact Relation.ReflTransGen.refl
  | head _ hab _ ih => exact Relation.ReflTransGen.head hab ih

/-- **A run that has stopped is the whole run**: what holds along it holds in every state that is
reached. -/
theorem of_reaches (h : Along step P a b) (hstop : step b = none) {s : σ}
    (hs : Reaches step a s) : P s := by
  induction h with
  | refl ha =>
    cases hs.cases_head with
    | inl heq => exact heq ▸ ha
    | inr hnext =>
      obtain ⟨t, ht, -⟩ := hnext
      rw [hstop] at ht
      cases ht
  | head ha hab hbc ih =>
    cases hs.cases_head with
    | inl heq => exact heq ▸ ha
    | inr hnext =>
      obtain ⟨t, ht, hts⟩ := hnext
      rw [hab] at ht
      cases ht
      exact ih hstop hts

end Along

end Jyyos.Machine
