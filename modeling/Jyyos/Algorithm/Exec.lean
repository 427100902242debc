import Mathlib.Logic.Basic
import Mathlib.Order.Defs.Unbundled

/-!
# Computations with a state and exceptions

`Exec ε σ α` is a computation on a state of type `σ` that returns an `α` or fails with an `ε`; a
failure keeps the state that was reached, as an exception does.

`Refines K e P x s y` compares such a computation with a reference `y : Option β` that has no
hidden state: `x` started in `s` ends in a state that `K` relates to `s`, it succeeds exactly when
`y` does, the results satisfy `P`, and its only failure is `e`.  The rules follow the structure of
a `do` block.
-/

namespace Jyyos

/-- A computation on a state that may fail. -/
def Exec (ε σ : Type) (α : Type) : Type := σ → Except ε α × σ

namespace Exec

variable {ε σ α β γ : Type}

instance : Monad (Exec ε σ) where
  pure a := fun s => (.ok a, s)
  bind x f := fun s =>
    match x s with
    | (.ok a, s') => f a s'
    | (.error e, s') => (.error e, s')

/-- Fail with `e`. -/
def throw (e : ε) : Exec ε σ α := fun s => (.error e, s)

/-- The value of an option, or the failure `e`. -/
def orThrow (e : ε) : Option α → Exec ε σ α
  | some a => pure a
  | none => throw e

/-- Read the state. -/
def get : Exec ε σ σ := fun s => (.ok s, s)

/-- Change the state. -/
def modify (f : σ → σ) : Exec ε σ PUnit := fun s => (.ok ⟨⟩, f s)

theorem pure_apply (a : α) (s : σ) : (pure a : Exec ε σ α) s = (.ok a, s) := rfl

theorem bind_apply (x : Exec ε σ α) (f : α → Exec ε σ β) (s : σ) :
    (x >>= f) s = match x s with
      | (.ok a, s') => f a s'
      | (.error e, s') => (.error e, s') := rfl

theorem bind_of_ok {x : Exec ε σ α} {f : α → Exec ε σ β} {s s' : σ} {a : α}
    (h : x s = (.ok a, s')) : (x >>= f) s = f a s' := by
  rw [bind_apply, h]

instance : LawfulMonad (Exec ε σ) :=
  LawfulMonad.mk' _
    (fun x => by
      funext s
      show (match x s with
        | (.ok a, s') => (.ok a, s')
        | (.error e, s') => (.error e, s')) = x s
      rcases x s with ⟨_ | _, _⟩ <;> rfl)
    (fun _ _ => rfl)
    (fun x f g => by
      funext s
      simp only [bind_apply]
      rcases x s with ⟨_ | _, _⟩ <;> rfl)

/-! ### Comparison with a reference -/

/-- The outcomes match: both succeed, with results in `P`, or both fail, the computation
with `e`. -/
def Matches (e : ε) (P : α → σ → β → Prop) : Except ε α × σ → Option β → Prop
  | (.ok a, s), some b => P a s b
  | (.error e', _), none => e' = e
  | _, _ => False

/-- The computation `x`, started in `s`, does what the reference `y` does. -/
structure Refines (K : σ → σ → Prop) (e : ε) (P : α → σ → β → Prop) (x : Exec ε σ α) (s : σ)
    (y : Option β) : Prop where
  keeps : K s (x s).2
  outcome : Matches e P (x s) y

variable {K : σ → σ → Prop} {e : ε} {P : α → σ → β → Prop} {s : σ}

theorem Refines.pure [Std.Refl K] {a : α} {b : β} (h : P a s b) :
    Refines K e P (pure a) s (some b) :=
  ⟨Std.Refl.refl s, h⟩

theorem Refines.throw [Std.Refl K] : Refines K e P (throw e) s none := ⟨Std.Refl.refl s, rfl⟩

theorem Refines.orThrow [Std.Refl K] {x : Option α} {y : Option β}
    (h : Option.Rel (fun a b => P a s b) x y) : Refines K e P (orThrow e x) s y := by
  cases h with
  | some h => exact Refines.pure h
  | none => exact Refines.throw

/-- Either both succeed or both fail. -/
theorem Refines.cases {x : Exec ε σ α} {y : Option β} (h : Refines K e P x s y) :
    (∃ a s' b, x s = (.ok a, s') ∧ y = some b ∧ K s s' ∧ P a s' b) ∨
      ∃ s', x s = (.error e, s') ∧ y = none ∧ K s s' := by
  obtain ⟨hK, hout⟩ := h
  rcases hx : x s with ⟨e' | a, s'⟩ <;> rw [hx] at hK hout
  · cases y with
    | none =>
      obtain rfl : e' = e := hout
      exact Or.inr ⟨s', rfl, rfl, hK⟩
    | some b => exact hout.elim
  · cases y with
    | none => exact hout.elim
    | some b => exact Or.inl ⟨a, s', b, rfl, rfl, hK, hout⟩

/-- A step that succeeds on both sides. -/
theorem Refines.of_ok {x : Exec ε σ α} {s' : σ} {a : α} {b : β} (hx : x s = (.ok a, s'))
    (hK : K s s') (h : P a s' b) : Refines K e P x s (some b) :=
  ⟨by rw [hx]; exact hK, by rw [hx]; exact h⟩

/-- A step that fails on both sides. -/
theorem Refines.of_error {x : Exec ε σ α} {s' : σ} (hx : x s = (.error e, s')) (hK : K s s') :
    Refines K e P x s (none : Option β) :=
  ⟨by rw [hx]; exact hK, by rw [hx]; rfl⟩

/-- Sequencing: the second parts are compared from every state that the first can leave. -/
theorem Refines.bind [IsTrans σ K] {γ' : Type} {Q : γ → σ → γ' → Prop} {x : Exec ε σ α}
    {f : α → Exec ε σ γ} {y : Option β} {g : β → Option γ'} (h : Refines K e P x s y)
    (hf : ∀ a s' b, P a s' b → K s s' → y = some b → Refines K e Q (f a) s' (g b)) :
    Refines K e Q (x >>= f) s (y >>= g) := by
  obtain ⟨a, s', b, hx, rfl, hK, hP⟩ | ⟨s', hx, rfl, hK⟩ := h.cases
  · obtain ⟨hK', hout'⟩ := hf a s' b hP hK rfl
    exact ⟨by rw [bind_of_ok hx]; exact IsTrans.trans _ _ _ hK hK',
      by rw [bind_of_ok hx]; exact hout'⟩
  · exact Refines.of_error (by rw [bind_apply, hx]) hK

theorem Refines.mono {Q : α → σ → β → Prop} {x : Exec ε σ α} {y : Option β}
    (h : Refines K e P x s y) (hPQ : ∀ a s' b, P a s' b → K s s' → y = some b → Q a s' b) :
    Refines K e Q x s y := by
  obtain ⟨a, s', b, hx, rfl, hK, hP⟩ | ⟨s', hx, rfl, hK⟩ := h.cases
  · exact Refines.of_ok hx hK (hPQ a s' b hP hK rfl)
  · exact Refines.of_error hx hK

/-- The computation succeeds where the reference does. -/
theorem Refines.exists_ok {x : Exec ε σ α} {b : β} (h : Refines K e P x s (some b)) :
    ∃ a s', x s = (.ok a, s') ∧ K s s' ∧ P a s' b := by
  obtain ⟨a, s', b', hx, hb, hK, hP⟩ | ⟨s', -, hb, -⟩ := h.cases
  · obtain rfl := Option.some.inj hb
    exact ⟨a, s', hx, hK, hP⟩
  · cases hb

/-- The reference succeeds where the computation does. -/
theorem Refines.exists_some {x : Exec ε σ α} {y : Option β} (h : Refines K e P x s y) {a : α}
    {s' : σ} (hx : x s = (.ok a, s')) : ∃ b, y = some b ∧ K s s' ∧ P a s' b := by
  obtain ⟨a', s₁, b, hx', hb, hK, hP⟩ | ⟨s₁, hx', -, -⟩ := h.cases
  · obtain ⟨ha, rfl⟩ := Prod.mk.inj (hx'.symm.trans hx)
    obtain rfl := Except.ok.inj ha
    exact ⟨b, hb, hK, hP⟩
  · cases (Prod.mk.inj (hx'.symm.trans hx)).1

end Exec

end Jyyos
