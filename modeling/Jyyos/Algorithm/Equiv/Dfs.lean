import Jyyos.Algorithm.Dfs
import Mathlib.Logic.Relation
import Mathlib.Data.Finset.Card

/-!
# Correctness of `Dfs.search`

`search_spec`: if the open vertices lie in a finite set `S` and the fuel exceeds the number of
vertices of `S` that are still unmarked once `a` is marked, the search returns marks `m'` that are
`Marks ok next m a m'`.  `Marks.iff_white` reads this as the white-path property: a vertex is
marked at the end iff it was marked at the start or is joined to `a` by a path of open vertices
that were all unmarked at the start.

The induction is on the fuel and, inside it, along the list of neighbours.  What a partly worked
list of neighbours guarantees is `Marks` without closedness at `a` itself (`Pending`).
-/

namespace Jyyos.Dfs

variable {α : Type*} [DecidableEq α] {ok : α → Bool} {next : α → List α}

/-- A step of a white path: to an open neighbour that `m` does not mark. -/
def WhiteStep (ok : α → Bool) (next : α → List α) (m : α → Bool) (x y : α) : Prop :=
  y ∈ next x ∧ ok y = true ∧ m y = false

/-- `b` is joined to `a` by a path of open vertices unmarked in `m` (the start is free). -/
def White (ok : α → Bool) (next : α → List α) (m : α → Bool) (a b : α) : Prop :=
  Relation.ReflTransGen (WhiteStep ok next m) a b

/-- What a search from `a` on the marks `m` leaves behind. -/
structure Marks (ok : α → Bool) (next : α → List α) (m : α → Bool) (a : α) (m' : α → Bool) :
    Prop where
  /-- No mark is taken back. -/
  mono : ∀ x, m x = true → m' x = true
  /-- The start is marked. -/
  start : m' a = true
  /-- Only ends of white paths are marked. -/
  sound : ∀ x, m' x = true → m x = true ∨ White ok next m a x
  /-- Every open neighbour of a newly marked vertex is marked. -/
  closed : ∀ x, m' x = true → m x = false ∨ x = a → ∀ y ∈ next x, ok y = true → m' y = true

/-- The same while the neighbours of `a` are being worked through: closed away from `a`. -/
structure Pending (ok : α → Bool) (next : α → List α) (m : α → Bool) (a : α) (m' : α → Bool) :
    Prop where
  mono : ∀ x, m x = true → m' x = true
  start : m' a = true
  sound : ∀ x, m' x = true → m x = true ∨ White ok next m a x
  closed : ∀ x, m' x = true → m x = false → x ≠ a → ∀ y ∈ next x, ok y = true → m' y = true

omit [DecidableEq α] in
theorem Marks.iff_white {m m' : α → Bool} {a : α} (h : Marks ok next m a m') (x : α) :
    m' x = true ↔ m x = true ∨ White ok next m a x := by
  refine ⟨h.sound x, ?_⟩
  rintro (hm | hw)
  · exact h.mono x hm
  · -- along a white path every vertex is newly marked, hence so is the next one
    have key : m' x = true ∧ (m x = false ∨ x = a) := by
      induction hw with
      | refl => exact ⟨h.start, Or.inr rfl⟩
      | tail _ hstep ih =>
        obtain ⟨hmem, hok, hm⟩ := hstep
        exact ⟨h.closed _ ih.1 ih.2 _ hmem hok, Or.inl hm⟩
    exact key.1

omit [DecidableEq α] in
/-- White paths on more marks are white paths on fewer. -/
theorem White.anti {m₁ m₂ : α → Bool} (h : ∀ x, m₁ x = true → m₂ x = true) {a b : α}
    (hw : White ok next m₂ a b) : White ok next m₁ a b := by
  refine Relation.ReflTransGen.mono ?_ _ _ hw
  rintro x y ⟨hmem, hok, hm⟩
  refine ⟨hmem, hok, ?_⟩
  by_contra hne
  rw [Bool.not_eq_false] at hne
  rw [h y hne] at hm
  exact Bool.noConfusion hm

theorem mark_mono (m : α → Bool) (a x : α) (hx : m x = true) :
    Function.update m a true x = true := by
  by_cases hxa : x = a
  · rw [hxa, Function.update_self]
  · rw [Function.update_of_ne hxa]; exact hx

theorem Pending.init (m : α → Bool) (a : α) :
    Pending ok next m a (Function.update m a true) where
  mono := mark_mono m a
  start := Function.update_self ..
  sound x hx := by
    by_cases hxa : x = a
    · exact Or.inr (hxa ▸ Relation.ReflTransGen.refl)
    · rw [Function.update_of_ne hxa] at hx; exact Or.inl hx
  closed x hx hm hxa := by
    rw [Function.update_of_ne hxa, hm] at hx
    exact Bool.noConfusion hx

omit [DecidableEq α] in
/-- A completed search from an open unmarked neighbour `b` of `a` keeps the guarantee. -/
theorem Pending.extend {m m₁ m₂ : α → Bool} {a b : α} (h : Pending ok next m a m₁)
    (hb : b ∈ next a) (hok : ok b = true) (hm : m₁ b = false) (h₂ : Marks ok next m₁ b m₂) :
    Pending ok next m a m₂ where
  mono x hx := h₂.mono x (h.mono x hx)
  start := h₂.mono a h.start
  sound x hx := by
    rcases h₂.sound x hx with h1 | hw
    · exact h.sound x h1
    · have hmb : m b = false := by
        by_contra hne
        rw [Bool.not_eq_false] at hne
        rw [h.mono b hne] at hm
        exact Bool.noConfusion hm
      exact Or.inr (Relation.ReflTransGen.head ⟨hb, hok, hmb⟩ (hw.anti h.mono))
  closed x hx hmx hxa y hy hoky := by
    by_cases h1 : m₁ x = true
    · exact h₂.mono y (h.closed x h1 hmx hxa y hy hoky)
    · exact h₂.closed x hx (Or.inl (by simpa using h1)) y hy hoky

/-- The vertices of `S` that `m` leaves unmarked. -/
def unmarked (S : Finset α) (m : α → Bool) : Finset α := S.filter fun x => m x = false

omit [DecidableEq α] in
theorem unmarked_subset {S : Finset α} {m₁ m₂ : α → Bool} (h : ∀ x, m₁ x = true → m₂ x = true) :
    unmarked S m₂ ⊆ unmarked S m₁ := by
  intro x hx
  simp only [unmarked, Finset.mem_filter] at hx ⊢
  refine ⟨hx.1, ?_⟩
  by_contra hne
  rw [Bool.not_eq_false] at hne
  rw [h x hne] at hx
  exact Bool.noConfusion hx.2

/-- Marking an unmarked vertex of `S` leaves fewer unmarked. -/
theorem card_unmarked_update_lt {S : Finset α} {m : α → Bool} {b : α} (hb : b ∈ S)
    (hm : m b = false) :
    (unmarked S (Function.update m b true)).card < (unmarked S m).card := by
  apply Finset.card_lt_card
  refine ⟨unmarked_subset (mark_mono m b), ?_⟩
  -- strictly, since `b` itself is no longer unmarked
  intro hsub
  have hmem : b ∈ unmarked S (Function.update m b true) :=
    hsub (Finset.mem_filter.mpr ⟨hb, hm⟩)
  rw [unmarked, Finset.mem_filter, Function.update_self] at hmem
  exact Bool.noConfusion hmem.2

/-- Working through the neighbours `bs` of `a`, given that searches with this fuel are correct
whenever it exceeds what they leave unmarked. -/
theorem foldlM_search_spec {S : Finset α} (hS : ∀ b, ok b = true → b ∈ S) {fuel : ℕ}
    (ih : ∀ (b : α) (m : α → Bool), (unmarked S (Function.update m b true)).card < fuel →
      ∃ m', search ok next fuel b m = some m' ∧ Marks ok next m b m')
    {m : α → Bool} {a : α} : ∀ (bs : List α) (m₁ : α → Bool), (∀ b ∈ bs, b ∈ next a) →
      Pending ok next m a m₁ → (unmarked S m₁).card ≤ fuel →
      ∃ m', bs.foldlM (fun m b => if ok b && !m b then search ok next fuel b m else some m) m₁
          = some m' ∧ Pending ok next m a m' ∧ (∀ x, m₁ x = true → m' x = true) ∧
        ∀ b ∈ bs, ok b = true → m' b = true := by
  intro bs
  induction bs with
  | nil =>
    intro m₁ _ hp _
    exact ⟨m₁, rfl, hp, fun _ h => h, fun b hb => absurd hb List.not_mem_nil⟩
  | cons b bs ihbs =>
    intro m₁ hbs hp hcard
    have hbs' : ∀ b' ∈ bs, b' ∈ next a := fun b' hb' => hbs b' (List.mem_cons_of_mem _ hb')
    rw [List.foldlM_cons]
    by_cases hb : ok b = true ∧ m₁ b = false
    · -- the search from `b` marks it, so it leaves less unmarked than its fuel
      obtain ⟨hok, hm⟩ := hb
      have hlt := card_unmarked_update_lt (hS b hok) hm
      obtain ⟨m₂, hs, hM⟩ := ih b m₁ (by omega)
      have hp₂ := hp.extend (hbs b (List.mem_cons_self ..)) hok hm hM
      have hcard₂ : (unmarked S m₂).card ≤ fuel :=
        (Finset.card_le_card (unmarked_subset hM.mono)).trans hcard
      obtain ⟨m', hf, hp', hmono, hdone⟩ := ihbs m₂ hbs' hp₂ hcard₂
      refine ⟨m', ?_, hp', fun x hx => hmono x (hM.mono x hx), ?_⟩
      · simp only [hok, hm, Bool.not_false, Bool.and_true, ↓reduceIte, hs]
        exact hf
      · intro b' hb' hok'
        rcases List.mem_cons.mp hb' with rfl | hmem
        · exact hmono b' hM.start
        · exact hdone b' hmem hok'
    · obtain ⟨m', hf, hp', hmono, hdone⟩ := ihbs m₁ hbs' hp hcard
      have hcond : (ok b && !m₁ b) = false := by
        cases hok : ok b <;> cases hm : m₁ b <;> simp_all
      refine ⟨m', ?_, hp', hmono, ?_⟩
      · simp only [hcond, Bool.false_eq_true, ↓reduceIte]
        exact hf
      · intro b' hb' hok'
        rcases List.mem_cons.mp hb' with rfl | hmem
        · -- an open neighbour that is skipped was marked already
          have hm : m₁ b' = true := by
            by_contra hne
            exact hb ⟨hok', by simpa using hne⟩
          exact hmono b' hm
        · exact hdone b' hmem hok'

/-- **Termination and the white-path property** of depth-first marking. -/
theorem search_spec {S : Finset α} (hS : ∀ b, ok b = true → b ∈ S) :
    ∀ (fuel : ℕ) (a : α) (m : α → Bool), (unmarked S (Function.update m a true)).card < fuel →
      ∃ m', search ok next fuel a m = some m' ∧ Marks ok next m a m' := by
  intro fuel
  induction fuel with
  | zero => intro a m h; omega
  | succ fuel ih =>
    intro a m hcard
    obtain ⟨m', hf, hp, -, hdone⟩ := foldlM_search_spec hS ih (next a)
      (Function.update m a true) (fun _ h => h) (Pending.init m a) (by omega)
    refine ⟨m', by rw [search]; exact hf, hp.mono, hp.start, hp.sound, ?_⟩
    intro x hx hnew y hy hoky
    -- the start is closed because the loop has gone through all its neighbours
    by_cases hxa : x = a
    · subst hxa
      exact hdone y hy hoky
    · exact hp.closed x hx (hnew.resolve_right hxa) hxa y hy hoky

end Jyyos.Dfs
