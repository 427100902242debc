import Mathlib.Data.List.Sort
import Mathlib.Algebra.Order.Group.Unbundled.Int

/-!
# What `qsort` promises

The C library's `qsort` rearranges an array so that each element compares less than or equal to
the next ones, provided the comparison function orders the elements consistently.  It promises
nothing about the order of elements that compare equal, so it is described by a predicate and not
by a function.  Insertion sort has the property (`insertionSort_isQsort`).
-/

namespace Jyyos

variable {α : Type*}

/-- The comparison function orders the elements of `l` consistently. -/
structure Consistent (cmp : α → α → ℤ) (l : List α) : Prop where
  antisymm : ∀ a ∈ l, ∀ b ∈ l, cmp a b ≤ 0 ↔ 0 ≤ cmp b a
  trans : ∀ a ∈ l, ∀ b ∈ l, ∀ c ∈ l, cmp a b ≤ 0 → cmp b c ≤ 0 → cmp a c ≤ 0

/-- A function that keeps the promise of `qsort`. -/
structure IsQsort (qsort : (α → α → ℤ) → List α → List α) : Prop where
  perm : ∀ cmp l, Consistent cmp l → (qsort cmp l).Perm l
  sorted : ∀ cmp l, Consistent cmp l → (qsort cmp l).Pairwise fun a b => cmp a b ≤ 0

theorem Consistent.mono {cmp : α → α → ℤ} {l l' : List α} (h : Consistent cmp l) (hl : l' ⊆ l) :
    Consistent cmp l' where
  antisymm a ha b hb := h.antisymm a (hl ha) b (hl hb)
  trans a ha b hb c hc := h.trans a (hl ha) b (hl hb) c (hl hc)

/-- Inserting into a sorted list keeps it sorted, when the comparison is consistent there. -/
theorem Consistent.pairwise_orderedInsert {cmp : α → α → ℤ} {a : α} {l : List α}
    (h : Consistent cmp (a :: l)) (hl : l.Pairwise fun a b => cmp a b ≤ 0) :
    (l.orderedInsert (fun a b => cmp a b ≤ 0) a).Pairwise fun a b => cmp a b ≤ 0 := by
  induction l with
  | nil => exact List.pairwise_singleton _ _
  | cons b l ih =>
    rw [List.pairwise_cons] at hl
    have ha : a ∈ a :: b :: l := List.mem_cons_self
    have hb : b ∈ a :: b :: l := List.mem_cons_of_mem _ List.mem_cons_self
    by_cases hab : cmp a b ≤ 0
    · rw [List.orderedInsert, if_pos hab, List.pairwise_cons, List.pairwise_cons]
      refine ⟨?_, hl⟩
      intro c hc
      rcases List.mem_cons.mp hc with rfl | hc'
      · exact hab
      · have hcl : c ∈ a :: b :: l := List.mem_cons_of_mem _ hc
        exact h.trans a ha b hb c hcl hab (hl.1 c hc')
    · -- `b` stays in front, and it is not greater than `a`
      rw [List.orderedInsert, if_neg hab, List.pairwise_cons]
      have hsub : Consistent cmp (a :: l) :=
        h.mono (List.cons_subset_cons _ (List.subset_cons_self _ _))
      refine ⟨?_, ih hsub hl.2⟩
      intro c hc
      rcases List.mem_orderedInsert _ |>.mp hc with rfl | hc'
      · exact (h.antisymm b hb c ha).mpr (by omega)
      · exact hl.1 c hc'

/-- Insertion sort keeps the promise of `qsort`. -/
theorem insertionSort_isQsort :
    IsQsort fun (cmp : α → α → ℤ) l => l.insertionSort fun a b => cmp a b ≤ 0 where
  perm cmp l _ := List.perm_insertionSort _ l
  sorted cmp l h := by
    induction l with
    | nil => exact List.Pairwise.nil
    | cons a l ih =>
      have hl : Consistent cmp l := h.mono (List.subset_cons_self _ _)
      have hsub : a :: l.insertionSort (fun a b => cmp a b ≤ 0) ⊆ a :: l :=
        List.cons_subset_cons _ (List.perm_insertionSort _ l).subset
      exact (h.mono hsub).pairwise_orderedInsert (ih hl)

end Jyyos
