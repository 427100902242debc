import Mathlib.Data.List.Nodup
import Mathlib.Data.List.GetD
import Mathlib.Data.Finset.Powerset

/-!
# Selections by bit tuples

`bitTuples n` is `product(*([(0, 1)] * n))`, all tuples of `n` bits in lexicographic order, and
`compress xs bits` keeps the elements of `xs` at which the bit is set.  For a list of `n` distinct
elements the tuples select every subset exactly once (`bijOn_selected`).
-/

namespace Jyyos.Itertools

variable {α : Type*}

/-- All tuples of `n` bits; the first bit varies slowest. -/
def bitTuples : ℕ → List (List Bool)
  | 0 => [[]]
  | n + 1 => (bitTuples n).map (false :: ·) ++ (bitTuples n).map (true :: ·)

/-- The elements at which the bit is set. -/
def compress : List α → List Bool → List α
  | x :: xs, b :: bs => if b then x :: compress xs bs else compress xs bs
  | _, _ => []

@[simp]
theorem length_bitTuples (n : ℕ) : (bitTuples n).length = 2 ^ n := by
  induction n with
  | zero => rfl
  | succ n ih =>
    rw [bitTuples, List.length_append, List.length_map, List.length_map, ih, pow_succ]
    omega

theorem mem_bitTuples {bs : List Bool} : ∀ {n : ℕ}, bs ∈ bitTuples n ↔ bs.length = n := by
  induction bs with
  | nil =>
    intro n
    cases n with
    | zero => simp [bitTuples]
    | succ n => simp [bitTuples]
  | cons b bs ih =>
    intro n
    cases n with
    | zero => simp [bitTuples]
    | succ n =>
      rw [bitTuples, List.mem_append, List.mem_map, List.mem_map, List.length_cons,
        Nat.add_right_cancel_iff, ← ih]
      cases b <;> simp

theorem nodup_bitTuples (n : ℕ) : (bitTuples n).Nodup := by
  induction n with
  | zero => simp [bitTuples]
  | succ n ih =>
    rw [bitTuples, List.nodup_append]
    refine ⟨ih.map (List.cons_injective), ih.map (List.cons_injective), ?_⟩
    intro a ha b hb hab
    obtain ⟨x, -, rfl⟩ := List.mem_map.mp ha
    obtain ⟨y, -, rfl⟩ := List.mem_map.mp hb
    exact Bool.noConfusion (List.cons.inj hab).1

theorem compress_sublist : ∀ (xs : List α) (bs : List Bool), (compress xs bs).Sublist xs
  | [], _ => by simp [compress]
  | x :: xs, [] => by simp [compress]
  | x :: xs, b :: bs => by
    rw [compress]
    split_ifs
    · exact (compress_sublist xs bs).cons_cons x
    · exact (compress_sublist xs bs).cons x

theorem mem_compress {x : α} : ∀ {xs : List α} {bs : List Bool},
    x ∈ compress xs bs ↔ ∃ i : ℕ, xs[i]? = some x ∧ bs[i]? = some true
  | [], _ => by simp [compress]
  | y :: xs, [] => by simp [compress]
  | y :: xs, b :: bs => by
    -- the first element, or one of the others
    have hsplit : (∃ i : ℕ, (y :: xs)[i]? = some x ∧ (b :: bs)[i]? = some true) ↔
        (y = x ∧ b = true) ∨ ∃ i : ℕ, xs[i]? = some x ∧ bs[i]? = some true := by
      constructor
      · rintro ⟨_ | i, hx, hb⟩
        · exact Or.inl ⟨Option.some.inj hx, Option.some.inj hb⟩
        · exact Or.inr ⟨i, hx, hb⟩
      · rintro (⟨rfl, rfl⟩ | ⟨i, hx, hb⟩)
        · exact ⟨0, rfl, rfl⟩
        · exact ⟨i + 1, hx, hb⟩
    rw [hsplit, ← mem_compress, compress]
    cases b <;> simp [eq_comm]

theorem map_compress {β : Type*} (f : α → β) : ∀ (xs : List α) (bs : List Bool),
    (compress xs bs).map f = compress (xs.map f) bs
  | [], _ => by simp [compress]
  | x :: xs, [] => by simp [compress]
  | x :: xs, b :: bs => by
    rw [compress, List.map_cons, compress]
    split_ifs
    · rw [List.map_cons, map_compress f xs bs]
    · exact map_compress f xs bs

/-- The bits of a selection select it. -/
theorem compress_map_bits (p : α → Bool) (xs : List α) : compress xs (xs.map p) = xs.filter p := by
  induction xs with
  | nil => rfl
  | cons x xs ih =>
    rw [List.map_cons, compress, List.filter_cons, ih]

/-- On distinct elements different tuples of the right length select different elements. -/
theorem bits_eq_of_compress [DecidableEq α] : ∀ {xs : List α}, xs.Nodup →
    ∀ {bs : List Bool}, bs.length = xs.length → bs = xs.map fun x => decide (x ∈ compress xs bs)
  | [], _, bs, hbs => by
    rw [List.length_nil, List.length_eq_zero_iff] at hbs
    rw [hbs]
    rfl
  | x :: xs, hnd, [], hbs => by simp at hbs
  | x :: xs, hnd, b :: bs, hbs => by
    rw [List.nodup_cons] at hnd
    have hlen : bs.length = xs.length := by simpa using hbs
    have hx : x ∉ compress xs bs := fun h => hnd.1 ((compress_sublist xs bs).subset h)
    have hrest : bs = xs.map fun y => decide (y ∈ compress (x :: xs) (b :: bs)) := by
      conv_lhs => rw [bits_eq_of_compress hnd.2 hlen]
      refine List.map_congr_left fun y hy => ?_
      have hyx : y ≠ x := fun h => hnd.1 (h ▸ hy)
      rw [compress]
      split_ifs
      · simp [hyx]
      · rfl
    have hhead : b = decide (x ∈ compress (x :: xs) (b :: bs)) := by
      rw [compress]
      cases b <;> simp [hx]
    rw [List.map_cons, ← hhead, ← hrest]

/-- The subset of the elements of `xs` that tuple number `i` selects. -/
def selected [DecidableEq α] (xs : List α) (i : ℕ) : Finset α :=
  (compress xs ((bitTuples xs.length).getD i [])).toFinset

/-- **The tuple numbers and the subsets correspond one to one.** -/
theorem bijOn_selected [DecidableEq α] {xs : List α} (hnd : xs.Nodup) :
    Set.BijOn (selected xs) (Set.Iio (2 ^ xs.length)) {A | A ⊆ xs.toFinset} := by
  have hget : ∀ i, i < 2 ^ xs.length →
      ((bitTuples xs.length).getD i []).length = xs.length := by
    intro i hi
    rw [← mem_bitTuples, List.getD_eq_getElem _ _ (by rw [length_bitTuples]; exact hi)]
    exact List.getElem_mem _
  refine ⟨?_, ?_, ?_⟩
  · intro i _ x hx
    rw [selected, List.mem_toFinset] at hx
    exact List.mem_toFinset.mpr ((compress_sublist xs _).subset hx)
  · intro i hi j hj hij
    simp only [selected] at hij
    have hmem : ∀ x, x ∈ compress xs ((bitTuples xs.length).getD i []) ↔
        x ∈ compress xs ((bitTuples xs.length).getD j []) := by
      intro x
      rw [← List.mem_toFinset, hij, List.mem_toFinset]
    have hbits : (bitTuples xs.length).getD i [] = (bitTuples xs.length).getD j [] := by
      rw [bits_eq_of_compress hnd (hget i hi), bits_eq_of_compress hnd (hget j hj)]
      simp only [hmem]
    rw [List.getD_eq_getElem _ _ (by rw [length_bitTuples]; exact hi),
      List.getD_eq_getElem _ _ (by rw [length_bitTuples]; exact hj)] at hbits
    exact (nodup_bitTuples xs.length).getElem_inj_iff.mp hbits
  · intro A hA
    have hbits : xs.map (fun x => decide (x ∈ A)) ∈ bitTuples xs.length := by
      rw [mem_bitTuples, List.length_map]
    obtain ⟨i, hi, hi'⟩ := List.getElem_of_mem hbits
    refine ⟨i, by rw [length_bitTuples] at hi; exact hi, ?_⟩
    rw [selected, List.getD_eq_getElem _ _ hi, hi', compress_map_bits]
    ext x
    rw [List.mem_toFinset, List.mem_filter, decide_eq_true_eq]
    exact ⟨fun h => h.2, fun h => ⟨List.mem_toFinset.mp (hA h), h⟩⟩

end Jyyos.Itertools
