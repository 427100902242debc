import Jyyos.Hanoi.Basic
import Mathlib.Data.Nat.Init
import Mathlib.Tactic.Common

/-!
# Induction over the calls of `hanoi`

`hanoi_induction`: for `n ≥ 1` the recursion ends, and a relation between its arguments and its
results that holds for one disk, and for `n + 2` disks if it holds for the two calls with `n + 1`,
holds for all.  The results about the two machines and about the puzzle are instances.
-/

namespace Jyyos.Hanoi

variable {κ α : Type*} [Add α] [One α]

theorem hanoi_one (src dst via : κ) : hanoi (α := α) 1 src dst via = some ([(src, dst)], 1) := by
  rw [hanoi]

theorem hanoi_add_two {n : ℕ} {src dst via : κ} {moves₁ moves₂ : List (κ × κ)} {c1 c2 : α}
    (h₁ : hanoi (n + 1) src via dst = some (moves₁, c1))
    (h₂ : hanoi (n + 1) via dst src = some (moves₂, c2)) :
    hanoi (n + 2) src dst via = some (moves₁ ++ [(src, dst)] ++ moves₂, c1 + c2 + 1) := by
  rw [hanoi, h₁, h₂, hanoi_one]
  rfl

/-- **Induction over the calls of `hanoi`.** -/
theorem hanoi_induction {P : ℕ → κ → κ → κ → List (κ × κ) → α → Prop}
    (one : ∀ src dst via, P 1 src dst via [(src, dst)] 1)
    (more : ∀ n src dst via moves₁ moves₂ c1 c2, P (n + 1) src via dst moves₁ c1 →
      P (n + 1) via dst src moves₂ c2 →
      P (n + 2) src dst via (moves₁ ++ [(src, dst)] ++ moves₂) (c1 + c2 + 1))
    {n : ℕ} (hn : 1 ≤ n) (src dst via : κ) :
    ∃ moves c, hanoi n src dst via = some (moves, c) ∧ P n src dst via moves c := by
  induction n, hn using Nat.le_induction generalizing src dst via with
  | base => exact ⟨_, _, hanoi_one src dst via, one src dst via⟩
  | succ n hn ih =>
    obtain ⟨n, rfl⟩ : ∃ k, n = k + 1 := ⟨n - 1, by omega⟩
    obtain ⟨moves₁, c1, h₁, hP₁⟩ := ih src via dst
    obtain ⟨moves₂, c2, h₂, hP₂⟩ := ih via dst src
    exact ⟨_, _, hanoi_add_two h₁ h₂, more n src dst via moves₁ moves₂ c1 c2 hP₁ hP₂⟩

end Jyyos.Hanoi
