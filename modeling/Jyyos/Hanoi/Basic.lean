import Mathlib.Data.Nat.Notation
import Mathlib.Algebra.Notation.Defs

/-!
# The recursive `hanoi`

`hanoi` of `hanoi-r.c`.  A peg is a value of any type, and the number that is returned is computed
in any type with an addition and a one, so that the same function is read with the 32-bit numbers of
the program and with the integers.  The lines that are printed are the pairs of their two pegs.  The
parameters `from` and `to` are called `src` and `dst`, since their names are keywords here.
-/

namespace Jyyos.Hanoi

variable {κ α : Type*} [Add α] [One α]

/-- The moves that `hanoi(n, src, dst, via)` prints and the number that it returns; `none` for
`n = 0`, where the recursion of the source goes on below zero. -/
def hanoi : ℕ → κ → κ → κ → Option (List (κ × κ) × α)
  | 0, _, _, _ => none
  | 1, src, dst, _ => some ([(src, dst)], 1)
  | n + 2, src, dst, via => do
    let (moves₁, c1) ← hanoi (n + 1) src via dst
    let (moves₂, _) ← hanoi 1 src dst via
    let (moves₃, c2) ← hanoi (n + 1) via dst src
    return (moves₁ ++ moves₂ ++ moves₃, c1 + c2 + 1)

end Jyyos.Hanoi
