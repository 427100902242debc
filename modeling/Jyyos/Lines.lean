import Jyyos.CStr
import Mathlib.Tactic.Common

/-!
# The lines of a text
-/

namespace Jyyos

/-- The lines of a text: a newline ends a line, and what follows the last newline is a line if it
is not empty. -/
def linesOf : List UInt8 → List CStr
  | [] => []
  | c :: cs =>
    if c = newline then [] :: linesOf cs
    else
      match linesOf cs with
      | [] => [[c]]
      | line :: lines => (c :: line) :: lines

theorem linesOf_eq_nil_iff {text : List UInt8} : linesOf text = [] ↔ text = [] := by
  cases text with
  | nil => simp [linesOf]
  | cons c cs =>
    rw [linesOf]
    split_ifs
    · simp
    · cases linesOf cs <;> simp

theorem linesOf_append {line : CStr} (h : newline ∉ line) (text : List UInt8) :
    linesOf (line ++ newline :: text) = line :: linesOf text := by
  induction line with
  | nil => rfl
  | cons c line ih =>
    rw [List.mem_cons, not_or] at h
    rw [List.cons_append, linesOf, if_neg (Ne.symm h.1), ih h.2]

end Jyyos
