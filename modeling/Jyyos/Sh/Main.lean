import Jyyos.CStr
import Mathlib.Tactic.Common

/-!
# The main loop of the shell

`getcmd` and `main` of `lecture_8/sh/sh.c`.  The standard input is the list of the bytes that the
shell itself reads from it; a read of one byte fails at its end.  What `main` does is the list of
the texts that it hands on: the path of a `chdir`, or the line that a child process gives to
`parsecmd`.
-/

namespace Jyyos.Sh

/-- The loop of `getcmd` with room for `nbuf` characters, the last of them the terminator, in the
buffer from index `i` on: the buffer, or `none` for the result -1, and the rest of the input. -/
def getcmdLoop : ℕ → ℕ → List UInt8 → List UInt8 → Option (List UInt8) × List UInt8
  | 0, _, buf, stdin => (some buf, stdin)
  | 1, _, buf, stdin => (some buf, stdin)
  | _ + 2, _, _, [] => (none, [])
  | nbuf + 2, i, buf, c :: stdin =>
    let buf := buf.set i c
    if c = newline then (some buf, stdin) else getcmdLoop (nbuf + 1) (i + 1) buf stdin

/-- `getcmd`: the buffer is cleared first. -/
def getcmd (nbuf : ℕ) (stdin : List UInt8) : Option (List UInt8) × List UInt8 :=
  getcmdLoop nbuf 0 (List.replicate nbuf 0) stdin

/-- `sizeof(buf)`. -/
def bufSize : ℕ := 100

/-- A text that `main` hands on. -/
inductive Handed where
  | chdir (path : CStr)
  | parsecmd (s : CStr)
deriving DecidableEq, Repr

/-- The body of the loop of `main`. -/
def handOn (buf : List UInt8) : Handed :=
  if buf.getD 0 0 = 'c'.toUInt8 ∧ buf.getD 1 0 = 'd'.toUInt8 ∧ buf.getD 2 0 = ' '.toUInt8 then
    let buf := buf.set ((cstrOf buf).length - 1) 0
    .chdir (cstrOf (buf.drop 3))
  else .parsecmd (cstrOf buf)

/-- The loop takes something from the input, unless it fails. -/
theorem length_getcmdLoop (nbuf : ℕ) : ∀ (i : ℕ) (buf stdin : List UInt8) {buf' : List UInt8},
    (getcmdLoop (nbuf + 2) i buf stdin).1 = some buf' →
    (getcmdLoop (nbuf + 2) i buf stdin).2.length < stdin.length := by
  induction nbuf with
  | zero =>
    intro i buf stdin buf' h
    cases stdin with
    | nil => cases h
    | cons c stdin =>
      rw [getcmdLoop]
      split_ifs
      · exact Nat.lt_succ_self _
      · exact Nat.lt_succ_self _
  | succ nbuf ih =>
    intro i buf stdin buf' h
    cases stdin with
    | nil => cases h
    | cons c stdin =>
      rw [getcmdLoop] at h ⊢
      split_ifs at h ⊢
      · exact Nat.lt_succ_self _
      · exact Nat.lt_succ_of_lt (ih _ _ _ h)

/-- `main`. -/
def main (stdin : List UInt8) : List Handed :=
  match _h : (getcmd bufSize stdin).1 with
  | none => []
  | some buf => handOn buf :: main (getcmd bufSize stdin).2
termination_by stdin.length
decreasing_by exact length_getcmdLoop 98 _ _ _ _h

end Jyyos.Sh
