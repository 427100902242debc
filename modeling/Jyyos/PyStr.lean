import Mathlib.Data.Int.Notation
import Mathlib.Data.Nat.Notation
import Mathlib.Algebra.Group.Int.Defs
import Mathlib.Algebra.Group.Nat.Defs

/-!
# Python strings and bytes

What the linker and the loader use of Python's `str` and `bytes`: a string is the list of its
characters.  `split` and `fromhex` are about ASCII blanks, and `intHex` reads plain hexadecimal
digits (no sign, prefix or underscore).
-/

namespace Jyyos

/-- A string. -/
abbrev Str := List Char

instance : LawfulBEq Str := inferInstance

namespace PyStr

def isSpace (c : Char) : Bool :=
  c == ' ' || ('\t' ≤ c && c ≤ '\r')

/-- `sep.join(parts)` for a separator of one character. -/
def join (sep : Char) : List Str → Str
  | [] => []
  | [s] => s
  | s :: t :: ss => s ++ sep :: join sep (t :: ss)

/-- `s.split()`: the maximal parts without blanks; `word` is the part being read, backwards. -/
def splitLoop (word : Str) : Str → List Str
  | [] => if word = [] then [] else [word.reverse]
  | c :: cs =>
    if isSpace c then
      if word = [] then splitLoop [] cs else word.reverse :: splitLoop [] cs
    else splitLoop (c :: word) cs

/-- `s.split()`. -/
def split (s : Str) : List Str := splitLoop [] s

/-- The value of a hexadecimal digit. -/
def hexValue (c : Char) : Option ℕ :=
  if '0' ≤ c ∧ c ≤ '9' then some (c.toNat - '0'.toNat)
  else if 'a' ≤ c ∧ c ≤ 'f' then some (c.toNat - 'a'.toNat + 10)
  else if 'A' ≤ c ∧ c ≤ 'F' then some (c.toNat - 'A'.toNat + 10)
  else none

/-- `int(s, 16)`. -/
def intHex (s : Str) : Option ℕ :=
  if s = [] then none
  else s.foldlM (fun n c => (hexValue c).map fun d => 16 * n + d) 0

/-- The lower-case hexadecimal digit of a number below `16`. -/
def hexDigit (n : ℕ) : Char := Nat.digitChar n

/-- `f'{b:02x}'`. -/
def hex2 (b : UInt8) : Str := [hexDigit (b.toNat / 16), hexDigit (b.toNat % 16)]

/-- `bytes([...])`: every number must be a byte. -/
def bytesOf (ns : List ℕ) : Option (List UInt8) :=
  ns.mapM fun n => if n < 256 then some (UInt8.ofNat n) else none

/-- `bytes.fromhex(s)`: pairs of digits, with blanks between the pairs. -/
def fromhex : Str → Option (List UInt8)
  | [] => some []
  | c :: cs =>
    if isSpace c then fromhex cs
    else
      match cs with
      | [] => none
      | d :: cs => do
        let high ← hexValue c
        let low ← hexValue d
        let bs ← fromhex cs
        return UInt8.ofNat (16 * high + low) :: bs

/-- `x.to_bytes(4, 'little', signed=True)`; `none` stands for `OverflowError`. -/
def toBytes4 (x : ℤ) : Option (List UInt8) :=
  if -2 ^ 31 ≤ x ∧ x < 2 ^ 31 then
    let n := (x % 2 ^ 32).toNat
    some [.ofNat n, .ofNat (n / 2 ^ 8), .ofNat (n / 2 ^ 16), .ofNat (n / 2 ^ 24)]
  else none

/-- `s.replace(old, new)` for single characters. -/
def replaceChar (old new : Char) (s : Str) : Str := s.map fun c => if c = old then new else c

end PyStr

end Jyyos
