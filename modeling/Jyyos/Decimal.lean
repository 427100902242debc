import Jyyos.CStr
import Mathlib.Data.Nat.Digits.Defs
import Mathlib.Algebra.Order.Group.Unbundled.Int
import Mathlib.Algebra.Group.Nat.Defs

/-!
# Numbers in C strings

`atoi` of the C library, and the decimal representation that it reads back (`atoi_decimal`).
-/

namespace Jyyos

/-- An integer brought into the range of an `int`. -/
def toInt (z : ℤ) : ℤ := z.bmod (2 ^ 32)

def isspace (c : UInt8) : Bool :=
  c == ' '.toUInt8 || (9 ≤ c && c ≤ 13)

def isdigit (c : UInt8) : Bool :=
  '0'.toUInt8 ≤ c && c ≤ '9'.toUInt8

/-- The value of the digits at the beginning of a string. -/
def digitsValue (s : CStr) : ℕ :=
  (s.takeWhile isdigit).foldl (fun n c => 10 * n + (c.toNat - '0'.toNat)) 0

/-- `atoi`: blanks, a sign, digits.  The standard leaves open what comes of a number that is no
`int`; here it is brought into range. -/
def atoi (s : CStr) : ℤ :=
  match s.dropWhile isspace with
  | [] => 0
  | c :: cs =>
    if c = '-'.toUInt8 then toInt (-(digitsValue cs : ℤ))
    else if c = '+'.toUInt8 then toInt (digitsValue cs)
    else toInt (digitsValue (c :: cs))

/-- The decimal representation of a number, without leading zeros. -/
def decimal (n : ℕ) : CStr := cstr (Nat.toDigits 10 n)

/-! ### Digits -/

theorem toDigits_injective : Function.Injective (Nat.toDigits 10) := by
  intro m n h
  rw [← Nat.ofDigitChars_ten_toDigits (n := m), h, Nat.ofDigitChars_ten_toDigits]

theorem toNat_of_isDigit {c : Char} (h : c.isDigit) : 48 ≤ c.toNat ∧ c.toNat ≤ 57 := by
  rw [Char.isDigit, Bool.and_eq_true, decide_eq_true_eq, decide_eq_true_eq] at h
  exact ⟨UInt32.le_iff_toNat_le.mp h.1, UInt32.le_iff_toNat_le.mp h.2⟩

theorem toUInt8_toNat_of_isDigit {c : Char} (h : c.isDigit) : c.toUInt8.toNat = c.toNat := by
  have hc := toNat_of_isDigit h
  show c.toNat % 256 = c.toNat
  omega

theorem isdigit_toUInt8 {c : Char} (h : c.isDigit) : isdigit c.toUInt8 := by
  have hc := toNat_of_isDigit h
  have heq := toUInt8_toNat_of_isDigit h
  rw [isdigit, Bool.and_eq_true, decide_eq_true_eq, decide_eq_true_eq,
    UInt8.le_iff_toNat_le, UInt8.le_iff_toNat_le, heq]
  exact hc

theorem isspace_of_isdigit {c : UInt8} (h : isdigit c) : isspace c = false := by
  simp only [isdigit, Bool.and_eq_true, decide_eq_true_eq, UInt8.le_iff_toNat_le] at h
  have hlo : 48 ≤ c.toNat := h.1
  have hne : c ≠ ' '.toUInt8 := by
    rintro rfl
    exact absurd hlo (by decide)
  have hgt : ¬ c ≤ 13 := by
    rw [UInt8.le_iff_toNat_le]
    exact not_le.mpr (lt_of_lt_of_le (by decide) hlo)
  simp [isspace, hne, hgt]

/-- The digits of a C string read as those of a list of characters. -/
theorem foldl_cstr (l : List Char) (k : ℕ) (hl : ∀ c ∈ l, c.isDigit) :
    (cstr l).foldl (fun n c => 10 * n + (c.toNat - '0'.toNat)) k = Nat.ofDigitChars 10 l k := by
  induction l generalizing k with
  | nil => rfl
  | cons c l ih =>
    rw [Nat.ofDigitChars_cons, ← ih _ fun d hd => hl d (List.mem_cons_of_mem _ hd),
      ← toUInt8_toNat_of_isDigit (hl c List.mem_cons_self)]
    rfl

theorem decimal_ne_nil (n : ℕ) : decimal n ≠ [] := by
  unfold decimal cstr
  simp [Nat.toDigits_ne_nil]

theorem isDigit_of_mem_decimal {n : ℕ} {b : UInt8} (hb : b ∈ decimal n) : isdigit b := by
  obtain ⟨c, hc, rfl⟩ := List.mem_map.mp hb
  exact isdigit_toUInt8 (Nat.isDigit_of_mem_toDigits (by omega) (by omega) hc)

theorem digitsValue_decimal (n : ℕ) : digitsValue (decimal n) = n := by
  have hall : (decimal n).takeWhile isdigit = decimal n :=
    List.takeWhile_eq_self_iff.mpr fun _ => isDigit_of_mem_decimal
  rw [digitsValue, hall, decimal, foldl_cstr, Nat.ofDigitChars_ten_toDigits]
  intro c hc
  exact Nat.isDigit_of_mem_toDigits (by omega) (by omega) hc

theorem toInt_of_lt {z : ℤ} (hlo : -2 ^ 31 ≤ z) (hhi : z < 2 ^ 31) : toInt z = z := by
  apply Int.bmod_eq_of_le <;> omega

theorem atoi_decimal {n : ℕ} (hn : n < 2 ^ 31) : atoi (decimal n) = n := by
  have hvalue := digitsValue_decimal n
  have hdigit := @isDigit_of_mem_decimal n
  have hint : toInt n = n := toInt_of_lt (by omega) (by omega)
  cases hd : decimal n with
  | nil => exact absurd hd (decimal_ne_nil n)
  | cons c cs =>
    have hc : isdigit c := hdigit (hd ▸ List.mem_cons_self)
    have hsp : isspace c = false := isspace_of_isdigit hc
    rw [atoi, List.dropWhile_cons_of_neg (by simp [hsp])]
    have hminus : c ≠ '-'.toUInt8 := by
      rintro rfl
      cases hc
    have hplus : c ≠ '+'.toUInt8 := by
      rintro rfl
      cases hc
    simp only [if_neg hminus, if_neg hplus]
    rw [← hd, hvalue, hint]

end Jyyos
