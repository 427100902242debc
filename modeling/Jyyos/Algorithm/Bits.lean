import Mathlib.Algebra.Group.Int.Defs
import Mathlib.Algebra.Group.Nat.Defs
import Mathlib.Data.BitVec
import Mathlib.Tactic.Common

/-!
# Bit vectors

What an emulator of a processor rests on: a test of one bit, the sign extension of a field by a test
and a mask, the upper half of a product, and a counter in two words.
-/

namespace Jyyos.Bits

variable {w n m k : ℕ}

/-- Masking with a power of two tests a bit. -/
theorem and_twoPow_ne_zero {x : BitVec w} {i : ℕ} (hi : i < w) :
    x &&& BitVec.twoPow w i ≠ 0 ↔ x.getLsbD i = true := by
  rw [BitVec.and_twoPow]
  cases hx : x.getLsbD i with
  | false => simp
  | true =>
    rw [if_pos rfl]
    refine ⟨fun _ => rfl, fun _ hzero => ?_⟩
    have hbit := congrArg (BitVec.getLsbD · i) hzero
    simp [hi] at hbit

/-- The upper bits set if the sign is: the field with its sign. -/
theorem signExtend_eq_ite (x : BitVec n) (hn : 0 < n) (hw : n ≤ w) :
    (if x.setWidth w &&& BitVec.twoPow w (n - 1) ≠ 0 then
        x.setWidth w ||| (BitVec.allOnes w <<< n) else x.setWidth w) = x.signExtend w := by
  have hsign : x.setWidth w &&& BitVec.twoPow w (n - 1) ≠ 0 ↔ x.msb = true := by
    rw [and_twoPow_ne_zero (by omega), BitVec.getLsbD_setWidth, BitVec.msb_eq_getLsbD_last]
    simp [show n - 1 < w by omega]
  simp only [hsign]
  cases hmsb : x.msb with
  | false =>
    rw [if_neg Bool.false_ne_true, BitVec.signExtend_eq_setWidth_of_msb_false hmsb]
  | true =>
    rw [if_pos rfl]
    apply BitVec.eq_of_getLsbD_eq
    intro i hi
    rw [BitVec.getLsbD_signExtend, BitVec.getLsbD_or, BitVec.getLsbD_setWidth,
      BitVec.getLsbD_shiftLeft, BitVec.getLsbD_allOnes, hmsb]
    by_cases hin : i < n
    · simp [hi, hin]
    · simp [hi, hin, show i - n < w by omega]

/-! ### Parts of numbers -/

/-- A part of a number is a part of its lowest digits. -/
theorem emod_mul_ediv (z a b : ℤ) (ha : 0 < a) : z % (a * b) / a = z / a % b := by
  have hz : z % (a * b) = z - a * (b * (z / a / b)) := by
    rw [Int.emod_def, Int.ediv_ediv_of_nonneg ha.le, Int.mul_assoc]
  rw [hz, Int.sub_eq_add_neg, ← Int.mul_neg, Int.add_mul_ediv_left _ _ ha.ne', Int.emod_def (z / a)]
  rfl

/-- The bits of a number from `k` on. -/
theorem setWidth_ushiftRight_ofInt (z : ℤ) (h : n + k ≤ m) :
    (BitVec.ofInt m z >>> k).setWidth n = BitVec.ofInt n (z / 2 ^ k) := by
  have hpos : ∀ i : ℕ, (0 : ℤ) < 2 ^ i := fun i => Int.pow_pos (by decide)
  have hm : (2 : ℤ) ^ m = 2 ^ k * 2 ^ (m - k) := by
    rw [← Int.pow_add, Nat.add_sub_cancel' (by omega)]
  have hn : (2 : ℤ) ^ n ∣ 2 ^ (m - k) := Dvd.intro (2 ^ (m - k - n)) (by
    rw [← Int.pow_add, Nat.add_sub_cancel' (by omega)])
  apply BitVec.eq_of_toNat_eq
  apply Int.ofNat_inj.mp
  rw [BitVec.toNat_setWidth, BitVec.toNat_ushiftRight, BitVec.toNat_ofInt, BitVec.toNat_ofInt,
    Nat.shiftRight_eq_div_pow]
  push_cast
  rw [Int.toNat_of_nonneg (Int.emod_nonneg _ (hpos m).ne'),
    Int.toNat_of_nonneg (Int.emod_nonneg _ (hpos n).ne'), hm,
    emod_mul_ediv z _ _ (hpos k), Int.emod_emod_of_dvd _ hn]

/-- The sign does not count if the upper part is cut off. -/
theorem setWidth_sshiftRight (x : BitVec m) (h : n + k ≤ m) :
    (x.sshiftRight k).setWidth n = (x >>> k).setWidth n := by
  apply BitVec.eq_of_getLsbD_eq
  intro i hi
  rw [BitVec.getLsbD_setWidth, BitVec.getLsbD_setWidth, BitVec.getLsbD_sshiftRight,
    BitVec.getLsbD_ushiftRight, if_pos (by omega)]
  simp [show ¬ m ≤ i by omega]

theorem toNat_append_eq (hi : BitVec w) (lo : BitVec n) :
    (hi ++ lo).toNat = 2 ^ n * hi.toNat + lo.toNat := by
  rw [BitVec.toNat_append, ← Nat.shiftLeft_add_eq_or_of_lt lo.isLt, Nat.shiftLeft_eq, Nat.mul_comm]

theorem append_eq_zero_iff (hi : BitVec w) (lo : BitVec n) :
    hi ++ lo = 0#(w + n) ↔ hi = 0 ∧ lo = 0 := by
  refine ⟨fun h => ?_, fun h => by rw [h.1, h.2]; exact BitVec.zero_append_zero⟩
  have hnat := congrArg BitVec.toNat h
  rw [toNat_append_eq, BitVec.toNat_zero, Nat.add_eq_zero_iff, Nat.mul_eq_zero] at hnat
  exact ⟨BitVec.eq_of_toNat_eq (hnat.1.resolve_left (Nat.two_pow_pos n).ne'),
    BitVec.eq_of_toNat_eq hnat.2⟩

/-- Two counters with a carry are one counter. -/
theorem carry_append (hi : BitVec w) (lo x : BitVec n) :
    (if lo + x < lo then hi + 1 else hi) ++ (lo + x) = (hi ++ lo) + x.setWidth (w + n) := by
  apply BitVec.eq_of_toNat_eq
  have hlo := lo.isLt
  have hx := x.isLt
  have hhi := hi.isLt
  have hpow : 2 ^ (w + n) = 2 ^ n * 2 ^ w := by rw [Nat.pow_add, Nat.mul_comm]
  have hle : 2 ^ n * (hi.toNat + 1) ≤ 2 ^ n * 2 ^ w := Nat.mul_le_mul_left _ hhi
  rw [Nat.mul_add_one] at hle
  rw [BitVec.toNat_add, BitVec.toNat_setWidth, toNat_append_eq, toNat_append_eq, hpow,
    Nat.mod_eq_of_lt (show x.toNat < 2 ^ n * 2 ^ w by omega)]
  simp only [BitVec.lt_def, BitVec.toNat_add]
  by_cases hover : lo.toNat + x.toNat < 2 ^ n
  · rw [Nat.mod_eq_of_lt hover, if_neg (by omega), Nat.mod_eq_of_lt (by omega)]
    omega
  · have hmod : (lo.toNat + x.toNat) % 2 ^ n = lo.toNat + x.toNat - 2 ^ n := by
      rw [Nat.mod_eq_sub_mod (by omega), Nat.mod_eq_of_lt (by omega)]
    have hone : (hi + 1).toNat = (hi.toNat + 1) % 2 ^ w := by
      rw [BitVec.toNat_add]
      exact Nat.add_mod_mod ..
    rw [hmod, if_pos (by omega), hone]
    by_cases hlast : hi.toNat + 1 < 2 ^ w
    · have hle' : 2 ^ n * (hi.toNat + 1 + 1) ≤ 2 ^ n * 2 ^ w := Nat.mul_le_mul_left _ hlast
      rw [Nat.mul_add_one, Nat.mul_add_one] at hle'
      rw [Nat.mod_eq_of_lt hlast, Nat.mod_eq_of_lt (by omega), Nat.mul_add_one]
      omega
    · have htop : hi.toNat + 1 = 2 ^ w := by omega
      have htop' : 2 ^ n * hi.toNat + 2 ^ n = 2 ^ n * 2 ^ w := by rw [← htop, Nat.mul_add_one]
      rw [htop, Nat.mod_self, Nat.mod_eq_sub_mod (by omega), Nat.mod_eq_of_lt (by omega)]
      omega

end Jyyos.Bits
