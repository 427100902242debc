import Mathlib.Data.Nat.Notation
import Mathlib.Tactic.Common
import Mathlib.Algebra.Group.Nat.Defs

/-!
# Records in memory

Numbers as bytes in little-endian order, and arrays of records that all have the same number of
bytes.
-/

namespace Jyyos.Bytes

/-- The last `w` bytes of a number, the lowest first. -/
def littleEndian : ℕ → ℕ → List UInt8
  | 0, _ => []
  | w + 1, n => UInt8.ofNat n :: littleEndian w (n / 256)

/-- The number with the given bytes. -/
def ofLittleEndian : List UInt8 → ℕ
  | [] => 0
  | b :: bs => b.toNat + 256 * ofLittleEndian bs

@[simp]
theorem length_littleEndian (w n : ℕ) : (littleEndian w n).length = w := by
  induction w generalizing n with
  | zero => rfl
  | succ w ih => rw [littleEndian, List.length_cons, ih]

theorem ofLittleEndian_littleEndian {w n : ℕ} (h : n < 256 ^ w) :
    ofLittleEndian (littleEndian w n) = n := by
  induction w generalizing n with
  | zero =>
    rw [Nat.pow_zero] at h
    rw [littleEndian, ofLittleEndian]
    omega
  | succ w ih =>
    rw [Nat.pow_succ] at h
    rw [littleEndian, ofLittleEndian, ih (by omega), UInt8.toNat_ofNat']
    omega

variable {α β : Type*}

/-- The record at an index of an array of records of `k` entries each. -/
theorem take_drop_flatMap {f : α → List β} {k : ℕ} (hf : ∀ a, (f a).length = k) :
    ∀ (l : List α) {i : ℕ} {a : α}, l[i]? = some a →
    ((l.flatMap f).drop (i * k)).take k = f a := by
  intro l
  induction l with
  | nil => simp
  | cons b l ih =>
    intro i a h
    cases i with
    | zero =>
      obtain rfl := Option.some.inj h
      rw [Nat.zero_mul, List.drop_zero, List.flatMap_cons, List.take_left' (hf b)]
    | succ i =>
      rw [List.getElem?_cons_succ] at h
      rw [List.flatMap_cons, Nat.succ_mul, Nat.add_comm, ← List.drop_drop, List.drop_left' (hf b)]
      exact ih h

theorem length_flatMap_of_forall {f : α → List β} {k : ℕ} (hf : ∀ a, (f a).length = k)
    (l : List α) : (l.flatMap f).length = l.length * k := by
  induction l with
  | nil => simp
  | cons a l ih => rw [List.flatMap_cons, List.length_append, ih, hf, List.length_cons,
      Nat.succ_mul, Nat.add_comm]

end Jyyos.Bytes
