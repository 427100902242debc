import Mathlib.Logic.Function.Basic
import Mathlib.Data.Int.Init
import Mathlib.Tactic.Common

/-!
# A stack in an array

A stack is kept in an array `arr` with the index `top` of its last element, `-1` when it is empty.
Popping leaves the element in the array.  `OnTop arr top below h x`: the element on top is `x` and
stands at index `h`, and the elements under it are those of `below`.  `Popped arr top below h`: what
stood at index `h` has been popped.

The lemmas say how these change with a write to the array and with a change of `top`.  Below a call
the elements are arbitrary, so what is proved of a call holds on any stack.
-/

namespace Jyyos.ArrayStack

variable {F : Type*}

/-- `x` is on top, at index `h`. -/
structure OnTop (arr : ℕ → F) (top : ℤ) (below : ℕ → F) (h : ℕ) (x : F) : Prop where
  top_eq : top = h
  get_top : arr h = x
  get_below : ∀ i < h, arr i = below i

/-- What stood at index `h` has been popped. -/
structure Popped (arr : ℕ → F) (top : ℤ) (below : ℕ → F) (h : ℕ) : Prop where
  top_eq : top = h - 1
  get_below : ∀ i < h, arr i = below i

variable {arr below : ℕ → F} {top : ℤ} {h : ℕ} {x y : F}

namespace OnTop

theorem nonneg (hs : OnTop arr top below h x) : 0 ≤ top := by
  rw [hs.top_eq]
  omega

theorem toNat_top (hs : OnTop arr top below h x) : top.toNat = h := by
  rw [hs.top_eq]
  omega

theorem toNat_succ (hs : OnTop arr top below h x) : (top + 1).toNat = h + 1 := by
  rw [hs.top_eq]
  omega

/-- Write to the element on top. -/
theorem set (hs : OnTop arr top below h x) (y : F) :
    OnTop (Function.update arr h y) top below h y where
  top_eq := hs.top_eq
  get_top := Function.update_self ..
  get_below i hi := by rw [Function.update_of_ne (by omega), hs.get_below i hi]

theorem push (hs : OnTop arr top below h x) (y : F) :
    OnTop (Function.update arr (h + 1) y) (top + 1) (Function.update below h x) (h + 1) y where
  top_eq := by rw [hs.top_eq]; omega
  get_top := Function.update_self ..
  get_below i hi := by
    rw [Function.update_of_ne (by omega)]
    by_cases hih : i = h
    · rw [hih, Function.update_self, hs.get_top]
    · rw [Function.update_of_ne hih, hs.get_below i (by omega)]

/-- Write to the element under the one on top. -/
theorem set_under (hs : OnTop arr top (Function.update below h x) (h + 1) y) (x' : F) :
    OnTop (Function.update arr h x') top (Function.update below h x') (h + 1) y where
  top_eq := hs.top_eq
  get_top := by rw [Function.update_of_ne (by omega), hs.get_top]
  get_below i hi := by
    by_cases hih : i = h
    · rw [hih, Function.update_self, Function.update_self]
    · rw [Function.update_of_ne hih, Function.update_of_ne hih, hs.get_below i hi,
        Function.update_of_ne hih]

theorem pop (hs : OnTop arr top below h x) : Popped arr (top - 1) below h where
  top_eq := by rw [hs.top_eq]
  get_below := hs.get_below

/-- The only element of a stack. -/
theorem singleton (arr below : ℕ → F) (x : F) : OnTop (Function.update arr 0 x) 0 below 0 x where
  top_eq := rfl
  get_top := Function.update_self ..
  get_below i hi := absurd hi (Nat.not_lt_zero i)

end OnTop

/-- Writing to what has been popped changes nothing under it. -/
theorem Popped.set (hs : Popped arr top below h) (y : F) :
    Popped (Function.update arr h y) top below h where
  top_eq := hs.top_eq
  get_below i hi := by rw [Function.update_of_ne (by omega), hs.get_below i hi]

/-- What was under the popped element is on top. -/
theorem Popped.onTop (hs : Popped arr top (Function.update below h x) (h + 1)) :
    OnTop arr top below h x where
  top_eq := by rw [hs.top_eq]; omega
  get_top := by rw [hs.get_below h (by omega), Function.update_self]
  get_below i hi := by rw [hs.get_below i (by omega), Function.update_of_ne (by omega)]

end Jyyos.ArrayStack
