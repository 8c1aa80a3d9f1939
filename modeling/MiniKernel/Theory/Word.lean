/-
# Theory.Word -- unsigned 32-bit arithmetic on natural numbers

Addresses and sizes are natural numbers below `2 ^ 32`.  `add32` and `sub32`
wrap exactly as C's unsigned operators do; `add32_eq` and `sub32_eq` turn them
into plain `+` and `-` once a bound rules the wrap out, so a proof pays for the
wrap-around at one place only.  `int32` is the two's-complement reading of a
word, `pageMask` the rounding mask of 4 KiB pages.
-/
import Mathlib.Data.Nat.Bitwise

namespace MiniKernel.Theory

set_option autoImplicit false

/-- Unsigned 32-bit addition. -/
def add32 (a b : Nat) : Nat := (a + b) % 4294967296

/-- Unsigned 32-bit subtraction of words. -/
def sub32 (a b : Nat) : Nat := (a + 4294967296 - b) % 4294967296

/-- A word reinterpreted as a signed 32-bit integer. -/
def int32 (a : Nat) : Int := if a < 2147483648 then a else (a : Int) - 4294967296

theorem add32_lt (a b : Nat) : add32 a b < 4294967296 := by
  unfold add32; omega

theorem add32_eq {a b : Nat} (fits : a + b < 4294967296) : add32 a b = a + b := by
  unfold add32; omega

theorem sub32_eq {a b : Nat} (le : b ≤ a) (fits : a < 4294967296) : sub32 a b = a - b := by
  unfold sub32; omega

/-- A difference reads as negative when the second word is at most `2 ^ 31` above the first, or
at least `2 ^ 31` below it. -/
theorem int32_sub32_neg {x y : Nat} (hx : x < 4294967296) (hy : y < 4294967296) :
    int32 (sub32 x y) < 0 ↔
      x < y ∧ y - x ≤ 2147483648 ∨ y ≤ x ∧ 2147483648 ≤ x - y := by
  unfold int32 sub32
  split <;> omega

theorem int32_sub32_pos {x y : Nat} (hx : x < 4294967296) (hy : y < 4294967296) :
    0 < int32 (sub32 x y) ↔
      y < x ∧ x - y < 2147483648 ∨ x < y ∧ 2147483648 < y - x := by
  unfold int32 sub32
  split <;> omega

/-! ## Page masks -/

/-- `0xFFFFF000`, the mask that clears the offset within a page. -/
def pageMask : Nat := 0xFFFFF000

theorem land_pageMask {a : Nat} (fits : a < 4294967296) :
    a &&& pageMask = a / 0x1000 * 0x1000 := by
  have mask : pageMask = (2 ^ 20 - 1) * 2 ^ 12 := by decide
  have split : a = a / 2 ^ 12 * 2 ^ 12 + a % 2 ^ 12 := by omega
  apply Nat.eq_of_testBit_eq
  intro i
  rw [Nat.testBit_and, mask, show (0x1000 : Nat) = 2 ^ 12 by decide]
  simp only [Nat.testBit_mul_two_pow, Nat.testBit_div_two_pow, Nat.testBit_two_pow_sub_one]
  by_cases low : 12 ≤ i
  · by_cases high : i < 32
    · have width : i - 12 < 20 := by omega
      simp [low, width]
    · have zero : a.testBit i = false :=
        Nat.testBit_lt_two_pow (lt_of_lt_of_le fits (Nat.pow_le_pow_right (n := 2) (by decide)
          (by omega : 32 ≤ i)))
      simp [zero, low]
  · simp [low]

theorem land_pageMask_eq_zero {a : Nat} (fits : a < 4294967296) :
    a &&& pageMask = 0 ↔ a < 0x1000 := by
  rw [land_pageMask fits]; omega

theorem land_pageOffset (a : Nat) : a &&& 0xFFF = a % 0x1000 :=
  Nat.and_two_pow_sub_one_eq_mod a 12

/-- Round up to the next page boundary, the way `init_heap` and `expand` write
it: a value that already is a page multiple moves to the following one. -/
def pageAlign (a : Nat) : Nat :=
  if a &&& pageMask ≠ 0 then add32 (a &&& pageMask) 0x1000 else a

theorem pageAlign_eq {a : Nat} (big : 0x1000 ≤ a) (fits : a / 0x1000 * 0x1000 + 0x1000 < 4294967296) :
    pageAlign a = a / 0x1000 * 0x1000 + 0x1000 := by
  have small : a < 4294967296 := by omega
  have nonzero : a &&& pageMask ≠ 0 := by
    rw [Ne, land_pageMask_eq_zero small]; omega
  rw [pageAlign, if_pos nonzero, land_pageMask small, add32_eq fits]

/-- In the last page the rounding wraps around. -/
theorem pageAlign_wraps {a : Nat} (fits : a < 4294967296)
    (wraps : 4294967296 ≤ a / 0x1000 * 0x1000 + 0x1000) : pageAlign a = 0 := by
  have nonzero : a &&& pageMask ≠ 0 := by
    rw [Ne, land_pageMask_eq_zero fits]; omega
  rw [pageAlign, if_pos nonzero, land_pageMask fits]
  unfold add32
  omega

end MiniKernel.Theory
