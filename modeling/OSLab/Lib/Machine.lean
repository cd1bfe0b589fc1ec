import Mathlib.Algebra.Group.Int.Defs
import Mathlib.Algebra.Group.Nat.Defs
import Mathlib.Tactic.Common

/-!
# Conversions to the integer types of C

Arithmetic is done on `ℤ`; where a value is stored in (or computed at) a fixed-width
type it is reduced to that type, signed types in two's complement. `_of_lt`: a value in
range is not changed.
-/

namespace OSLab

/-- Conversion to `int`. -/
def toInt32 (x : ℤ) : ℤ := x.bmod (2 ^ 32)

/-- Conversion to `off_t`. -/
def toInt64 (x : ℤ) : ℤ := x.bmod (2 ^ 64)

/-- Conversion to `size_t` and `unsigned long`. -/
def toSize (x : ℤ) : ℤ := x % 2 ^ 64

theorem toInt32_of_lt {x : ℤ} (h0 : -2 ^ 31 ≤ x) (h1 : x < 2 ^ 31) : toInt32 x = x := by
  unfold toInt32
  rw [Int.bmod_eq_of_le] <;> omega

theorem toInt64_of_lt {x : ℤ} (h0 : -2 ^ 63 ≤ x) (h1 : x < 2 ^ 63) : toInt64 x = x := by
  unfold toInt64
  rw [Int.bmod_eq_of_le] <;> omega

theorem toSize_of_lt {x : ℤ} (h0 : 0 ≤ x) (h1 : x < 2 ^ 64) : toSize x = x :=
  Int.emod_eq_of_lt h0 h1

theorem toInt32_le {x : ℤ} (h : -2 ^ 31 ≤ x) : toInt32 x ≤ x := by
  unfold toInt32
  rw [Int.bmod_def]
  split <;> omega

theorem toInt32_add {x y k : ℤ} (hx : toInt32 x = y) (hk : 0 ≤ k) (hy : 0 ≤ y)
    (h : y + k < 2 ^ 31) : toInt32 (x + k) = y + k := by
  rw [← toInt32_of_lt (x := y + k) (by omega) h, ← hx]
  unfold toInt32
  rw [Int.bmod_add_bmod]

theorem toInt32_lt (x : ℤ) : toInt32 x < 2 ^ 31 := by
  unfold toInt32
  rw [Int.bmod_def]
  split <;> omega

/-- Counting in an `int`. -/
theorem toInt32_succ (x : ℤ) : toInt32 (toInt32 x + 1) = toInt32 (x + 1) := by
  unfold toInt32
  rw [Int.bmod_add_bmod]

/-- Past the largest `int`, up to twice its range, the value wraps to a negative one. -/
theorem toInt32_wrap {x : ℤ} (h0 : 2 ^ 31 ≤ x) (h1 : x < 2 ^ 32) : toInt32 x = x - 2 ^ 32 := by
  unfold toInt32
  rw [Int.bmod_def]
  split <;> omega

end OSLab
