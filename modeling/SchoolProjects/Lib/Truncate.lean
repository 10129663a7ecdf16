import Mathlib.Algebra.Order.Floor.Ring
import Mathlib.Data.Nat.Sqrt
import Mathlib.Tactic

/-! Conversion of a floating point number to an integer, which cuts off towards zero, on
exact numbers, and the integer part of the length of a diagonal. -/

namespace SchoolProjects

section Trunc

variable {K : Type*} [Field K] [LinearOrder K] [FloorRing K]

/-- `(int)x`. -/
def trunc (x : K) : ℤ := if 0 ≤ x then ⌊x⌋ else ⌈x⌉

theorem trunc_of_nonneg {x : K} (h : 0 ≤ x) : trunc x = ⌊x⌋ := if_pos h

theorem trunc_nonneg {x : K} (h : 0 ≤ x) : 0 ≤ trunc x := by
  rw [trunc_of_nonneg h]
  exact Int.floor_nonneg.mpr h

theorem trunc_lt_iff {x : K} (h : 0 ≤ x) {z : ℤ} : trunc x < z ↔ x < z := by
  rw [trunc_of_nonneg h, Int.floor_lt]

theorem le_trunc_iff {x : K} (h : 0 ≤ x) {z : ℤ} : z ≤ trunc x ↔ (z : K) ≤ x := by
  rw [trunc_of_nonneg h, Int.le_floor]

variable [IsStrictOrderedRing K]

@[simp] theorem trunc_zero : trunc (0 : K) = 0 := by simp [trunc]

/-- Cutting off does not lead away from zero. -/
theorem natAbs_trunc_le (x : K) : ((trunc x).natAbs : K) ≤ |x| := by
  rw [Nat.cast_natAbs, Int.cast_abs, trunc]
  split_ifs with h
  · have hfloor : (0 : K) ≤ ⌊x⌋ := by exact_mod_cast Int.floor_nonneg.mpr h
    rw [abs_of_nonneg hfloor, abs_of_nonneg h]
    exact Int.floor_le x
  · have hx : x < 0 := not_le.mp h
    have hceil : (⌈x⌉ : K) ≤ 0 := by exact_mod_cast Int.ceil_le.mpr (by simpa using hx.le)
    rw [abs_of_nonpos hceil, abs_of_neg hx]
    exact neg_le_neg (Int.le_ceil x)

/-- Along a turned axis a point is at most as far out as it is from the origin. -/
theorem natAbs_trunc_sq_le {c s : K} (h : c ^ 2 + s ^ 2 = 1) (i j : ℕ) :
    (trunc (i * c + j * s)).natAbs ^ 2 ≤ i ^ 2 + j ^ 2 := by
  have hturn : (i * c + j * s) ^ 2 + (i * s - j * c) ^ 2 = (i : K) ^ 2 + (j : K) ^ 2 := by
    calc (i * c + j * s) ^ 2 + (i * s - j * c) ^ 2
        = ((i : K) ^ 2 + (j : K) ^ 2) * (c ^ 2 + s ^ 2) := by ring
      _ = (i : K) ^ 2 + (j : K) ^ 2 := by rw [h, mul_one]
  have hsq : ((trunc (i * c + j * s)).natAbs : K) ^ 2 ≤ (i * c + j * s) ^ 2 := by
    rw [← sq_abs (i * c + j * s)]
    exact pow_le_pow_left₀ (Nat.cast_nonneg _) (natAbs_trunc_le _) 2
  have hle : ((trunc (i * c + j * s)).natAbs : K) ^ 2 ≤ (i : K) ^ 2 + (j : K) ^ 2 := by
    have := sq_nonneg ((i : K) * s - j * c)
    linarith
  exact_mod_cast hle

end Trunc

/-- Of a rectangle that is longer by one on both sides the diagonal is longer by one. -/
theorem sqrt_add_sq_lt (a b : ℕ) :
    Nat.sqrt (a ^ 2 + b ^ 2) < Nat.sqrt ((a + 1) ^ 2 + (b + 1) ^ 2) := by
  have hle : Nat.sqrt (a ^ 2 + b ^ 2) ^ 2 ≤ a ^ 2 + b ^ 2 := Nat.sqrt_le' _
  have hsides : Nat.sqrt (a ^ 2 + b ^ 2) ≤ a + b := by
    rw [← Nat.sqrt_eq' (a + b)]
    exact Nat.sqrt_le_sqrt (Nat.le.intro (by ring : a ^ 2 + b ^ 2 + 2 * (a * b) = (a + b) ^ 2))
  apply Nat.le_sqrt'.mpr
  nlinarith

end SchoolProjects
