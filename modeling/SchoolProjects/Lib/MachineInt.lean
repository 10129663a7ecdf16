import Mathlib.Tactic

/-! The 32-bit `int` and `unsigned int` of the C and C++ sources. A conversion
reduces modulo `2 ^ 32`; sums that leave the range of `int` are taken modulo
`2 ^ 32` as well, as two's complement hardware does. -/

namespace SchoolProjects

/-- Conversion to `int`: the representative in `[-2 ^ 31, 2 ^ 31)`. -/
def int32 (z : ℤ) : ℤ := z.bmod (2 ^ 32)

/-- Conversion to `unsigned int`: the representative in `[0, 2 ^ 32)`. -/
def uint32 (z : ℤ) : ℕ := (z % 2 ^ 32).toNat

theorem uint32_of_range {z : ℤ} (h0 : 0 ≤ z) (h1 : z < 2 ^ 32) : (uint32 z : ℤ) = z := by
  unfold uint32; omega

@[simp] theorem uint32_natCast {n : ℕ} (h : n < 2 ^ 32) : uint32 n = n := by
  unfold uint32; omega

theorem int32_of_range {z : ℤ} (h0 : -2 ^ 31 ≤ z) (h1 : z < 2 ^ 31) : int32 z = z := by
  unfold int32
  rw [Int.bmod_def]
  split_ifs <;> omega

/-- A number that an `int` can hold. -/
def IsInt (z : ℤ) : Prop := -2 ^ 31 ≤ z ∧ z < 2 ^ 31

instance (z : ℤ) : Decidable (IsInt z) := inferInstanceAs (Decidable (_ ∧ _))

theorem IsInt.int32_eq {z : ℤ} (h : IsInt z) : int32 z = z := int32_of_range h.1 h.2

theorem isInt_int32 (z : ℤ) : IsInt (int32 z) := by
  unfold IsInt int32
  rw [Int.bmod_def]
  split_ifs <;> omega

/-- `int32 z` differs from `z` by a multiple of `2 ^ 32`. -/
theorem int32_eq (z : ℤ) : ∃ k : ℤ, int32 z = z + 2 ^ 32 * k := by
  unfold int32
  rw [Int.bmod_def]
  split_ifs
  · exact ⟨-(z / 2 ^ 32), by omega⟩
  · exact ⟨-(z / 2 ^ 32) - 1, by omega⟩

/-- Reducing a summand to `int` first does not change an `unsigned` result. -/
theorem uint32_add_int32 (z w : ℤ) : uint32 (int32 z + w) = uint32 (z + w) := by
  obtain ⟨k, hk⟩ := int32_eq z
  unfold uint32; omega

theorem uint32_int32 (z : ℤ) : uint32 (int32 z) = uint32 z := by
  simpa using uint32_add_int32 z 0

/-- Reducing a summand first does not change a sum. -/
theorem int32_add_int32 (z w : ℤ) : int32 (int32 z + w) = int32 (z + w) := by
  simp [int32]

theorem int32_add_two (z w : ℤ) : int32 (int32 z + int32 w) = int32 (z + w) := by
  rw [int32_add_int32, add_comm, int32_add_int32, add_comm]

/-- Sums that are reduced to `int` at every step. -/
theorem foldl_int32 {ι : Type*} (step : ℤ → ι → ℤ) (G : ι → ℤ)
    (hstep : ∀ z x, step (int32 z) x = int32 (z + G x)) (l : List ι) (z : ℤ) :
    l.foldl step (int32 z) = int32 (z + (l.map G).sum) := by
  induction l generalizing z with
  | nil => simp
  | cons x l ih => rw [List.foldl_cons, hstep, ih, List.map_cons, List.sum_cons, add_assoc]

theorem int32_eq_iff {z w : ℤ} : int32 z = w ↔ 2 ^ 32 ∣ w - z ∧ -2 ^ 31 ≤ w ∧ w < 2 ^ 31 := by
  unfold int32
  rw [Int.bmod_def]
  split_ifs <;> omega

theorem int32_eq_zero {z : ℤ} : int32 z = 0 ↔ 2 ^ 32 ∣ z := by
  rw [int32_eq_iff]
  omega

/-- Only `0` of the `unsigned` range converts to the `int` zero. -/
theorem int32_natCast_eq_zero {n : ℕ} (h : n < 2 ^ 32) : int32 n = 0 ↔ n = 0 := by
  obtain ⟨k, hk⟩ := int32_eq n
  constructor
  · intro h0; omega
  · rintro rfl; rfl

end SchoolProjects
