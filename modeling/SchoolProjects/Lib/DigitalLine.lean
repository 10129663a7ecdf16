import Mathlib.Tactic

/-! Digital lines. After `k` steps along the longer side of a slope of `rise` in `run` the
line is at the integer nearest to `rise * k / run`, the smaller one of two that are equally
near. That integer is known by its distance, which gives the step rule of a decision
variable in both directions. -/

namespace SchoolProjects.DigitalLine

variable {run rise k l m : ℤ}

/-- The coordinate along the shorter side after `k` steps. -/
def minor (run rise k : ℤ) : ℤ := (2 * rise * k + run - 1) / (2 * run)

/-- `m` is at most half a unit away from the line after `k` steps, and less than that
above it. -/
def Near (run rise k m : ℤ) : Prop :=
  -run < 2 * (rise * k - run * m) ∧ 2 * (rise * k - run * m) ≤ run

theorem near_minor (hrun : 0 < run) (rise k : ℤ) : Near run rise k (minor run rise k) := by
  have hlow := Int.mul_ediv_self_le (x := 2 * rise * k + run - 1) (k := 2 * run) (by omega)
  have hhigh := Int.lt_mul_ediv_self_add (x := 2 * rise * k + run - 1) (k := 2 * run) (by omega)
  have hcomm : 2 * (rise * k - run * minor run rise k) =
      2 * rise * k - 2 * run * ((2 * rise * k + run - 1) / (2 * run)) := by
    rw [minor]
    ring
  rw [Near, hcomm]
  omega

/-- Only one integer is that near. -/
theorem Near.unique {m' : ℤ} (hrun : 0 < run) (h : Near run rise k m) (h' : Near run rise k m') :
    m = m' := by
  have hupper : run * (m - m') < run * 1 := by linarith [h.1, h'.2]
  have hlower : run * (-1) < run * (m - m') := by linarith [h.2, h'.1]
  have h1 := lt_of_mul_lt_mul_left hupper hrun.le
  have h2 := lt_of_mul_lt_mul_left hlower hrun.le
  omega

theorem Near.eq_minor (hrun : 0 < run) (h : Near run rise k m) : minor run rise k = m :=
  (near_minor hrun rise k).unique hrun h

theorem minor_zero (hrun : 0 ≤ run) : minor run rise 0 = 0 := by
  rcases hrun.eq_or_lt with rfl | hrun
  · simp [minor]
  · apply Near.eq_minor hrun
    constructor
    · simpa using hrun
    · simpa using hrun.le

theorem minor_run (h : |rise| ≤ run) : minor run rise run = rise := by
  rcases ((abs_nonneg rise).trans h).eq_or_lt with rfl | hrun
  · have hrise : rise = 0 := abs_nonpos_iff.mp h
    simp [minor, hrise]
  · apply Near.eq_minor hrun
    rw [Near, mul_comm run rise, sub_self]
    omega

/-! ### The step rule -/

/-- A rising line goes up if and only if the middle between the two next points is below
it. -/
theorem minor_succ_of_nonneg (h0 : 0 ≤ rise) (hrun : rise ≤ run) (hpos : 0 < run) (k : ℤ) :
    minor run rise (k + 1) =
      if 2 * rise * (k + 1) - 2 * run * minor run rise k - run ≤ 0 then minor run rise k
      else minor run rise k + 1 := by
  obtain ⟨hlow, hhigh⟩ := near_minor hpos rise k
  split_ifs with hd
  · exact Near.eq_minor hpos ⟨by linarith, by linarith⟩
  · exact Near.eq_minor hpos ⟨by linarith, by linarith⟩

/-- A falling line goes down if and only if the middle between the two next points is not
below it. -/
theorem minor_succ_of_neg (h0 : rise < 0) (hrun : -run ≤ rise) (k : ℤ) :
    minor run rise (k + 1) =
      if 2 * rise * (k + 1) - 2 * run * minor run rise k + run ≤ 0 then minor run rise k - 1
      else minor run rise k := by
  have hpos : 0 < run := by omega
  obtain ⟨hlow, hhigh⟩ := near_minor hpos rise k
  split_ifs with hd
  · exact Near.eq_minor hpos ⟨by linarith, by linarith⟩
  · exact Near.eq_minor hpos ⟨by linarith, by linarith⟩

/-! ### The points -/

theorem minor_le_minor (hrun : 0 ≤ run) (h : rise * k ≤ rise * l) :
    minor run rise k ≤ minor run rise l := by
  rcases hrun.eq_or_lt with rfl | hrun
  · simp [minor]
  · exact Int.ediv_le_ediv (by omega) (by linarith)

/-- Up to a later point the line stays between that point and the start. -/
theorem minor_mem_uIcc (hrun : 0 ≤ run) (hk : 0 ≤ k) (hkl : k ≤ l) :
    minor run rise k ∈ Set.uIcc 0 (minor run rise l) := by
  have hzero : minor run rise 0 = 0 := minor_zero hrun
  rcases le_total 0 rise with hrise | hrise
  · have h1 := minor_le_minor hrun (mul_le_mul_of_nonneg_left hk hrise)
    have h2 := minor_le_minor hrun (mul_le_mul_of_nonneg_left hkl hrise)
    rw [hzero] at h1
    exact Set.mem_uIcc_of_le h1 h2
  · have h1 := minor_le_minor hrun (mul_le_mul_of_nonpos_left hk hrise)
    have h2 := minor_le_minor hrun (mul_le_mul_of_nonpos_left hkl hrise)
    rw [hzero] at h1
    exact Set.mem_uIcc_of_ge h2 h1

end SchoolProjects.DigitalLine
