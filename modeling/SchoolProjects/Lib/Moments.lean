import Mathlib.Algebra.Order.BigOperators.Ring.Finset
import Mathlib.Analysis.SpecialFunctions.Complex.Arg

/-! Moments of a finite set of points: sums of products of coordinates about a point, how
they go along with a shift of the set, and the inequality between the mixed moment and the
two others. The moment of a set about an axis is a quadratic form in the sine and the cosine
of the angle of the axis; half the angle of a point of the plane makes it least. -/

namespace SchoolProjects.Moments

section Sums

variable {α R : Type*} [CommRing R] {s : Finset α} {x y : α → R} {dx dy : R}

/-- The product moment of two coordinates about the point `(cx, cy)`. -/
def product (s : Finset α) (x y : α → R) (cx cy : R) : R := ∑ p ∈ s, (x p - cx) * (y p - cy)

theorem sum_map_shift (e : α ↪ α) (hx : ∀ p, x (e p) = x p + dx) :
    ∑ p ∈ s.map e, x p = ∑ p ∈ s, x p + s.card * dx := by
  simp [Finset.sum_map, hx, Finset.sum_add_distrib]

/-- About a point that is shifted along a set has the same moments. -/
theorem product_map (e : α ↪ α) (hx : ∀ p, x (e p) = x p + dx) (hy : ∀ p, y (e p) = y p + dy)
    (cx cy : R) : product (s.map e) x y (cx + dx) (cy + dy) = product s x y cx cy := by
  simp [product, Finset.sum_map, hx, hy]

variable [LinearOrder R] [IsStrictOrderedRing R]

theorem product_self_nonneg (s : Finset α) (x : α → R) (c : R) : 0 ≤ product s x x c c :=
  Finset.sum_nonneg fun _ _ => mul_self_nonneg _

theorem product_sq_le (s : Finset α) (x y : α → R) (cx cy : R) :
    product s x y cx cy ^ 2 ≤ product s x x cx cx * product s y y cy cy := by
  simpa only [product, sq] using
    Finset.sum_mul_sq_le_sq_mul_sq s (fun p => x p - cx) (fun p => y p - cy)

end Sums

/-! ### The moment about an axis -/

section Form

variable {R : Type*} [CommRing R]

/-- The moment about the axis at the angle of sine `s` and cosine `t`. -/
def form (a b c s t : R) : R := a * s ^ 2 - b * s * t + c * t ^ 2

/-- The moments about two axes at a right angle. -/
theorem form_add_turn (a b c : R) {s t : R} (h : s ^ 2 + t ^ 2 = 1) :
    form a b c s t + form a b c t (-s) = a + c := by
  calc form a b c s t + form a b c t (-s) = (a + c) * (s ^ 2 + t ^ 2) := by
        unfold form
        ring
    _ = a + c := by rw [h, mul_one]

variable [LinearOrder R] [IsStrictOrderedRing R]

theorem form_nonneg {a b c : R} (ha : 0 ≤ a) (hc : 0 ≤ c) (hb : b ^ 2 ≤ 4 * a * c) (s t : R) :
    0 ≤ form a b c s t := by
  rcases ha.eq_or_lt with rfl | ha
  · have hzero : b = 0 := by
      have hle : b ^ 2 ≤ 0 := by simpa using hb
      exact pow_eq_zero_iff two_ne_zero |>.mp (le_antisymm hle (sq_nonneg b))
    have hform : form 0 b c s t = c * t ^ 2 := by simp [form, hzero]
    rw [hform]
    exact mul_nonneg hc (sq_nonneg t)
  · have hsquares : 4 * a * form a b c s t =
        (2 * a * s - b * t) ^ 2 + (4 * a * c - b ^ 2) * t ^ 2 := by
      unfold form
      ring
    have hnonneg : 0 ≤ 4 * a * form a b c s t := by
      rw [hsquares]
      exact add_nonneg (sq_nonneg _) (mul_nonneg (sub_nonneg.mpr hb) (sq_nonneg t))
    exact nonneg_of_mul_nonneg_right hnonneg (by positivity)

end Form

section Axis

variable {a b c s t : ℝ}

/-- An axis about which the moment is least. -/
def Least (a b c s t : ℝ) : Prop :=
  s ^ 2 + t ^ 2 = 1 ∧ ∀ u v : ℝ, u ^ 2 + v ^ 2 = 1 → form a b c s t ≤ form a b c u v

/-- No axis has a greater moment than `m`. -/
def Greatest (a b c m : ℝ) : Prop := ∀ u v : ℝ, u ^ 2 + v ^ 2 = 1 → form a b c u v ≤ m

/-- How far apart the greatest and the least moment are. -/
noncomputable def spread (a b c : ℝ) : ℝ := √((a - c) ^ 2 + b ^ 2)

theorem spread_sq (a b c : ℝ) : spread a b c ^ 2 = (a - c) ^ 2 + b ^ 2 :=
  Real.sq_sqrt (by positivity)

/-- The form in the sine and the cosine of twice the angle. -/
theorem form_eq (h : s ^ 2 + t ^ 2 = 1) : form a b c s t =
    (a + c) / 2 - ((a - c) * (t ^ 2 - s ^ 2) + b * (2 * s * t)) / 2 := by
  have hsum : (a + c) / 2 = (a + c) / 2 * (s ^ 2 + t ^ 2) := by rw [h, mul_one]
  rw [hsum]
  unfold form
  ring

theorem double_le_spread (h : s ^ 2 + t ^ 2 = 1) :
    (a - c) * (t ^ 2 - s ^ 2) + b * (2 * s * t) ≤ spread a b c := by
  apply Real.le_sqrt_of_sq_le
  have hunit : (t ^ 2 - s ^ 2) ^ 2 + (2 * s * t) ^ 2 = 1 := by
    calc (t ^ 2 - s ^ 2) ^ 2 + (2 * s * t) ^ 2 = (s ^ 2 + t ^ 2) ^ 2 := by ring
      _ = 1 := by rw [h, one_pow]
  have hsquare := sq_nonneg ((a - c) * (2 * s * t) - b * (t ^ 2 - s ^ 2))
  calc ((a - c) * (t ^ 2 - s ^ 2) + b * (2 * s * t)) ^ 2
      ≤ ((a - c) ^ 2 + b ^ 2) * ((t ^ 2 - s ^ 2) ^ 2 + (2 * s * t) ^ 2) := by linarith
    _ = (a - c) ^ 2 + b ^ 2 := by rw [hunit, mul_one]

/-- The angle of `atan2(b, a - c) / 2`. -/
noncomputable def angle (a b c : ℝ) : ℝ := Complex.arg ⟨a - c, b⟩ / 2

theorem form_angle (a b c : ℝ) :
    form a b c (Real.sin (angle a b c)) (Real.cos (angle a b c)) =
      (a + c) / 2 - spread a b c / 2 := by
  rw [form_eq (Real.sin_sq_add_cos_sq _)]
  have hcos : Real.cos (angle a b c) ^ 2 - Real.sin (angle a b c) ^ 2 =
      Real.cos (Complex.arg ⟨a - c, b⟩) := by
    rw [← Real.cos_two_mul', angle, mul_div_cancel₀ _ two_ne_zero]
  have hsin : 2 * Real.sin (angle a b c) * Real.cos (angle a b c) =
      Real.sin (Complex.arg ⟨a - c, b⟩) := by
    rw [← Real.sin_two_mul, angle, mul_div_cancel₀ _ two_ne_zero]
  have hnorm : ‖(⟨a - c, b⟩ : ℂ)‖ = spread a b c := by
    rw [Complex.norm_def, Complex.normSq_apply, spread]
    simp only [sq]
  rw [hcos, hsin]
  by_cases hz : (⟨a - c, b⟩ : ℂ) = 0
  · obtain ⟨hre, him⟩ := Complex.ext_iff.mp hz
    simp only [Complex.zero_re, Complex.zero_im] at hre him
    simp [spread, hre, him]
  · rw [Complex.cos_arg hz, Complex.sin_arg, hnorm]
    have hpos : spread a b c ≠ 0 := by
      rw [← hnorm]
      exact norm_ne_zero_iff.mpr hz
    have hsum : (a - c) * ((a - c) / spread a b c) + b * (b / spread a b c) = spread a b c := by
      rw [← mul_div_assoc, ← mul_div_assoc, ← add_div, div_eq_iff hpos, ← sq, ← sq, ← sq,
        spread_sq]
    rw [hsum]

/-- The angle makes the moment least. -/
theorem least_angle (a b c : ℝ) :
    Least a b c (Real.sin (angle a b c)) (Real.cos (angle a b c)) := by
  refine ⟨Real.sin_sq_add_cos_sq _, fun u v huv => ?_⟩
  rw [form_angle, form_eq huv]
  linarith [double_le_spread (a := a) (b := b) (c := c) huv]

theorem Least.form_eq (h : Least a b c s t) : form a b c s t = (a + c) / 2 - spread a b c / 2 := by
  have hle := h.2 _ _ (least_angle a b c).1
  have hge := (least_angle a b c).2 s t h.1
  rw [form_angle] at hle hge
  exact le_antisymm hle hge

/-- The moment is greatest at a right angle to an axis about which it is least. -/
theorem Least.greatest_iff (h : Least a b c s t) {u v : ℝ} (huv : u ^ 2 + v ^ 2 = 1) :
    Greatest a b c (form a b c u v) ↔ form a b c u v = (a + c) / 2 + spread a b c / 2 := by
  have hright : form a b c t (-s) = (a + c) / 2 + spread a b c / 2 := by
    linarith [form_add_turn a b c h.1, h.form_eq]
  have hbound : Greatest a b c ((a + c) / 2 + spread a b c / 2) := by
    intro u v huv
    have hle := (least_angle a b c).2 v (-u) (by rw [neg_sq, add_comm]; exact huv)
    rw [form_angle] at hle
    linarith [form_add_turn a b c huv]
  constructor
  · intro hgreat
    exact le_antisymm (hbound u v huv)
      (hright ▸ hgreat t (-s) (by rw [neg_sq, add_comm]; exact h.1))
  · intro heq
    rw [heq]
    exact hbound

/-- The moment about the axis at the negative angle is greatest only where the two moments
of the coordinates are equal. -/
theorem Least.greatest_neg_iff (h : Least a b c s t) :
    Greatest a b c (form a b c (-s) t) ↔ a = c := by
  have hneg : (-s) ^ 2 + t ^ 2 = 1 := by rw [neg_sq]; exact h.1
  have hleast := h.form_eq
  rw [Moments.form_eq h.1] at hleast
  rw [h.greatest_iff hneg, Moments.form_eq hneg]
  constructor
  · intro heq
    have hprod : (a - c) * (t ^ 2 - s ^ 2) = 0 := by linarith
    rcases mul_eq_zero.mp hprod with hac | hst
    · linarith
    · have hspread : b * (2 * s * t) = spread a b c := by linarith
      have hunit : (2 * s * t) ^ 2 = 1 := by
        have hs : s ^ 2 = 1 / 2 := by linarith [h.1]
        have ht : t ^ 2 = 1 / 2 := by linarith [h.1]
        calc (2 * s * t) ^ 2 = 4 * s ^ 2 * t ^ 2 := by ring
          _ = 1 := by rw [hs, ht]; norm_num
      have hsq : (a - c) ^ 2 = 0 := by
        have := spread_sq a b c
        rw [← hspread, mul_pow, hunit, mul_one] at this
        linarith
      linarith [pow_eq_zero_iff two_ne_zero |>.mp hsq]
  · rintro rfl
    linarith

end Axis

end SchoolProjects.Moments
