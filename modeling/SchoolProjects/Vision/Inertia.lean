import SchoolProjects.Vision.Objects

/-! The axis of an object (`findSecondMoment` of the second homework), with exact reals. The
angle makes the moment least; the moment at the negative angle, which is stored as the
greatest, is not that unless the moments of the two coordinates are equal. -/

namespace SchoolProjects.Vision

open Moments

/-- The fields of `struct objData` that `findSecondMoment` fills. -/
structure Axis where
  theta : ℝ
  thetaneg : ℝ
  E : ℝ
  Emax : ℝ
  roundness : ℝ

namespace Object

/-- The moment of an object about the axis at an angle. -/
noncomputable def momentAt (obj : Object) (theta : ℝ) : ℝ :=
  form obj.a obj.b obj.c (Real.sin theta) (Real.cos theta)

/-- The body of the loop of `findSecondMoment`; `theta` is that of `atan2`. -/
noncomputable def findSecondMoment (obj : Object) : Axis :=
  let theta := angle obj.a obj.b obj.c
  let thetaneg := theta * -1
  { theta := theta
    thetaneg := thetaneg
    E := obj.momentAt theta
    Emax := obj.momentAt thetaneg
    roundness := obj.momentAt theta / obj.momentAt thetaneg }

theorem momentAt_neg (obj : Object) (theta : ℝ) : obj.momentAt (theta * -1) =
    form (obj.a : ℝ) obj.b obj.c (-Real.sin theta) (Real.cos theta) := by
  rw [momentAt, mul_neg_one, Real.sin_neg, Real.cos_neg]

/-- The angle of `findSecondMoment` is one about which the moment is least. -/
theorem least_theta (obj : Object) : Least obj.a obj.b obj.c
    (Real.sin obj.findSecondMoment.theta) (Real.cos obj.findSecondMoment.theta) :=
  least_angle obj.a obj.b obj.c

/-- The moment at the negative of an angle about which the moment is least, and so the one
that is stored, is the greatest if and only if the moments of the two coordinates are
equal. -/
theorem greatest_iff_moments_eq (obj : Object) {s t : ℝ} (h : Least obj.a obj.b obj.c s t) :
    (Greatest obj.a obj.b obj.c (form obj.a obj.b obj.c (-s) t) ↔ obj.a = obj.c) ∧
      (Greatest obj.a obj.b obj.c obj.findSecondMoment.Emax ↔ obj.a = obj.c) := by
  have hany := h.greatest_neg_iff
  have hstored := obj.least_theta.greatest_neg_iff
  rw [← momentAt_neg] at hstored
  rw [Int.cast_inj] at hany hstored
  exact ⟨hany, hstored⟩

/-- An object with the moments of a circle. -/
def circle : Object := { label := 1, centerRow := 0, centerCol := 0, a := 1, c := 1 }

theorem greatest_circle :
    (Greatest circle.a circle.b circle.c (form circle.a circle.b circle.c (-0) 1) ↔
      circle.a = circle.c) ∧
    (Greatest circle.a circle.b circle.c circle.findSecondMoment.Emax ↔ circle.a = circle.c) := by
  refine greatest_iff_moments_eq circle ⟨by norm_num, fun u v huv => ?_⟩
  simp only [form, circle]
  push_cast
  linarith

end Object

/-- Two pixels side by side have no moment about the axis through both, at either angle. -/
theorem emax_not_greatest : ¬ ∀ (im : Image) (v : ℤ) (o : Object), im.measure v = some o →
    ∀ s t : ℝ, Least o.a o.b o.c s t → Greatest o.a o.b o.c (form o.a o.b o.c (-s) t) := by
  intro h
  obtain ⟨o, ho, ha, hb, hc⟩ : ∃ o,
      (Image.strip fun i j => if i = 0 ∧ j < 2 then 5 else 0).measure 5 = some o ∧
        o.a = 1 ∧ o.b = 0 ∧ o.c = 0 :=
    ⟨_, rfl, by decide, by decide, by decide⟩
  have hgreat := h _ 5 o ho 0 1
  rw [ha, hb, hc] at hgreat
  have hform : ∀ u v : ℝ, form ((1 : ℤ) : ℝ) ((0 : ℤ) : ℝ) ((0 : ℤ) : ℝ) u v = u ^ 2 := by
    intro u v
    simp [form]
  have hleast : Least ((1 : ℤ) : ℝ) ((0 : ℤ) : ℝ) ((0 : ℤ) : ℝ) 0 1 := by
    refine ⟨by norm_num, fun u v _ => ?_⟩
    rw [hform, hform]
    simpa using sq_nonneg u
  have hone := hgreat hleast 1 0 (by norm_num)
  rw [hform, hform] at hone
  norm_num at hone

end SchoolProjects.Vision
