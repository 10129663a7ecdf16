import SchoolProjects.Vision.Line
import SchoolProjects.Vision.Sphere

/-! Lines in sphere images (`DrawLine` of the fourth homework). `SetPixel` passes over what
is not in the image, so the digital line is drawn up to the border and goes on behind it. -/

namespace SchoolProjects.Vision

/-- The points that the loop has passed through, and the image. -/
structure Drawing where
  visited : List Point
  image : Option SphereImage

namespace SphereImage

/-- `SetPixel(x, y, color, true)`. A negative number becomes a `size_t` that no image
reaches. -/
def SetPoint (im : SphereImage) (p : Point) (color : ℤ) : Option SphereImage :=
  if p.1 < 0 ∨ p.2 < 0 then some im else im.SetPixel p.1.toNat p.2.toNat color true

def DrawLine (P Q : Point) (color : ℤ) (im : SphereImage) : Drawing :=
  LineScan.scan P Q (fun p t => some
    { visited := t.visited ++ [p], image := t.image.bind fun im => im.SetPoint p color })
    ⟨[], some im⟩

/-- The image in which the pixels among some points have the colour. -/
def painted (im : SphereImage) (ps : List Point) (color : ℤ) : SphereImage :=
  { im with pixels := fun i j =>
      if i < im.num_rows ∧ j < im.num_columns then paint im.pixels ps color i j
      else im.pixels i j }

theorem pixels_painted (im : SphereImage) (ps : List Point) (color : ℤ) (i j : ℕ) :
    (im.painted ps color).pixels i j =
      if ((i : ℤ), (j : ℤ)) ∈ ps ∧ i < im.num_rows ∧ j < im.num_columns then color
      else im.pixels i j := by
  simp only [painted, paint]
  split_ifs <;> tauto

theorem painted_of_outside {im : SphereImage} {ps : List Point}
    (h : ∀ i j : ℕ, i < im.num_rows → j < im.num_columns → ((i : ℤ), (j : ℤ)) ∉ ps) (color : ℤ) :
    im.painted ps color = im := by
  unfold painted
  congr 1
  funext i j
  split_ifs with hin
  · exact if_neg (h i j hin.1 hin.2)
  · rfl

theorem painted_append (im : SphereImage) (ps : List Point) (p : Point) (color : ℤ) :
    (im.painted ps color).painted [p] color = im.painted (ps ++ [p]) color := by
  unfold painted
  congr 1
  funext i j
  dsimp only
  split_ifs with hin
  · rw [← paint_paint]
    simp only [paint, if_pos hin]
  · rfl

theorem setPoint_eq (im : SphereImage) (p : Point) (color : ℤ) :
    im.SetPoint p color = some (im.painted [p] color) := by
  unfold SetPoint
  by_cases hneg : p.1 < 0 ∨ p.2 < 0
  · rw [if_pos hneg, painted_of_outside]
    intro i j _ _ hmem
    obtain rfl := List.mem_singleton.mp hmem
    simp only at hneg
    omega
  · obtain ⟨m, hm⟩ := Int.eq_ofNat_of_zero_le (show 0 ≤ p.1 by omega)
    obtain ⟨n, hn⟩ := Int.eq_ofNat_of_zero_le (show 0 ≤ p.2 by omega)
    obtain rfl : p = ((m : ℤ), (n : ℤ)) := Prod.ext hm hn
    rw [if_neg hneg, Int.toNat_natCast, Int.toNat_natCast, SetPixel]
    by_cases hout : im.num_rows ≤ m ∨ im.num_columns ≤ n
    · rw [if_pos hout, if_pos rfl, painted_of_outside]
      intro i j hi hj hmem
      obtain ⟨h1, h2⟩ := Prod.mk.inj (List.mem_singleton.mp hmem)
      omega
    · rw [if_neg hout, painted, update_eq_paint]
      congr 2
      funext i j
      split_ifs with hin
      · rfl
      · refine if_neg fun hmem => ?_
        obtain ⟨h1, h2⟩ := Prod.mk.inj (List.mem_singleton.mp hmem)
        omega

theorem sweep_draw (im : SphereImage) (color : ℤ) (ps qs : List Point) :
    sweep (fun p t => some
      { visited := t.visited ++ [p], image := t.image.bind fun im => im.SetPoint p color })
      qs (⟨ps, some (im.painted ps color)⟩ : Drawing) =
      ⟨ps ++ qs, some (im.painted (ps ++ qs) color)⟩ := by
  induction qs generalizing ps with
  | nil => simp [sweep]
  | cons q qs ih =>
    have hrest := ih (ps ++ [q])
    rw [List.append_assoc, List.singleton_append] at hrest
    rw [sweep, Option.bind_some, setPoint_eq, painted_append]
    exact hrest

/-- What `DrawLine` does: it passes through the digital line and paints it. -/
theorem drawLine_eq (P Q : Point) (color : ℤ) (im : SphereImage) :
    DrawLine P Q color im = ⟨line P Q, some (im.painted (line P Q) color)⟩ := by
  have hstart : im.painted [] color = im := painted_of_outside (by simp) color
  have hsweep := sweep_draw im color [] (line P Q)
  rw [hstart] at hsweep
  rw [DrawLine, scan_eq]
  exact hsweep

/-- The loop passes through the digital line from one end to the other, once for each place
along the longer side and never more than half a unit away, whichever end comes first, and
paints exactly the pixels of the image that are on it. -/
theorem drawLine_digital (P Q : Point) (color : ℤ) (im : SphereImage) :
    (((DrawLine P Q color im).visited.length : ℤ) = max |Q.1 - P.1| |Q.2 - P.2| + 1) ∧
    (∃ A B, (A = P ∧ B = Q ∨ A = Q ∧ B = P) ∧ (DrawLine P Q color im).visited.head? = some A ∧
      (DrawLine P Q color im).visited.getLast? = some B ∧
      (DrawLine P Q color im).visited.map (longer P Q).major =
        (List.range (DrawLine P Q color im).visited.length).map fun k : ℕ =>
          (longer P Q).major A + k) ∧
    (∀ p ∈ (DrawLine P Q color im).visited,
      2 * |(Q.1 - P.1) * (p.2 - P.2) - (Q.2 - P.2) * (p.1 - P.1)| ≤
        max |Q.1 - P.1| |Q.2 - P.2|) ∧
    (∀ p, p ∈ (DrawLine P Q color im).visited ↔ p ∈ (DrawLine Q P color im).visited) ∧
    ∃ im', (DrawLine P Q color im).image = some im' ∧
      im' = { im with pixels := im'.pixels } ∧
      ∀ i j : ℕ, im'.pixels i j =
        if ((i : ℤ), (j : ℤ)) ∈ (DrawLine P Q color im).visited ∧ i < im.num_rows ∧
          j < im.num_columns then color else im.pixels i j := by
  rw [drawLine_eq, drawLine_eq Q P]
  refine ⟨length_line P Q, ?_, fun p hp => two_mul_cross_le hp, fun p => by rw [line_comm],
    im.painted (line P Q) color, rfl, rfl, pixels_painted im (line P Q) color⟩
  exact ⟨_, _, segment_ends P Q, head_line P Q, getLast_line P Q, major_line P Q⟩

end SphereImage

end SchoolProjects.Vision
