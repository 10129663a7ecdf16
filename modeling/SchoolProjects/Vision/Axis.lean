import Mathlib.Data.List.TakeWhile
import SchoolProjects.Vision.FirstPass
import SchoolProjects.Vision.Track

/-! Lines in images of objects (`DrawLine` of the second homework). The loop is left at the
first point that is not in the image, so that what is drawn depends on the end the scan
starts from. To draw the axis of an object the colour changes on the way, and a gap between
two pixels of the object is filled by another line. What becomes of a number of type `int` is
a parameter, as in the scan. -/

namespace SchoolProjects.Vision

namespace Image

/-- The point is a pixel of the image; a negative number becomes a `size_t` that no image
reaches. -/
def Inside (im : Image) (p : Point) : Prop :=
  (0 ≤ p.1 ∧ p.1 < im.num_rows) ∧ 0 ≤ p.2 ∧ p.2 < im.num_columns

instance (im : Image) (p : Point) : Decidable (im.Inside p) :=
  inferInstanceAs (Decidable ((_ ∧ _) ∧ _ ∧ _))

theorem Inside.of_mem_uIcc {im : Image} {p q r : Point} (hp : im.Inside p) (hq : im.Inside q)
    (h : r ∈ Set.uIcc p q) : im.Inside r := by
  rw [Set.uIcc_prod_eq] at h
  obtain ⟨h1, h2⟩ := h
  rw [Set.mem_uIcc] at h1 h2
  unfold Inside at *
  omega

/-- `GetPixel` at a point inside. -/
def pixelAt (im : Image) (p : Point) : ℤ := im.pixels p.1.toNat p.2.toNat

/-- The variables of the loop of `DrawLine`. -/
structure Stroke where
  image : Image
  color : ℤ
  saved : Point
  hole : Bool

/-- The body of the loop before the move. Neither `GetPixel` nor `SetPixel` aborts after
the test; `nested` is the line that fills a gap. -/
def visit (nested : Image → Point → Point → Image) (label : ℤ) (drawHoles : Bool) (p : Point)
    (t : Stroke) : Option Stroke :=
  if ¬ t.image.Inside p then none
  else
    let t :=
      if drawHoles then t
      else
        let byte := t.image.pixelAt p
        if byte = 0 then { t with hole := true, color := 0 }
        else if byte = label then
          { image := if t.hole then nested t.image t.saved p else t.image
            color := 255, saved := p, hole := false }
        else t
    some { t with image := t.image.withPixel p.1.toNat p.2.toNat t.color }

/-- `DrawLine`, up to the line that it calls itself for. -/
def drawWith (nested : Image → Point → Point → Image) (im : Image) (P Q : Point)
    (color label : ℤ) (drawHoles : Bool) (int : ℤ → ℤ := id) : Image :=
  let s := LineScan.setup P Q int
  (LineScan.scan P Q (visit nested label drawHoles) ⟨im, color, (s.xmin, s.ymin), false⟩ int).image

/-- `DrawLine`. Where `drawHoles` holds it does not call itself. -/
def DrawLine (im : Image) (P Q : Point) (color label : ℤ) (drawHoles : Bool)
    (int : ℤ → ℤ := id) : Image :=
  drawWith (fun im P Q => drawWith (fun im _ _ => im) im P Q 255 label true int)
    im P Q color label drawHoles int

/-! ### Lines of one colour -/

/-- The image in which some points have the colour. -/
def painted (im : Image) (ps : List Point) (color : ℤ) : Image :=
  { im with pixels := paint im.pixels ps color }

theorem painted_nil (im : Image) (color : ℤ) : im.painted [] color = im := by
  rw [painted, paint_nil]

theorem withPixel_eq {im : Image} {p : Point} (hp : im.Inside p) (color : ℤ) :
    im.withPixel p.1.toNat p.2.toNat color = im.painted [p] color := by
  obtain ⟨m, hm⟩ := Int.eq_ofNat_of_zero_le hp.1.1
  obtain ⟨n, hn⟩ := Int.eq_ofNat_of_zero_le hp.2.1
  obtain rfl : p = ((m : ℤ), (n : ℤ)) := Prod.ext hm hn
  rw [withPixel, painted, Int.toNat_natCast, Int.toNat_natCast, update_eq_paint]

theorem painted_cons (im : Image) (p : Point) (ps : List Point) (color : ℤ) :
    (im.painted [p] color).painted ps color = im.painted (p :: ps) color := by
  rw [painted, painted, painted, paint_paint, List.singleton_append]

theorem pixelAt_painted {im : Image} {p : Point} (hp : im.Inside p) (ps : List Point) (color : ℤ) :
    (im.painted ps color).pixelAt p = if p ∈ ps then color else im.pixelAt p := by
  have hcast : (((p.1.toNat : ℕ) : ℤ), ((p.2.toNat : ℕ) : ℤ)) = p :=
    Prod.ext (Int.toNat_of_nonneg hp.1.1) (Int.toNat_of_nonneg hp.2.1)
  simp only [pixelAt, painted, paint, hcast]

/-- A line of one colour is drawn up to the first point that is not in the image. -/
theorem sweep_solid (nested : Image → Point → Point → Image) (label color : ℤ) (saved : Point)
    (hole : Bool) (ps : List Point) (im : Image) :
    (sweep (visit nested label true) ps ⟨im, color, saved, hole⟩).image =
      im.painted (ps.takeWhile fun p => im.Inside p) color := by
  induction ps generalizing im with
  | nil => simp [sweep, painted_nil]
  | cons p ps ih =>
    by_cases hp : im.Inside p
    · have hvisit : visit nested label true p ⟨im, color, saved, hole⟩ =
          some ⟨im.painted [p] color, color, saved, hole⟩ := by
        simp [visit, hp, withPixel_eq hp]
      rw [sweep, hvisit, List.takeWhile_cons_of_pos (by simpa using hp)]
      exact (ih (im.painted [p] color)).trans (painted_cons im p _ color)
    · have hvisit : visit nested label true p ⟨im, color, saved, hole⟩ = none := by
        simp [visit, hp]
      rw [sweep, hvisit, List.takeWhile_cons_of_neg (by simpa using hp), painted_nil]

/-- The points that the scan comes to. -/
def reached (im : Image) (P Q : Point) (int : ℤ → ℤ := id) : List Point :=
  (track P Q int).takeWhile fun p => im.Inside p

/-- What `DrawLine` paints in one colour. -/
theorem drawWith_solid (nested : Image → Point → Point → Image) (im : Image) (P Q : Point)
    (color label : ℤ) (int : ℤ → ℤ) : drawWith nested im P Q color label true int =
      im.painted (im.reached P Q int) color := by
  rw [drawWith, scan_eq_sweep]
  exact sweep_solid nested label color _ _ _ _

theorem pixelAt_drawLine_solid {im : Image} {p : Point} (hp : im.Inside p) (P Q : Point)
    (color label : ℤ) : (DrawLine im P Q color label true).pixelAt p =
      if p ∈ (line P Q).takeWhile (fun p => im.Inside p) then color else im.pixelAt p := by
  rw [DrawLine, drawWith_solid, pixelAt_painted hp, reached, track_eq_line]

/-- Where the points that pass a test come first, none of them is cut off. -/
theorem mem_takeWhile_of_pairwise {α : Type*} {test : α → Bool} {l : List α} {x : α}
    (hl : l.Pairwise fun x y => test y → test x) (hx : x ∈ l) (htest : test x) :
    x ∈ l.takeWhile test := by
  induction l with
  | nil => exact hx
  | cons y l ih =>
    obtain ⟨hy, hl⟩ := List.pairwise_cons.mp hl
    have hfirst : test y := by
      rcases List.mem_cons.mp hx with rfl | hx
      · exact htest
      · exact hy x hx htest
    rw [List.takeWhile_cons_of_pos hfirst]
    exact List.mem_cons.mpr ((List.mem_cons.mp hx).imp_right (ih hl))

/-- A line that starts in the image does not come back when it has left it. -/
theorem pairwise_inside {im : Image} {P Q : Point} (h : im.Inside (segment P Q).lo) :
    (line P Q).Pairwise fun p q => im.Inside q → im.Inside p := by
  rw [line, Segment.points, List.pairwise_map]
  refine List.pairwise_lt_range.imp fun hlt hq => ?_
  exact h.of_mem_uIcc hq (Segment.nth_mem_uIcc (Int.natCast_nonneg _) (by omega))

/-- A line that starts in the image is drawn as far as it is in the image. -/
theorem mem_takeWhile_line {im : Image} {P Q p : Point} (h : im.Inside (segment P Q).lo) :
    p ∈ (line P Q).takeWhile (fun p => im.Inside p) ↔ p ∈ line P Q ∧ im.Inside p := by
  constructor
  · intro hp
    exact ⟨List.takeWhile_subset _ hp, by simpa using List.mem_takeWhile_imp hp⟩
  · rintro ⟨hp, hin⟩
    refine mem_takeWhile_of_pairwise ?_ hp (by simpa using hin)
    simpa using pairwise_inside h

/-- A line that starts outside is not drawn at all. -/
theorem takeWhile_line_eq_nil {im : Image} {P Q : Point} (h : ¬ im.Inside (segment P Q).lo) :
    (line P Q).takeWhile (fun p => im.Inside p) = [] := by
  obtain ⟨ps, hps⟩ := List.head?_eq_some_iff.mp (head_line P Q)
  rw [hps, List.takeWhile_cons_of_neg (by simpa using h)]

/-- From an end in the image the points of the line in the image are drawn just when the
other end is in the image too or the scan starts from the first, apart from points that
have the colour anyway: the loop is left where it should pass over points, and it is left at
once when it starts from an end that is not in the image. -/
theorem drawLine_clipped_iff {im : Image} {P : Point} (hP : im.Inside P) (Q : Point)
    (color label : ℤ) :
    (∀ p ∈ line P Q, im.Inside p → (DrawLine im P Q color label true).pixelAt p = color) ↔
      im.Inside Q ∨ (longer P Q).major P ≤ (longer P Q).major Q ∨
        ∀ p ∈ line P Q, im.Inside p → im.pixelAt p = color := by
  by_cases hlo : im.Inside (segment P Q).lo
  · have hcond : im.Inside Q ∨ (longer P Q).major P ≤ (longer P Q).major Q := by
      by_cases hswap : (longer P Q).major Q < (longer P Q).major P
      · rw [segment, dif_pos hswap] at hlo
        exact Or.inl hlo
      · exact Or.inr (not_lt.mp hswap)
    rw [← or_assoc]
    refine iff_of_true (fun p hp hin => ?_) (Or.inl hcond)
    rw [pixelAt_drawLine_solid hin, if_pos ((mem_takeWhile_line hlo).mpr ⟨hp, hin⟩)]
  · have hswap : (longer P Q).major Q < (longer P Q).major P := by
      by_contra hswap
      rw [segment, dif_neg hswap] at hlo
      exact hlo hP
    have hQ : ¬ im.Inside Q := by
      rwa [segment, dif_pos hswap] at hlo
    have hsame : ∀ p, im.Inside p →
        (DrawLine im P Q color label true).pixelAt p = im.pixelAt p := by
      intro p hin
      rw [pixelAt_drawLine_solid hin, takeWhile_line_eq_nil hlo, if_neg List.not_mem_nil]
    constructor
    · exact fun h => Or.inr (Or.inr fun p hp hin => (hsame p hin).symm.trans (h p hp hin))
    · rintro (h | h | h)
      · exact absurd h hQ
      · exact absurd h (not_le.mpr hswap)
      · exact fun p hp hin => (hsame p hin).trans (h p hp hin)

/-- An image of two rows and two columns. -/
def square (pixels : ℕ → ℕ → ℤ) : Image := allocate pixels 2 2

theorem drawLine_clipped_right : (0, 1) ∈ line (0, 0) (1, 3) ∧
    (DrawLine (square fun _ _ => 0) (0, 0) (1, 3) 255 0 true).pixelAt (0, 1) = 255 := by
  have hmem : (0, 1) ∈ line (0, 0) (1, 3) := by decide
  exact ⟨hmem, (drawLine_clipped_iff (by decide) (1, 3) 255 0).mpr (Or.inr (Or.inl (by decide)))
    (0, 1) hmem (by decide)⟩

/-- A line to the left of the image starts from there, and nothing is drawn. -/
theorem clipped_end_not_drawn : (square fun _ _ => 0).Inside (0, 1) ∧
    (0, 1) ∈ line (0, 1) (0, -2) ∧
    (DrawLine (square fun _ _ => 0) (0, 1) (0, -2) 255 0 true).pixelAt (0, 1) ≠ 255 := by
  refine ⟨by decide, by decide, ?_⟩
  rw [pixelAt_drawLine_solid (by decide)]
  decide

end Image

end SchoolProjects.Vision
