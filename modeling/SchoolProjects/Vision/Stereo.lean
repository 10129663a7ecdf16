import Mathlib.LinearAlgebra.Matrix.NonsingularInverse
import SchoolProjects.Vision.Sphere

/-! Photometric stereo (`image.cc` of the fourth homework): the inverse of the matrix of the
three light sources, and the vector of a pixel before it is normalised, with exact rationals.
The albedo, which is a square root, and the drawing of the normals are left out. -/

namespace SchoolProjects.Vision

open Matrix

/-- For the numerals in `Fin 3`. -/
instance neZero_three : NeZero 3 := ⟨three_ne_zero⟩

/-- `double inputMatrix[3][3]`. -/
abbrev SourceMatrix := Matrix (Fin 3) (Fin 3) ℚ

def computeDeterminant (inputMatrix : SourceMatrix) : ℚ :=
  inputMatrix 0 0 * (inputMatrix 1 1 * inputMatrix 2 2 - inputMatrix 1 2 * inputMatrix 2 1)
  - inputMatrix 0 1 * (inputMatrix 1 0 * inputMatrix 2 2 - inputMatrix 1 2 * inputMatrix 2 0)
  + inputMatrix 0 2 * (inputMatrix 1 0 * inputMatrix 2 1 - inputMatrix 1 1 * inputMatrix 2 0)

def computeInverseMatrix (inputMatrix : SourceMatrix) : SourceMatrix :=
  let det := computeDeterminant inputMatrix
  let invDet := 1 / det
  !![invDet * (inputMatrix 1 1 * inputMatrix 2 2 - inputMatrix 2 1 * inputMatrix 1 2),
      invDet * (inputMatrix 0 2 * inputMatrix 2 1 - inputMatrix 0 1 * inputMatrix 2 2),
      invDet * (inputMatrix 0 1 * inputMatrix 1 2 - inputMatrix 0 2 * inputMatrix 1 1);
    invDet * (inputMatrix 1 2 * inputMatrix 2 0 - inputMatrix 1 0 * inputMatrix 2 2),
      invDet * (inputMatrix 0 0 * inputMatrix 2 2 - inputMatrix 0 2 * inputMatrix 2 0),
      invDet * (inputMatrix 1 0 * inputMatrix 0 2 - inputMatrix 0 0 * inputMatrix 1 2);
    invDet * (inputMatrix 1 0 * inputMatrix 2 1 - inputMatrix 2 0 * inputMatrix 1 1),
      invDet * (inputMatrix 2 0 * inputMatrix 0 1 - inputMatrix 0 0 * inputMatrix 2 1),
      invDet * (inputMatrix 0 0 * inputMatrix 1 1 - inputMatrix 1 0 * inputMatrix 0 1)]

/-- The double loop of `processImage` that adds up `I`. -/
def accumulate (invMatrix : SourceMatrix) (pixels : Fin 3 → ℤ) : Fin 3 → ℚ :=
  (List.finRange 3).foldl (fun I a =>
    (List.finRange 3).foldl (fun I b =>
      Function.update I a (I a + invMatrix a b * pixels b)) I) (fun _ => 0)

/-- The vector `I` of a pixel before normalisation; `none` where a brightness is not above
the threshold. -/
def surfaceVector (inputMatrix : SourceMatrix) (threshold : ℤ) (pixels : Fin 3 → ℤ) :
    Option (Fin 3 → ℚ) :=
  if pixels 0 > threshold ∧ pixels 1 > threshold ∧ pixels 2 > threshold then
    some (accumulate (computeInverseMatrix inputMatrix) pixels)
  else none

/-- `none` is a call of `abort`. -/
def SphereImage.GetPixel (im : SphereImage) (i j : ℕ) : Option ℤ :=
  if im.num_rows ≤ i ∨ im.num_columns ≤ j then none else some (im.pixels i j)

/-- The brightnesses of one point in the three images. -/
def brightnesses (image1 image2 image3 : SphereImage) (p : Pixel) : Option (Fin 3 → ℤ) := do
  let first ← image1.GetPixel p.1 p.2
  let second ← image2.GetPixel p.1 p.2
  let third ← image3.GetPixel p.1 p.2
  return ![first, second, third]

/-- The points that the loops of `processImage` come to, with a positive step. Neither
`continue` is taken. -/
def sampled (num_rows num_columns step : ℕ) : List Pixel :=
  (Image.scan num_rows num_columns).filter fun p => step ∣ p.1 ∧ step ∣ p.2

/-- The points that `processImage` comes to, with their vectors before normalisation. -/
def processImage (inputMatrix : SourceMatrix) (image1 image2 image3 : SphereImage) (step : ℕ)
    (threshold : ℤ) : Option (List (Pixel × Option (Fin 3 → ℚ))) :=
  (sampled image1.num_rows image1.num_columns step).mapM fun p =>
    (brightnesses image1 image2 image3 p).map fun pixels =>
      (p, surfaceVector inputMatrix threshold pixels)

theorem computeDeterminant_eq (S : SourceMatrix) : computeDeterminant S = S.det := by
  rw [det_fin_three, computeDeterminant]
  ring

theorem computeInverseMatrix_eq (S : SourceMatrix) :
    computeInverseMatrix S = (1 / S.det) • S.adjugate := by
  simp only [computeInverseMatrix, computeDeterminant_eq, adjugate_fin_three]
  generalize 1 / S.det = invDet
  ext a b
  fin_cases a <;> fin_cases b <;> simp [-mul_eq_mul_left_iff] <;> ring

theorem mul_computeInverseMatrix {S : SourceMatrix} (h : S.det ≠ 0) :
    S * computeInverseMatrix S = 1 := by
  rw [computeInverseMatrix_eq, Matrix.mul_smul, mul_adjugate, smul_smul, one_div_mul_cancel h,
    one_smul]

theorem computeInverseMatrix_mul {S : SourceMatrix} (h : S.det ≠ 0) :
    computeInverseMatrix S * S = 1 := by
  rw [computeInverseMatrix_eq, Matrix.smul_mul, adjugate_mul, smul_smul, one_div_mul_cancel h,
    one_smul]

/-- The double loop multiplies the matrix with the brightnesses. -/
theorem accumulate_eq (invMatrix : SourceMatrix) (pixels : Fin 3 → ℤ) :
    accumulate invMatrix pixels = invMatrix *ᵥ fun b => (pixels b : ℚ) := by
  funext a
  have hrange : List.finRange 3 = [0, 1, 2] := rfl
  rw [accumulate, hrange, mulVec_eq_sum]
  fin_cases a <;> simp [Fin.sum_univ_three]

theorem surfaceVector_above (S : SourceMatrix) {threshold : ℤ} {pixels : Fin 3 → ℤ}
    (h : ∀ b, threshold < pixels b) : surfaceVector S threshold pixels =
      some (computeInverseMatrix S *ᵥ fun b => (pixels b : ℚ)) := by
  rw [surfaceVector, if_pos ⟨h 0, h 1, h 2⟩, accumulate_eq]

/-- A vector that solves the system is the one that the inverse gives. -/
theorem mulVec_eq_iff {S : SourceMatrix} (h : S.det ≠ 0) (I p : Fin 3 → ℚ) :
    S *ᵥ I = p ↔ I = computeInverseMatrix S *ᵥ p := by
  constructor
  · rintro rfl
    rw [mulVec_mulVec, computeInverseMatrix_mul h, one_mulVec]
  · rintro rfl
    rw [mulVec_mulVec, mul_computeInverseMatrix h, one_mulVec]

/-- The computed matrix is a two-sided inverse, and the vector of a pixel that is bright in
all three images is the only one that solves the system. -/
theorem stereo_solves (S : SourceMatrix) (h : S.det ≠ 0) :
    S * computeInverseMatrix S = 1 ∧ computeInverseMatrix S * S = 1 ∧
      ∀ (threshold : ℤ) (pixels : Fin 3 → ℤ), (∀ b, threshold < pixels b) →
        ∃ I, surfaceVector S threshold pixels = some I ∧ S *ᵥ I = (fun b => (pixels b : ℚ)) ∧
          ∀ J, S *ᵥ J = (fun b => (pixels b : ℚ)) → J = I := by
  refine ⟨mul_computeInverseMatrix h, computeInverseMatrix_mul h, fun threshold pixels hp => ?_⟩
  refine ⟨_, surfaceVector_above S hp, ?_, fun J hJ => ?_⟩
  · rw [mulVec_eq_iff h]
  · rwa [mulVec_eq_iff h] at hJ

theorem stereo_solves_triangular : (!![2, 0, 0; 0, 1, 1; 0, 0, 1] : SourceMatrix).det ≠ 0 ∧
    ∃ I, surfaceVector !![2, 0, 0; 0, 1, 1; 0, 0, 1] 80 ![100, 90, 81] = some I ∧
      !![2, 0, 0; 0, 1, 1; 0, 0, 1] *ᵥ I = (fun b => ((![100, 90, 81] : Fin 3 → ℤ) b : ℚ)) ∧
        ∀ J, !![2, 0, 0; 0, 1, 1; 0, 0, 1] *ᵥ J =
          (fun b => ((![100, 90, 81] : Fin 3 → ℤ) b : ℚ)) → J = I := by
  have h : (!![2, 0, 0; 0, 1, 1; 0, 0, 1] : SourceMatrix).det ≠ 0 := by
    simp [det_fin_three]
  exact ⟨h, (stereo_solves _ h).2.2 80 _ (by decide)⟩

/-! ### Runs of `processImage` -/

theorem mem_of_mapM_eq_some {α β : Type*} {f : α → Option β} {y : β} :
    ∀ {xs : List α} {ys : List β}, xs.mapM f = some ys → y ∈ ys → ∃ x ∈ xs, f x = some y
  | [], ys, h, hy => by
    cases h
    simp at hy
  | x :: xs, ys, h, hy => by
    simp only [List.mapM_cons, Option.bind_eq_bind, Option.bind_eq_some_iff, Option.pure_def,
      Option.some.injEq] at h
    obtain ⟨z, hz, zs, hzs, rfl⟩ := h
    rcases List.mem_cons.1 hy with rfl | hy
    · exact ⟨x, by simp, hz⟩
    · obtain ⟨x', hx', hfx⟩ := mem_of_mapM_eq_some hzs hy
      exact ⟨x', by simp [hx'], hfx⟩

/-- Where a run has a vector for a point, the point is bright in all three images, and the
vector solves the system for its brightnesses. -/
theorem processImage_mulVec {S : SourceMatrix} (hS : S.det ≠ 0)
    {image1 image2 image3 : SphereImage} {step : ℕ} {threshold : ℤ}
    {vs : List (Pixel × Option (Fin 3 → ℚ))}
    (h : processImage S image1 image2 image3 step threshold = some vs)
    {p : Pixel} {I : Fin 3 → ℚ} (hv : (p, some I) ∈ vs) :
    ∃ pixels, brightnesses image1 image2 image3 p = some pixels ∧ (∀ b, threshold < pixels b) ∧
      S *ᵥ I = fun b => (pixels b : ℚ) := by
  obtain ⟨q, -, hq⟩ := mem_of_mapM_eq_some h hv
  obtain ⟨pixels, hpixels, heq⟩ := Option.map_eq_some_iff.1 hq
  obtain ⟨rfl, hI⟩ := Prod.mk.inj heq
  rw [surfaceVector] at hI
  split at hI
  case isFalse => cases hI
  case isTrue hbright =>
    have habove : ∀ b, threshold < pixels b := by
      intro b
      fin_cases b
      exacts [hbright.1, hbright.2.1, hbright.2.2]
    refine ⟨pixels, hpixels, habove, ?_⟩
    rw [mulVec_eq_iff hS, ← accumulate_eq]
    exact (Option.some.inj hI).symm

end SchoolProjects.Vision
