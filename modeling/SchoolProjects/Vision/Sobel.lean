import SchoolProjects.Lib.MachineInt
import SchoolProjects.Lib.Table
import SchoolProjects.Lib.Text
import SchoolProjects.Vision.Labelling
import SchoolProjects.Vision.Raster

/-! Edges (`image.h` and `image.cc` of the third homework): the Sobel step and writing its
result. `convolute` takes the pixels on a diagonal, so of the neighbours of a pixel only
two count, and the written byte is what is left of four times their difference. Reading
and the Hough transform are left out. -/

namespace SchoolProjects.Vision

open Text

/-- `int filter[][3]`; the indices are one more than those of the loops. -/
abbrev Filter := Matrix (Fin 3) (Fin 3) ℤ

/-- `struct sVals`. The numbers of type `double` in it are integers. -/
structure SVals where
  gX : ℤ := 0
  gY : ℤ := 0
  val : ℤ := 0
  deriving DecidableEq

/-- `computeValues`. The root is rounded down exactly as long as the squares are below
`2 ^ 53`; those of the Sobel step on bytes are. -/
def SVals.computeValues (s : SVals) : SVals := { s with val := Int.sqrt (s.gX ^ 2 + s.gY ^ 2) }

/-- `class Image`. -/
structure SobelImage where
  num_rows : ℕ
  num_columns : ℕ
  num_gray_levels : ℕ
  pixels : ℕ → ℕ → ℤ
  sData : ℕ → ℕ → SVals

namespace SobelImage

def sobelX : Filter := !![-1, 0, 1; -2, 0, 2; -1, 0, 1]

def sobelY : Filter := !![-1, -2, -1; 0, 0, 0; 1, 2, 1]

/-- The inner loop of `convolute`; the second index of the pixel is that of the outer
loop. -/
def convoluteRow (im : SobelImage) (filter : Filter) (i j : ℕ) (total : ℤ) (a : Fin 3) : ℤ :=
  (List.finRange 3).foldl (fun total b =>
    int32 (total + int32 (im.pixels (i + a - 1) (j + a - 1) * filter a b))) total

def convolute (im : SobelImage) (filter : Filter) (i j : ℕ) : ℤ :=
  (List.finRange 3).foldl (im.convoluteRow filter i j) 0

/-- `sData[i][j].gX = …; sData[i][j].gY = …; sData[i][j].computeValues();` -/
def sobelAt (im : SobelImage) (p : Pixel) : SVals :=
  ({ gX := im.convolute sobelX p.1 p.2, gY := im.convolute sobelY p.1 p.2 } : SVals).computeValues

def setSobel (im : SobelImage) (p : Pixel) (s : SVals) : SobelImage :=
  { im with sData := Function.update im.sData p.1 (Function.update (im.sData p.1) p.2 s) }

/-- The pixels that are not on the border, row by row. -/
def interior (im : SobelImage) : List Pixel :=
  (List.range' 1 (im.num_rows - 2)).flatMap fun i =>
    (List.range' 1 (im.num_columns - 2)).map fun j => (i, j)

/-- `performSobel`. For no rows, and where a row is looked at for no columns, the bound of
the loop is `2 ^ 64 - 1` and the loop leaves the arrays. -/
def performSobel (im : SobelImage) : Option SobelImage :=
  if im.num_rows = 0 ∨ (im.num_columns = 0 ∧ 3 ≤ im.num_rows) then none
  else some (im.interior.foldl (fun im p => im.setSobel p (im.sobelAt p)) im)

/-- The byte that `WriteImage` writes for a pixel. -/
def writeByte (im : SobelImage) (pgNum threshold : ℤ) (p : Pixel) : UInt8 :=
  Image.fputc (if pgNum = 1 then (im.sData p.1 p.2).val
    else if pgNum = 2 then (if im.pixels p.1 p.2 < threshold then 0 else 255)
    else im.pixels p.1 p.2)

/-- The bytes `WriteImage` writes. -/
def WriteImage (im : SobelImage) (pgNum threshold : ℤ) : Text :=
  let num_rows := int32 im.num_rows
  let num_columns := int32 im.num_columns
  let colors := int32 im.num_gray_levels
  ascii "P5\n" ++ ascii "#\n" ++
    (format 0 num_columns ++ ascii " " ++ format 0 num_rows ++ ascii "\n" ++
      format 3 colors ++ ascii "\n") ++
    (Image.scan num_rows.toNat num_columns.toNat).map (im.writeByte pgNum threshold)

/-! ### The filters -/

/-- The correlation with a filter. -/
def correlation (im : SobelImage) (filter : Filter) (i j : ℕ) : ℤ :=
  ∑ a : Fin 3, ∑ b : Fin 3, im.pixels (i + a - 1) (j + b - 1) * filter a b

/-- What `convolute` computes. -/
theorem convolute_eq (im : SobelImage) (filter : Filter) (i j : ℕ) :
    im.convolute filter i j =
      int32 (∑ a : Fin 3, ∑ b : Fin 3, im.pixels (i + a - 1) (j + a - 1) * filter a b) := by
  have hrow : ∀ (z : ℤ) (a : Fin 3), im.convoluteRow filter i j (int32 z) a =
      int32 (z + ∑ b : Fin 3, im.pixels (i + a - 1) (j + a - 1) * filter a b) := by
    intro z a
    rw [Fin.sum_univ_def]
    exact foldl_int32 _ _ (fun z b => int32_add_two z _) _ z
  have hsum := foldl_int32 _ _ hrow (List.finRange 3) 0
  rw [zero_add, ← Fin.sum_univ_def] at hsum
  exact hsum

/-- Where each number of the filter is 0 or stands over the pixel of the diagonal, or one like
it, `convolute` is the correlation as an `int`. -/
theorem convolute_of_alike {im : SobelImage} {filter : Filter} {i j : ℕ}
    (h : ∀ a b : Fin 3, filter a b = 0 ∨
      im.pixels (i + a - 1) (j + b - 1) = im.pixels (i + a - 1) (j + a - 1)) :
    im.convolute filter i j = int32 (im.correlation filter i j) := by
  rw [convolute_eq, correlation]
  refine congrArg int32 (Finset.sum_congr rfl fun a _ => Finset.sum_congr rfl fun b _ => ?_)
  rcases h a b with h | h
  · rw [h, mul_zero, mul_zero]
  · rw [h]

theorem mem_interior {im : SobelImage} {p : Pixel} : p ∈ im.interior ↔
    (1 ≤ p.1 ∧ p.1 + 1 < im.num_rows) ∧ 1 ≤ p.2 ∧ p.2 + 1 < im.num_columns := by
  obtain ⟨i, j⟩ := p
  simp only [interior, List.mem_flatMap, List.mem_map, List.mem_range'_1, Prod.mk.injEq]
  constructor
  · rintro ⟨i, hi, j, hj, rfl, rfl⟩
    omega
  · intro h
    exact ⟨i, by omega, j, by omega, rfl, rfl⟩

/-- All pixels are bytes. -/
def Bytes (im : SobelImage) : Prop :=
  ∀ i j, i < im.num_rows → j < im.num_columns → 0 ≤ im.pixels i j ∧ im.pixels i j ≤ 255

/-- A filter that is 0 beside the diagonal, and whose correlation with bytes is an `int`. -/
structure OnDiagonal (filter : Filter) : Prop where
  beside : ∀ a b, a ≠ b → filter a b = 0
  upper : 255 * ∑ a, max (filter a a) 0 < 2 ^ 31
  lower : -2 ^ 31 ≤ 255 * ∑ a, min (filter a a) 0

/-- In each of the three rows around a pixel the three pixels are the same. -/
def LevelRows (im : SobelImage) (i j : ℕ) : Prop :=
  ∀ a b : Fin 3, im.pixels (i + a - 1) (j + b - 1) = im.pixels (i + a - 1) (j + a - 1)

/-- An image of nine pixels. -/
def nine (g : Fin 3 → Fin 3 → ℤ) : SobelImage where
  num_rows := 3
  num_columns := 3
  num_gray_levels := 255
  pixels i j := g ⟨i % 3, Nat.mod_lt i (by decide)⟩ ⟨j % 3, Nat.mod_lt j (by decide)⟩
  sData _ _ := {}

section Nine

variable {g : Fin 3 → Fin 3 → ℤ} {filter : Filter}

theorem nine_pixels (g : Fin 3 → Fin 3 → ℤ) (a b : Fin 3) :
    (nine g).pixels (1 + a - 1) (1 + b - 1) = g a b := by
  simp only [nine, Nat.add_sub_cancel_left, Nat.mod_eq_of_lt a.isLt, Nat.mod_eq_of_lt b.isLt]

theorem nine_interior (g : Fin 3 → Fin 3 → ℤ) : (1, 1) ∈ (nine g).interior :=
  mem_interior.mpr ⟨⟨le_rfl, Nat.lt_succ_self 2⟩, le_rfl, Nat.lt_succ_self 2⟩

theorem nine_bytes (hg : ∀ a b, 0 ≤ g a b ∧ g a b ≤ 255) : (nine g).Bytes := fun _ _ _ _ =>
  hg _ _

theorem nine_correlation (g : Fin 3 → Fin 3 → ℤ) (filter : Filter) :
    (nine g).correlation filter 1 1 = ∑ a, ∑ b, g a b * filter a b := by
  simp only [correlation, nine_pixels]

theorem nine_convolute (g : Fin 3 → Fin 3 → ℤ) (filter : Filter) :
    (nine g).convolute filter 1 1 = int32 (∑ a, ∑ b, g a a * filter a b) := by
  simp only [convolute_eq, nine_pixels]

/-- One pixel beside the diagonal is not seen. -/
theorem beside_of_nine (h : ∀ im : SobelImage, im.Bytes → ∀ p ∈ im.interior,
    im.convolute filter p.1 p.2 = im.correlation filter p.1 p.2) {a b : Fin 3} (hab : a ≠ b) :
    filter a b = 0 := by
  have hone := h (nine fun a' b' => if a' = a ∧ b' = b then 1 else 0)
    (nine_bytes fun a' b' => by split_ifs <;> omega) (1, 1) (nine_interior _)
  have hseen : ∀ a', ¬ (a' = a ∧ a' = b) := fun a' h' => hab (h'.1.symm.trans h'.2)
  have hcorr : ∑ a', ∑ b', (if a' = a ∧ b' = b then (1 : ℤ) else 0) * filter a' b' =
      filter a b := by
    simp [ite_and]
  rw [nine_convolute, nine_correlation, hcorr] at hone
  simp only [if_neg (hseen _), zero_mul, Finset.sum_const_zero] at hone
  exact hone.symm

/-- Pixels on the diagonal alone. -/
theorem range_of_nine (h : ∀ im : SobelImage, im.Bytes → ∀ p ∈ im.interior,
    im.convolute filter p.1 p.2 = im.correlation filter p.1 p.2) {d : Fin 3 → ℤ}
    (hd : ∀ a, 0 ≤ d a ∧ d a ≤ 255) :
    -2 ^ 31 ≤ ∑ a, d a * filter a a ∧ ∑ a, d a * filter a a < 2 ^ 31 := by
  have hdiag := h (nine fun a b => if a = b then d a else 0)
    (nine_bytes fun a b => by
      have := hd a
      split_ifs <;> omega) (1, 1) (nine_interior _)
  have hcorr : ∑ a, ∑ b, (if a = b then d a else 0) * filter a b = ∑ a, d a * filter a a := by
    simp
  rw [nine_convolute, nine_correlation, hcorr] at hdiag
  exact (int32_eq_iff.mp hdiag).2

end Nine

section Filter

variable {im : SobelImage} {filter : Filter} {p : Pixel}

/-- The nine pixels around one that is not on the border. -/
theorem Bytes.around (hbytes : im.Bytes) (hp : p ∈ im.interior) (a b : Fin 3) :
    0 ≤ im.pixels (p.1 + a - 1) (p.2 + b - 1) ∧
      im.pixels (p.1 + a - 1) (p.2 + b - 1) ≤ 255 := by
  obtain ⟨⟨hi, hi'⟩, hj, hj'⟩ := mem_interior.mp hp
  exact hbytes _ _ (by omega) (by omega)

/-- A byte times a number of the filter. -/
theorem mul_le_of_byte {x z : ℤ} (h0 : 0 ≤ x) (h1 : x ≤ 255) :
    x * z ≤ 255 * max z 0 ∧ 255 * min z 0 ≤ x * z := by
  constructor
  · calc x * z ≤ x * max z 0 := mul_le_mul_of_nonneg_left (le_max_left z 0) h0
      _ ≤ 255 * max z 0 := mul_le_mul_of_nonneg_right h1 (le_max_right z 0)
  · calc 255 * min z 0 ≤ x * min z 0 := mul_le_mul_of_nonpos_right h1 (min_le_right z 0)
      _ ≤ x * z := mul_le_mul_of_nonneg_left (min_le_left z 0) h0

theorem OnDiagonal.correlation_range (hf : OnDiagonal filter) (hbytes : im.Bytes)
    (hp : p ∈ im.interior) : -2 ^ 31 ≤ im.correlation filter p.1 p.2 ∧
      im.correlation filter p.1 p.2 < 2 ^ 31 := by
  have hcorr : im.correlation filter p.1 p.2 =
      ∑ a : Fin 3, im.pixels (p.1 + a - 1) (p.2 + a - 1) * filter a a := by
    refine Finset.sum_congr rfl fun a _ => Finset.sum_eq_single a (fun b _ hb => ?_) (by simp)
    rw [hf.beside a b hb.symm, mul_zero]
  have hterm (a : Fin 3) := mul_le_of_byte (z := filter a a) (hbytes.around hp a a).1
    (hbytes.around hp a a).2
  have hupper := hf.upper
  have hlower := hf.lower
  rw [Finset.mul_sum] at hupper hlower
  rw [hcorr]
  exact ⟨hlower.trans (Finset.sum_le_sum fun a _ => (hterm a).2),
    (Finset.sum_le_sum fun a _ => (hterm a).1).trans_lt hupper⟩

/-- The filters for which `convolute` is the correlation. -/
theorem convolute_filter_iff (filter : Filter) :
    (∀ im : SobelImage, im.Bytes → ∀ p ∈ im.interior,
      im.convolute filter p.1 p.2 = im.correlation filter p.1 p.2) ↔ OnDiagonal filter := by
  constructor
  · intro h
    refine ⟨fun a b hab => beside_of_nine h hab, ?_, ?_⟩
    · have hrange := range_of_nine (d := fun a => if 0 < filter a a then 255 else 0) h
        fun a => by split_ifs <;> omega
      have hterm : ∀ a, (if 0 < filter a a then (255 : ℤ) else 0) * filter a a =
          255 * max (filter a a) 0 := fun a => by
        split_ifs <;> omega
      simp only [hterm, ← Finset.mul_sum] at hrange
      exact hrange.2
    · have hrange := range_of_nine (d := fun a => if filter a a < 0 then 255 else 0) h
        fun a => by split_ifs <;> omega
      have hterm : ∀ a, (if filter a a < 0 then (255 : ℤ) else 0) * filter a a =
          255 * min (filter a a) 0 := fun a => by
        split_ifs <;> omega
      simp only [hterm, ← Finset.mul_sum] at hrange
      exact hrange.1
  · intro hf im hbytes p hp
    have hrange := hf.correlation_range hbytes hp
    rw [convolute_of_alike fun a b => ?_, int32_of_range hrange.1 hrange.2]
    by_cases hab : a = b
    · exact Or.inr (by rw [hab])
    · exact Or.inl (hf.beside a b hab)

/-- The neighbourhoods for which `convolute` is the correlation. -/
theorem convolute_pixels_iff (hbytes : im.Bytes) (hp : p ∈ im.interior) :
    (∀ filter, -2 ^ 31 ≤ im.correlation filter p.1 p.2 → im.correlation filter p.1 p.2 < 2 ^ 31 →
      im.convolute filter p.1 p.2 = im.correlation filter p.1 p.2) ↔ im.LevelRows p.1 p.2 := by
  constructor
  · intro h a b
    have hcorr : im.correlation (Matrix.of fun a' b' => if a' = a ∧ b' = b then 1 else 0) p.1 p.2 =
        im.pixels (p.1 + a - 1) (p.2 + b - 1) := by
      simp [correlation, ite_and]
    have hconv : im.convolute (Matrix.of fun a' b' => if a' = a ∧ b' = b then 1 else 0) p.1 p.2 =
        im.pixels (p.1 + a - 1) (p.2 + a - 1) := by
      have haa := hbytes.around hp a a
      rw [convolute_eq, ← int32_of_range (z := im.pixels (p.1 + a - 1) (p.2 + a - 1))
        (by omega) (by omega)]
      simp [ite_and]
    have hab := hbytes.around hp a b
    rw [← hcorr, ← hconv]
    exact (h _ (by rw [hcorr]; omega) (by rw [hcorr]; omega)).symm
  · intro hlevel filter h0 h1
    rw [convolute_of_alike fun a b => Or.inr (hlevel a b), int32_of_range h0 h1]

end Filter

/-! ### The Sobel step -/

section Step

variable {im im' : SobelImage}

theorem sData_setSobel (im : SobelImage) (p q : Pixel) (s : SVals) :
    (im.setSobel p s).sData q.1 q.2 = if q = p then s else im.sData q.1 q.2 :=
  update_update_apply im.sData p q s

/-- The Sobel step on some pixels: each gets its own values, and the picture stays. -/
theorem foldl_setSobel (ps : List Pixel) (im : SobelImage) :
    (ps.foldl (fun im p => im.setSobel p (im.sobelAt p)) im).pixels = im.pixels ∧
      ∀ q : Pixel, (ps.foldl (fun im p => im.setSobel p (im.sobelAt p)) im).sData q.1 q.2 =
        if q ∈ ps then im.sobelAt q else im.sData q.1 q.2 := by
  induction ps generalizing im with
  | nil => exact ⟨rfl, fun q => (if_neg (by simp)).symm⟩
  | cons p ps ih =>
    obtain ⟨hpixels, hdata⟩ := ih (im.setSobel p (im.sobelAt p))
    refine ⟨hpixels, fun q => ?_⟩
    rw [List.foldl_cons, hdata, sData_setSobel]
    have hat : (im.setSobel p (im.sobelAt p)).sobelAt q = im.sobelAt q := rfl
    rw [hat]
    by_cases hps : q ∈ ps
    · simp [hps]
    · by_cases hqp : q = p
      · simp [hqp]
      · simp [hps, hqp]

theorem performSobel_spec (h : im.performSobel = some im') :
    im'.pixels = im.pixels ∧ ∀ p ∈ im.interior, im'.sData p.1 p.2 = im.sobelAt p := by
  unfold performSobel at h
  split_ifs at h
  obtain rfl := Option.some.inj h
  obtain ⟨hpixels, hdata⟩ := foldl_setSobel im.interior im
  exact ⟨hpixels, fun p hp => (hdata p).trans (if_pos hp)⟩

/-- The correlations of bytes with the two filters are numbers of type `int`. -/
theorem sobel_range (hbytes : im.Bytes) {p : Pixel} (hp : p ∈ im.interior) :
    (-2 ^ 31 ≤ im.correlation sobelX p.1 p.2 ∧ im.correlation sobelX p.1 p.2 < 2 ^ 31) ∧
      -2 ^ 31 ≤ im.correlation sobelY p.1 p.2 ∧ im.correlation sobelY p.1 p.2 < 2 ^ 31 := by
  have h (a b : Fin 3) := hbytes.around hp a b
  have h00 := h 0 0
  have h01 := h 0 1
  have h02 := h 0 2
  have h10 := h 1 0
  have h12 := h 1 2
  have h20 := h 2 0
  have h21 := h 2 1
  have h22 := h 2 2
  simp [correlation, Fin.sum_univ_three, sobelX, sobelY] at h00 h01 h02 h10 h12 h20 h21 h22 ⊢
  omega

/-- `convolute` is the correlation for every image of bytes if and only if the filter is 0
beside the diagonal, and for every filter if and only if the rows around the pixel are level.
For one filter and one pixel it is enough that each number of the filter is 0 or stands over
a pixel like that of the diagonal; so the values of the Sobel step are the correlations where
the rows are level. -/
theorem sobel_correlation_iff (im : SobelImage) (filter : Filter) :
    ((∀ im' : SobelImage, im'.Bytes → ∀ p ∈ im'.interior,
      im'.convolute filter p.1 p.2 = im'.correlation filter p.1 p.2) ↔ OnDiagonal filter) ∧
    (im.Bytes → ∀ p ∈ im.interior,
      (∀ filter' : Filter, -2 ^ 31 ≤ im.correlation filter' p.1 p.2 →
        im.correlation filter' p.1 p.2 < 2 ^ 31 →
          im.convolute filter' p.1 p.2 = im.correlation filter' p.1 p.2) ↔
        im.LevelRows p.1 p.2) ∧
    (∀ i j : ℕ, (∀ a b : Fin 3, filter a b = 0 ∨
        im.pixels (i + a - 1) (j + b - 1) = im.pixels (i + a - 1) (j + a - 1)) →
      -2 ^ 31 ≤ im.correlation filter i j → im.correlation filter i j < 2 ^ 31 →
        im.convolute filter i j = im.correlation filter i j) ∧
    (im.Bytes → ∀ im', im.performSobel = some im' →
      ∀ p ∈ im.interior, im.LevelRows p.1 p.2 →
        (im'.sData p.1 p.2).gX = im.correlation sobelX p.1 p.2 ∧
          (im'.sData p.1 p.2).gY = im.correlation sobelY p.1 p.2) := by
  refine ⟨convolute_filter_iff filter, fun hbytes p hp => convolute_pixels_iff hbytes hp,
    fun i j halike h0 h1 => ?_, fun hbytes im' h p hp hlevel => ?_⟩
  · rw [convolute_of_alike halike, int32_of_range h0 h1]
  · obtain ⟨-, hdata⟩ := performSobel_spec h
    obtain ⟨⟨hx0, hx1⟩, hy0, hy1⟩ := sobel_range hbytes hp
    rw [hdata p hp]
    exact ⟨(convolute_pixels_iff hbytes hp).mpr hlevel sobelX hx0 hx1,
      (convolute_pixels_iff hbytes hp).mpr hlevel sobelY hy0 hy1⟩

end Step

/-- Rows of 0, 10 and 20. -/
def level : SobelImage := nine fun a _ => 10 * a

theorem sobel_correlation_level :
    level.convolute (Matrix.diagonal ![1, -2, 3]) 1 1 = 40 ∧
      ((level.performSobel.get rfl).sData 1 1).gY = level.correlation sobelY 1 1 ∧
      level.correlation sobelY 1 1 = 80 := by
  obtain ⟨hfilter, -, -, hsobel⟩ :=
    sobel_correlation_iff level (Matrix.diagonal ![1, -2, 3])
  have hbytes : level.Bytes := nine_bytes fun a _ => by omega
  have hdiagonal : OnDiagonal (Matrix.diagonal ![1, -2, 3]) :=
    ⟨fun a b hab => Matrix.diagonal_apply_ne _ hab, by decide, by decide⟩
  refine ⟨?_, (hsobel hbytes _ (Option.some_get _).symm (1, 1) (nine_interior _) ?_).2,
    by decide⟩
  · exact (hfilter.mpr hdiagonal level hbytes (1, 1) (nine_interior _)).trans (by decide)
  · exact fun a b => by
      rw [level, nine_pixels, nine_pixels]

/-- Nine pixels, one of which, above and to the right of the middle, is `v`. -/
def corner (v : ℤ) : SobelImage := nine fun a b => if a.val = 0 ∧ b.val = 2 then v else 0

/-- The pixel above and to the right of the middle is not on the diagonal. -/
theorem convolute_misses : ¬ ∀ (im : SobelImage) (filter : Filter) (i j : ℕ),
    (i, j) ∈ im.interior → im.convolute filter i j = im.correlation filter i j := by
  intro h
  have hmiss := h (corner 1) sobelX 1 1 (by decide)
  revert hmiss
  decide +kernel

/-! ### The written edge -/

/-- The two neighbours of a pixel that count. -/
def diagonal (im : SobelImage) (p : Pixel) : ℤ :=
  im.pixels (p.1 + 1) (p.2 + 1) - im.pixels (p.1 - 1) (p.2 - 1)

/-- The rows of `sobelX` have the sum 0. -/
theorem convolute_sobelX (im : SobelImage) (p : Pixel) : im.convolute sobelX p.1 p.2 = 0 := by
  have hsum : ∑ a : Fin 3, ∑ b : Fin 3,
      im.pixels (p.1 + a - 1) (p.2 + a - 1) * sobelX a b = 0 := by
    simp [Fin.sum_univ_three, sobelX]
  rw [convolute_eq, hsum]
  rfl

/-- Those of `sobelY` have the sums -4, 0 and 4. -/
theorem convolute_sobelY (im : SobelImage) (p : Pixel) :
    im.convolute sobelY p.1 p.2 = int32 (4 * im.diagonal p) := by
  have hsum : ∑ a : Fin 3, ∑ b : Fin 3,
      im.pixels (p.1 + a - 1) (p.2 + a - 1) * sobelY a b = 4 * im.diagonal p := by
    simp [Fin.sum_univ_three, sobelY, diagonal]
    ring
  rw [convolute_eq, hsum]

section Edge

variable {im im' : SobelImage} {p q : Pixel}

theorem diagonal_range (hbytes : im.Bytes) (hp : p ∈ im.interior) :
    -255 ≤ im.diagonal p ∧ im.diagonal p ≤ 255 := by
  obtain ⟨⟨hi, hi'⟩, hj, hj'⟩ := mem_interior.mp hp
  have hnext := hbytes (p.1 + 1) (p.2 + 1) hi' hj'
  have hlast := hbytes (p.1 - 1) (p.2 - 1) (by omega) (by omega)
  unfold diagonal
  omega

/-- The values that `performSobel` stores for a picture of bytes. -/
theorem sobelAt_eq (hbytes : im.Bytes) (hp : p ∈ im.interior) :
    im.sobelAt p = ⟨0, 4 * im.diagonal p, 4 * |im.diagonal p|⟩ := by
  obtain ⟨hlow, hhigh⟩ := diagonal_range hbytes hp
  have hgY : im.convolute sobelY p.1 p.2 = 4 * im.diagonal p := by
    rw [convolute_sobelY, int32_of_range (by omega) (by omega)]
  have hroot : Int.sqrt (0 ^ 2 + (4 * im.diagonal p) ^ 2) = 4 * |im.diagonal p| := by
    rw [zero_pow two_ne_zero, zero_add, sq, Int.sqrt_eq, Int.natCast_natAbs, abs_mul]
    rfl
  rw [sobelAt, convolute_sobelX, hgY, SVals.computeValues, hroot]

/-- The byte that is written for an edge is four times the rest of the difference after
division by 64. -/
theorem writeByte_sobel (hbytes : im.Bytes) (h : im.performSobel = some im')
    (hp : p ∈ im.interior) (threshold : ℤ) :
    ((im'.writeByte 1 threshold p).toNat : ℤ) = 4 * (|im.diagonal p| % 64) := by
  have hval : (im'.sData p.1 p.2).val = 4 * |im.diagonal p| := by
    rw [(performSobel_spec h).2 p hp, sobelAt_eq hbytes hp]
  rw [writeByte, if_pos rfl, hval, Image.toNat_fputc]
  omega

/-- What the second program makes of a pixel: 255 if it reaches the threshold. -/
theorem writeByte_threshold (im : SobelImage) (threshold : ℤ) (p : Pixel) :
    im.writeByte 2 threshold p = 255 ↔ threshold ≤ im.pixels p.1 p.2 := by
  have h : ¬ (2 : ℤ) = 1 := by norm_num
  rw [writeByte, if_neg h, if_pos rfl]
  by_cases hlt : im.pixels p.1 p.2 < threshold
  · rw [if_pos hlt]
    exact iff_of_false (by decide) (by omega)
  · rw [if_neg hlt]
    exact iff_of_true (by decide) (by omega)

/-- An edge that is at least as strong as another is written with a byte at least as
great, and kept whenever that one is kept, if and only if it is stronger in the other
direction or the rests after division by 64 are in the same order. -/
theorem edge_survives_iff (hbytes : im.Bytes) (h : im.performSobel = some im')
    (hp : p ∈ im.interior) (hq : q ∈ im.interior) :
    ((im'.sData p.1 p.2).val ≤ (im'.sData q.1 q.2).val →
      im'.writeByte 1 0 p ≤ im'.writeByte 1 0 q ∧
        ∀ (written : SobelImage) (threshold : ℤ),
          (∀ r : Pixel, written.pixels r.1 r.2 = (im'.writeByte 1 0 r).toNat) →
            written.writeByte 2 threshold p = 255 → written.writeByte 2 threshold q = 255) ↔
      |im.diagonal q| < |im.diagonal p| ∨ |im.diagonal p| % 64 ≤ |im.diagonal q| % 64 := by
  obtain ⟨-, hdata⟩ := performSobel_spec h
  have hbyte_p := writeByte_sobel hbytes h hp 0
  have hbyte_q := writeByte_sobel hbytes h hq 0
  rw [hdata p hp, hdata q hq, sobelAt_eq hbytes hp, sobelAt_eq hbytes hq, UInt8.le_iff_toNat_le]
  dsimp only
  constructor
  · intro hsurvives
    by_cases hstronger : |im.diagonal q| < |im.diagonal p|
    · exact Or.inl hstronger
    · have hle := (hsurvives (by omega)).1
      exact Or.inr (by omega)
  · intro hcond hval
    have hle : (im'.writeByte 1 0 p).toNat ≤ (im'.writeByte 1 0 q).toNat := by omega
    refine ⟨hle, fun written threshold hwritten hkept => ?_⟩
    rw [writeByte_threshold, hwritten] at hkept ⊢
    omega

end Edge

/-- Two pixels inside, with the differences 1 and `v`. -/
def edges (v : ℤ) : SobelImage where
  num_rows := 3
  num_columns := 4
  num_gray_levels := 255
  pixels i j := if i = 2 ∧ j = 2 then 1 else if i = 2 ∧ j = 3 then v else 0
  sData _ _ := {}

theorem edges_bytes {v : ℤ} (h0 : 0 ≤ v) (h255 : v ≤ 255) : (edges v).Bytes := by
  intro i j _ _
  simp only [edges]
  split_ifs <;> omega

theorem edge_survives_two : ((edges 2).performSobel.get rfl).writeByte 1 0 (1, 1) ≤
    ((edges 2).performSobel.get rfl).writeByte 1 0 (1, 2) :=
  ((edge_survives_iff (edges_bytes (by decide) (by decide)) (Option.some_get _).symm
    (by decide) (by decide)).mpr (by decide) (by decide +kernel)).1

/-- Four times 64 is written as 0. -/
theorem strong_edge_lost : ¬ ∀ (im im' : SobelImage) (p q : Pixel), im.Bytes →
    im.performSobel = some im' → p ∈ im.interior → q ∈ im.interior →
      (im'.sData p.1 p.2).val ≤ (im'.sData q.1 q.2).val →
        im'.writeByte 1 0 p ≤ im'.writeByte 1 0 q := by
  intro h
  have hlost := h (edges 64) ((edges 64).performSobel.get rfl) (1, 1) (1, 2)
    (edges_bytes (by decide) (by decide)) (Option.some_get _).symm (by decide) (by decide)
    (by decide +kernel)
  revert hlost
  decide +kernel

end SobelImage

end SchoolProjects.Vision
