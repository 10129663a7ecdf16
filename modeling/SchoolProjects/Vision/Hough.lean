import Mathlib.Analysis.SpecialFunctions.Trigonometric.Basic
import SchoolProjects.Lib.Truncate
import SchoolProjects.Vision.Sobel

/-! The Hough transform (`image.h` of the third homework). Each edge pixel votes for one
cell of every column of the accumulator, and a vote outside the accumulator is dropped
without a word. The diagonal of the image is long enough that none is. Sines and cosines
are exact, and a cell, which is read as an `int`, is reduced like a sum. -/

namespace SchoolProjects.Vision

/-- `class Image`, with the accumulator. The numbers of type `double` in it are
integers. -/
structure HoughImage extends SobelImage where
  houghData : ℕ → ℕ → ℤ
  maxRho : ℕ
  intervals : ℕ

namespace HoughImage

/-- `AllocateSpaceAndSetSize`; the new arrays hold whatever memory does. The root is
rounded down exactly as long as the sum of the squares is below `2 ^ 53`. -/
def AllocateSpaceAndSetSize (pixels houghData : ℕ → ℕ → ℤ) (sData : ℕ → ℕ → SVals)
    (im : HoughImage) (num_rows num_columns : ℕ) : HoughImage where
  num_rows := num_rows
  num_columns := num_columns
  num_gray_levels := im.num_gray_levels
  pixels := pixels
  sData := sData
  houghData := houghData
  maxRho := Nat.sqrt (num_rows ^ 2 + num_columns ^ 2)
  intervals := 180

/-- `none` is a call of `abort`. -/
def getHoughPixel (im : HoughImage) (i j : ℕ) (ignore : Bool) : Option ℤ :=
  if im.maxRho ≤ i ∨ im.intervals ≤ j then (if ignore then some 0 else none)
  else some (int32 (im.houghData i j))

def setHoughPixel (im : HoughImage) (i j : ℕ) (value : ℤ) (ignore : Bool) :
    Option HoughImage :=
  if im.maxRho ≤ i ∨ im.intervals ≤ j then (if ignore then some im else none)
  else some { im with
    houghData := Function.update im.houghData i (Function.update (im.houghData i) j value) }

/-- `setHoughPixel(k, r, getHoughPixel(k, r, true) + 1, true)` -/
def vote (im : HoughImage) (k r : ℕ) : Option HoughImage :=
  (im.getHoughPixel k r true).bind fun v => im.setHoughPixel k r (int32 (v + 1)) true

section Transform

variable {K : Type*} [Field K] [LinearOrder K] [FloorRing K]

/-- `abs((int)value)`, where `cos r` and `sin r` are those of `r * pi / 180`. -/
def index (cos sin : ℕ → K) (p : Pixel) (r : ℕ) : ℕ :=
  (trunc (p.1 * cos r + p.2 * sin r)).natAbs

/-- The two inner loops of `performHoughTransform`. -/
def votePixel (cos sin : ℕ → K) (im : HoughImage) (p : Pixel) : Option HoughImage :=
  if im.pixels p.1 p.2 = 255 then
    (List.range im.intervals).foldlM (fun im r => im.vote (index cos sin p r) r) im
  else some im

def performHoughTransform (cos sin : ℕ → K) (im : HoughImage) : Option HoughImage :=
  (Image.scan im.num_rows im.num_columns).foldlM (votePixel cos sin) im

end Transform

/-! ### One vote -/

/-- A vote, which is dropped outside the accumulator. -/
def count (im : HoughImage) (b : ℕ × ℕ) : HoughImage :=
  if b.1 < im.maxRho ∧ b.2 < im.intervals then { im with
    houghData := Function.update im.houghData b.1
      (Function.update (im.houghData b.1) b.2 (int32 (im.houghData b.1 b.2 + 1))) }
  else im

theorem vote_eq (im : HoughImage) (k r : ℕ) : im.vote k r = some (im.count (k, r)) := by
  unfold vote getHoughPixel setHoughPixel count
  by_cases h : k < im.maxRho ∧ r < im.intervals
  · have hin : ¬ (im.maxRho ≤ k ∨ im.intervals ≤ r) := by omega
    simp [h, hin, int32_add_int32]
  · have hout : im.maxRho ≤ k ∨ im.intervals ≤ r := by omega
    simp [h, hout]

/-- A vote keeps everything but the accumulator. -/
theorem count_frame (im : HoughImage) (b : ℕ × ℕ) : (im.count b).toSobelImage = im.toSobelImage ∧
    (im.count b).maxRho = im.maxRho ∧ (im.count b).intervals = im.intervals := by
  unfold count
  split_ifs <;> exact ⟨rfl, rfl, rfl⟩

theorem houghData_count (im : HoughImage) (b c : ℕ × ℕ) : (im.count b).houghData c.1 c.2 =
    if c = b ∧ c.1 < im.maxRho ∧ c.2 < im.intervals then int32 (im.houghData c.1 c.2 + 1)
    else im.houghData c.1 c.2 := by
  unfold count
  by_cases hb : b.1 < im.maxRho ∧ b.2 < im.intervals
  · rw [if_pos hb]
    refine (update_update_apply im.houghData b c _).trans ?_
    by_cases hc : c = b
    · subst hc
      simp [hb]
    · simp [hc]
  · rw [if_neg hb]
    refine (if_neg ?_).symm
    rintro ⟨rfl, h⟩
    exact hb h

/-! ### All the votes -/

/-- Votes in turn. -/
def countAll (im : HoughImage) (bs : List (ℕ × ℕ)) : HoughImage := bs.foldl count im

theorem countAll_append (im : HoughImage) (bs cs : List (ℕ × ℕ)) :
    im.countAll (bs ++ cs) = (im.countAll bs).countAll cs := List.foldl_append

theorem countAll_frame (bs : List (ℕ × ℕ)) (im : HoughImage) :
    (im.countAll bs).toSobelImage = im.toSobelImage ∧ (im.countAll bs).maxRho = im.maxRho ∧
      (im.countAll bs).intervals = im.intervals := by
  induction bs generalizing im with
  | nil => exact ⟨rfl, rfl, rfl⟩
  | cons b bs ih =>
    obtain ⟨himage, hrho, hcols⟩ := im.count_frame b
    obtain ⟨ihimage, ihrho, ihcols⟩ := ih (im.count b)
    exact ⟨ihimage.trans himage, ihrho.trans hrho, ihcols.trans hcols⟩

/-- A cell of the accumulator after some votes. -/
theorem houghData_countAll (bs : List (ℕ × ℕ)) (im : HoughImage) (c : ℕ × ℕ) :
    (im.countAll bs).houghData c.1 c.2 =
      if c ∈ bs ∧ c.1 < im.maxRho ∧ c.2 < im.intervals then
        int32 (im.houghData c.1 c.2 + bs.count c)
      else im.houghData c.1 c.2 := by
  induction bs generalizing im with
  | nil => simp [countAll]
  | cons b bs ih =>
    have hstep := ih (im.count b)
    obtain ⟨-, hrho, hcols⟩ := im.count_frame b
    rw [hrho, hcols, houghData_count] at hstep
    refine hstep.trans ?_
    by_cases hin : c.1 < im.maxRho ∧ c.2 < im.intervals
    · by_cases hb : c = b
      · subst hb
        by_cases hbs : c ∈ bs
        · simp only [hbs, hin, and_self, if_true, List.mem_cons, or_true, List.count_cons_self,
            int32_add_int32]
          push_cast
          congr 1
          ring
        · simp [hbs, hin, List.count_eq_zero.mpr hbs]
      · simp [hb, hin, List.count_cons_of_ne (Ne.symm hb)]
    · simp [hin]

section Transform

variable {K : Type*} [Field K] [LinearOrder K] [FloorRing K]

/-- The pixels of value 255. -/
def edges (im : HoughImage) : List Pixel :=
  (Image.scan im.num_rows im.num_columns).filter fun p => im.pixels p.1 p.2 = 255

/-- The votes of one pixel. -/
def ballot (cos sin : ℕ → K) (intervals : ℕ) (p : Pixel) : List (ℕ × ℕ) :=
  (List.range intervals).map fun r => (index cos sin p r, r)

/-- The votes of all edge pixels. -/
def ballots (cos sin : ℕ → K) (im : HoughImage) : List (ℕ × ℕ) :=
  im.edges.flatMap (ballot cos sin im.intervals)

theorem votePixel_eq (cos sin : ℕ → K) (im : HoughImage) (p : Pixel) : votePixel cos sin im p =
    some (if im.pixels p.1 p.2 = 255 then im.countAll (ballot cos sin im.intervals p)
      else im) := by
  unfold votePixel
  split_ifs
  · simp only [vote_eq]
    rw [ballot, countAll, List.foldl_map]
    exact List.foldlM_pure
  · rfl

/-- What `performHoughTransform` does: it counts the votes of the edge pixels. -/
theorem performHoughTransform_eq (cos sin : ℕ → K) (im : HoughImage) :
    performHoughTransform cos sin im = some (im.countAll (ballots cos sin im)) := by
  suffices hloop : ∀ (ps : List Pixel) (im' : HoughImage), im'.toSobelImage = im.toSobelImage →
      im'.intervals = im.intervals → ps.foldlM (votePixel cos sin) im' =
        some (im'.countAll ((ps.filter fun p => im.pixels p.1 p.2 = 255).flatMap
          (ballot cos sin im.intervals))) from hloop _ im rfl rfl
  intro ps
  induction ps with
  | nil => intros; rfl
  | cons p ps ih =>
    intro im' himage hcols
    rw [List.foldlM_cons, votePixel_eq, himage, hcols]
    by_cases hp : im.pixels p.1 p.2 = 255
    · obtain ⟨himage', -, hcols'⟩ := countAll_frame (ballot cos sin im.intervals p) im'
      have hrest := ih _ (himage'.trans himage) (hcols'.trans hcols)
      rw [if_pos hp, List.filter_cons_of_pos (by simpa using hp), List.flatMap_cons,
        countAll_append]
      exact hrest
    · rw [if_neg hp, List.filter_cons_of_neg (by simpa using hp)]
      exact ih im' himage hcols

/-! ### The column totals -/

def columnTotal (im : HoughImage) (r : ℕ) : ℤ :=
  ∑ k ∈ Finset.range im.maxRho, im.houghData k r

/-- Each cell that gets votes holds an `int` and still does with them. -/
def Room (cos sin : ℕ → K) (im : HoughImage) : Prop := ∀ b ∈ ballots cos sin im,
  -2 ^ 31 ≤ im.houghData b.1 b.2 ∧ im.houghData b.1 b.2 + (ballots cos sin im).count b < 2 ^ 31

/-- No pixel votes twice for a cell. -/
theorem nodup_ballot (cos sin : ℕ → K) (intervals : ℕ) (p : Pixel) :
    (ballot cos sin intervals p).Nodup :=
  List.Nodup.map (fun _ _ h => (Prod.mk.inj h).2) List.nodup_range

theorem count_ballots_le (cos sin : ℕ → K) (im : HoughImage) (b : ℕ × ℕ) :
    (ballots cos sin im).count b ≤ im.edges.length := by
  rw [ballots, List.count_flatMap]
  refine (List.sum_le_card_nsmul _ 1 ?_).trans (by simp)
  simp only [List.mem_map, Function.comp_apply]
  rintro _ ⟨p, -, rfl⟩
  exact List.nodup_iff_count_le_one.mp (nodup_ballot cos sin im.intervals p) b

/-- There is room for the votes where there is for one of each edge pixel. -/
theorem room_of_le (cos sin : ℕ → K) {im : HoughImage} (hlow : ∀ k r, -2 ^ 31 ≤ im.houghData k r)
    (hhigh : ∀ k r, im.houghData k r + im.edges.length < 2 ^ 31) : Room cos sin im := by
  intro b _
  have hle := count_ballots_le cos sin im b
  have hcell := hhigh b.1 b.2
  exact ⟨hlow b.1 b.2, by omega⟩

theorem sum_count_column (M r : ℕ) (bs : List (ℕ × ℕ)) :
    ∑ k ∈ Finset.range M, bs.count (k, r) = bs.countP fun b => b.1 < M ∧ b.2 = r := by
  induction bs with
  | nil => simp
  | cons b bs ih =>
    simp only [List.count_cons, List.countP_cons, Finset.sum_add_distrib, ih]
    congr 1
    obtain ⟨k, r'⟩ := b
    by_cases hr : r' = r
    · simp [hr, Prod.ext_iff, Finset.sum_ite_eq]
    · simp [hr, Prod.ext_iff]

/-- In a column every edge pixel has one vote, and none is dropped. -/
theorem countP_ballots (cos sin : ℕ → K) {im : HoughImage}
    (hindex : ∀ p ∈ im.edges, ∀ r, index cos sin p r < im.maxRho) {r : ℕ}
    (hr : r < im.intervals) :
    (ballots cos sin im).countP (fun b => b.1 < im.maxRho ∧ b.2 = r) = im.edges.length := by
  have hone : ∀ p ∈ im.edges,
      (ballot cos sin im.intervals p).countP (fun b => b.1 < im.maxRho ∧ b.2 = r) = 1 := by
    intro p hp
    rw [ballot, List.countP_map]
    have hcongr : (List.range im.intervals).countP
        ((fun b : ℕ × ℕ => decide (b.1 < im.maxRho ∧ b.2 = r)) ∘ fun r => (index cos sin p r, r)) =
        (List.range im.intervals).count r := by
      refine List.countP_congr fun r' _ => ?_
      simp [hindex p hp r']
    rw [hcongr]
    exact List.count_eq_one_of_mem List.nodup_range (List.mem_range.mpr hr)
  rw [ballots, List.countP_flatMap]
  have hmap : im.edges.map (List.countP (fun b => b.1 < im.maxRho ∧ b.2 = r) ∘
      ballot cos sin im.intervals) = im.edges.map fun _ => 1 := List.map_congr_left hone
  rw [hmap]
  simp

/-- Every column gains the number of edge pixels where no vote is dropped and there is
room for all. -/
theorem columnTotal_countAll (cos sin : ℕ → K) {im : HoughImage} (hroom : Room cos sin im)
    (hindex : ∀ p ∈ im.edges, ∀ r, index cos sin p r < im.maxRho) {r : ℕ}
    (hr : r < im.intervals) :
    (im.countAll (ballots cos sin im)).columnTotal r = im.columnTotal r + im.edges.length := by
  have hcell : ∀ k ∈ Finset.range im.maxRho, (im.countAll (ballots cos sin im)).houghData k r =
      im.houghData k r + (ballots cos sin im).count (k, r) := by
    intro k hk
    rw [houghData_countAll (ballots cos sin im) im (k, r)]
    by_cases hmem : (k, r) ∈ ballots cos sin im
    · obtain ⟨hlow, hhigh⟩ := hroom (k, r) hmem
      rw [if_pos ⟨hmem, Finset.mem_range.mp hk, hr⟩]
      exact int32_of_range (hlow.trans (by omega)) hhigh
    · simp [hmem, List.count_eq_zero.mpr hmem]
  rw [columnTotal, (countAll_frame _ im).2.1, Finset.sum_congr rfl hcell, Finset.sum_add_distrib,
    ← Nat.cast_sum, sum_count_column, countP_ballots cos sin hindex hr]
  rfl

end Transform

/-! ### The diagonal -/

/-- What `AllocateSpaceAndSetSize` makes of the size of the image. -/
structure Sized (im : HoughImage) : Prop where
  maxRho : im.maxRho = Nat.sqrt (im.num_rows ^ 2 + im.num_columns ^ 2)
  intervals : im.intervals = 180

theorem sized_allocate (pixels houghData : ℕ → ℕ → ℤ) (sData : ℕ → ℕ → SVals) (im : HoughImage)
    (num_rows num_columns : ℕ) :
    (AllocateSpaceAndSetSize pixels houghData sData im num_rows num_columns).Sized := ⟨rfl, rfl⟩

/-- The constant of the class. -/
noncomputable def pi : ℝ := 3.1415926535897

noncomputable def cosine (r : ℕ) : ℝ := Real.cos (r * pi / 180)

noncomputable def sine (r : ℕ) : ℝ := Real.sin (r * pi / 180)

/-- At every angle a pixel is less far out than the diagonal is long. -/
theorem natAbs_trunc_lt {R C i j : ℕ} (hi : i < R) (hj : j < C) (θ : ℝ) :
    (trunc (i * Real.cos θ + j * Real.sin θ)).natAbs < Nat.sqrt (R ^ 2 + C ^ 2) := by
  obtain ⟨a, rfl⟩ := Nat.exists_eq_add_of_lt hi
  obtain ⟨b, rfl⟩ := Nat.exists_eq_add_of_lt hj
  have hsq := natAbs_trunc_sq_le (Real.cos_sq_add_sin_sq θ) i j
  calc (trunc (i * Real.cos θ + j * Real.sin θ)).natAbs
      ≤ Nat.sqrt (i ^ 2 + j ^ 2) := Nat.le_sqrt'.mpr hsq
    _ < Nat.sqrt ((i + 1) ^ 2 + (j + 1) ^ 2) := sqrt_add_sq_lt i j
    _ ≤ Nat.sqrt ((i + a + 1) ^ 2 + (j + b + 1) ^ 2) := Nat.sqrt_le_sqrt (by gcongr <;> omega)

theorem index_lt {im : HoughImage} (h : im.Sized) {p : Pixel} (hp : p ∈ im.edges) (r : ℕ) :
    index cosine sine p r < im.maxRho := by
  obtain ⟨hrow, hcol⟩ := Image.mem_scan.mp (List.mem_of_mem_filter hp)
  rw [h.maxRho]
  exact natAbs_trunc_lt hrow hcol (r * pi / 180)

/-- No vote is lost: at every angle the index is below the length of the diagonal, and
where there is room for the votes each column gains one for each edge pixel. -/
theorem hough_votes_kept :
    (∀ (R C i j : ℕ) (θ : ℝ), i < R → j < C →
      |trunc (i * Real.cos θ + j * Real.sin θ)| < trunc (√((R : ℝ) ^ 2 + (C : ℝ) ^ 2))) ∧
    ∀ im : HoughImage, im.Sized → Room cosine sine im →
      ∃ im', performHoughTransform cosine sine im = some im' ∧
        ∀ r < im.intervals, im'.columnTotal r = im.columnTotal r + im.edges.length := by
  refine ⟨fun R C i j θ hi hj => ?_, fun im hsized hroom => ?_⟩
  · have hroot : trunc (√((R : ℝ) ^ 2 + (C : ℝ) ^ 2)) = Nat.sqrt (R ^ 2 + C ^ 2) := by
      rw [trunc_of_nonneg (Real.sqrt_nonneg _), ← Real.floor_real_sqrt_eq_nat_sqrt]
      push_cast
      rfl
    rw [hroot, Int.abs_eq_natAbs]
    exact_mod_cast natAbs_trunc_lt hi hj θ
  · refine ⟨_, performHoughTransform_eq cosine sine im, fun r hr => ?_⟩
    exact columnTotal_countAll cosine sine hroom (fun p hp r => index_lt hsized hp r) hr

/-- An edge pixel alone, and an accumulator full of one number. -/
def single (v : ℤ) : HoughImage :=
  AllocateSpaceAndSetSize (fun _ _ => 255) (fun _ _ => v) (fun _ _ => {})
    ⟨⟨0, 0, 0, fun _ _ => 0, fun _ _ => {}⟩, fun _ _ => 0, 0, 0⟩ 1 1

theorem sized_single (v : ℤ) : (single v).Sized := sized_allocate _ _ _ _ 1 1

theorem edges_single (v : ℤ) : (single v).edges = [(0, 0)] := rfl

theorem maxRho_single (v : ℤ) : (single v).maxRho = 1 := by
  show Nat.sqrt 2 = 1
  exact (Nat.eq_sqrt.mpr ⟨by decide, by decide⟩).symm

theorem hough_votes_kept_single :
    (|trunc ((1 : ℕ) * Real.cos 2 + (0 : ℕ) * Real.sin 2)| <
      trunc (√(((2 : ℕ) : ℝ) ^ 2 + ((1 : ℕ) : ℝ) ^ 2))) ∧
    ∃ im', performHoughTransform cosine sine (single 7) = some im' ∧
      ∀ r < (single 7).intervals, im'.columnTotal r = (single 7).columnTotal r + 1 :=
  ⟨hough_votes_kept.1 2 1 1 0 2 (by decide) (by decide),
    hough_votes_kept.2 (single 7) (sized_single 7)
      (room_of_le cosine sine (fun _ _ => show -2 ^ 31 ≤ (7 : ℤ) by decide)
        (fun _ _ => show (7 : ℤ) + 1 < 2 ^ 31 by decide))⟩

/-- A cell that holds the greatest `int` loses by a vote. -/
theorem hough_votes_overflow : ¬ ∀ im : HoughImage, im.Sized →
    ∃ im', performHoughTransform cosine sine im = some im' ∧
      ∀ r < im.intervals, im'.columnTotal r = im.columnTotal r + im.edges.length := by
  intro h
  obtain ⟨im', him', htotal⟩ := h (single (2 ^ 31 - 1)) (sized_single _)
  rw [performHoughTransform_eq] at him'
  obtain rfl := Option.some.inj him'
  have hmem : ((0, 0) : ℕ × ℕ) ∈ ballots cosine sine (single (2 ^ 31 - 1)) := by
    have hindex : index cosine sine (0, 0) 0 = 0 := by simp [index]
    refine List.mem_flatMap.mpr ⟨(0, 0), by simp [edges_single], ?_⟩
    exact List.mem_map.mpr ⟨0, List.mem_range.mpr (by decide), by rw [hindex]⟩
  have hcount : (ballots cosine sine (single (2 ^ 31 - 1))).count (0, 0) = 1 :=
    le_antisymm (count_ballots_le cosine sine (single (2 ^ 31 - 1)) (0, 0))
      (List.count_pos_iff.mpr hmem)
  have hcell := houghData_countAll (ballots cosine sine (single (2 ^ 31 - 1)))
    (single (2 ^ 31 - 1)) (0, 0)
  rw [if_pos ⟨hmem, by simp [maxRho_single], by decide⟩, hcount] at hcell
  have hfirst := htotal 0 (by decide)
  simp only [columnTotal, (countAll_frame _ (single (2 ^ 31 - 1))).2.1, maxRho_single,
    Finset.sum_range_one, hcell] at hfirst
  exact absurd hfirst (by decide)

end HoughImage

end SchoolProjects.Vision
