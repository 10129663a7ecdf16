import SchoolProjects.Vision.Comments
import SchoolProjects.Vision.Objects

/-! Centres of objects that are read from a file, with sums of type `int`. `markCenters`
writes to the centre without a look at the size of the image. As long as the sums are in
the range of `int` a centre lies among the pixels of its object; a row of 65537 pixels is
enough for a sum that is not. -/

namespace SchoolProjects.Vision

namespace Image

/-- `pixels_[obj->centerRow][obj->centerCol] = 255`; `none` is a write outside the
array. -/
def markCenter (im : Image) (obj : Object) : Option Image :=
  if (0 ≤ obj.centerRow ∧ obj.centerRow < im.num_rows) ∧
      0 ≤ obj.centerCol ∧ obj.centerCol < im.num_columns then
    some (im.withPixel obj.centerRow.toNat obj.centerCol.toNat 255)
  else none

/-! ### What is recorded while a file is read -/

/-- The records of the pixel loop of `ReadImage` are those of the pixels that are read. -/
theorem readPixels_objects {int : ℤ → ℤ} {p2Flag : Bool} {ps : List Pixel} {bytes : List UInt8}
    {im im' : Image} (h : readPixels p2Flag ps bytes im int = some (true, im'))
    (hnodup : ps.Nodup) : im'.objects = ps.foldl (recordOne int im'.pixels) im.objects ∧
      ∀ q : Pixel, q ∉ ps → im'.pixels q.1 q.2 = im.pixels q.1 q.2 := by
  induction ps generalizing im bytes with
  | nil =>
    obtain rfl : im = im' := by simpa [readPixels] using h
    exact ⟨rfl, fun _ _ => rfl⟩
  | cons p ps ih =>
    cases bytes with
    | nil => simp [readPixels] at h
    | cons byte bytes =>
      obtain ⟨im₁, hone, hrest⟩ := Option.bind_eq_some_iff.mp h
      obtain ⟨hp, hps⟩ := List.nodup_cons.mp hnodup
      obtain ⟨hobjects, hpixels⟩ := ih hrest hps
      have hkept := readPixel_cases hone
      have hpix : ∀ q : Pixel, im₁.pixels q.1 q.2 =
          if q = p then (byte.toNat : ℤ) else im.pixels q.1 q.2 := by
        intro q
        rw [hkept.pixels, ← pixels_withPixel]
        split_ifs <;> rfl
      have hbyte : im'.pixels p.1 p.2 = byte.toNat := by
        rw [hpixels p hp, hpix, if_pos rfl]
      refine ⟨?_, fun q hq => ?_⟩
      · have hstep : im₁.objects = recordOne int im'.pixels im.objects p := by
          rw [hkept.objects, recordOne, hbyte]
          by_cases hpos : 0 < byte.toNat
          · rw [if_pos hpos, if_pos (by exact_mod_cast hpos)]
            rfl
          · rw [if_neg hpos, if_neg (by exact_mod_cast hpos)]
            rfl
        rw [hobjects, List.foldl_cons, hstep]
      · obtain ⟨hqp, hqps⟩ := not_or.mp (mt List.mem_cons.mpr hq)
        rw [hpixels q hqps, hpix, if_neg hqp]

end Image

namespace GrayImage

open Text

/-- A size that can be allocated is not negative, unless there are no rows. -/
theorem scan_size_t {r c : ℤ} (hr : -2 ^ 31 ≤ r ∧ r < 2 ^ 31) (hc : -2 ^ 31 ≤ c ∧ c < 2 ^ 31)
    (halloc : ¬ (2 ^ 63 ≤ 8 * size_t r ∨ (0 < size_t r ∧ 2 ^ 63 ≤ 4 * size_t c))) :
    Image.scan r.toNat c.toNat = Image.scan (size_t r) (size_t c) := by
  have hr' : size_t r = r.toNat := by
    unfold size_t at halloc ⊢
    omega
  rw [hr'] at halloc ⊢
  by_cases h0 : r.toNat = 0
  · rw [h0]
    rfl
  · have hc' : size_t c = c.toNat := by
      unfold size_t at halloc ⊢
      omega
    rw [hc']

/-- The pixel loop in a run of `ReadImage`. -/
theorem readPixels_of_readImage {memory : ℕ → ℕ → ℤ} {im im' : GrayImage} {p2Flag : Bool}
    {file : Text} {int : ℤ → ℤ} (h : ReadImage memory im p2Flag file int = some (true, im')) :
    ∃ bytes, Image.readPixels p2Flag (Image.scan im'.num_rows im'.num_columns) bytes
      (im.sized memory im'.num_rows im'.num_columns) int = some (true, im'.toImage) := by
  obtain ⟨r, c, l, bytes, hheader, hsize, hread, -⟩ := readImage_cases h
  obtain ⟨hr, hc, -⟩ := header_range hheader
  obtain ⟨hrows, hcols⟩ := Image.readPixels_size hread
  change im'.num_rows = size_t r at hrows
  change im'.num_columns = size_t c at hcols
  rw [scan_size_t hr hc hsize, ← hrows, ← hcols] at hread
  exact ⟨bytes, hread⟩

/-- `ReadImage` fills the map of a new image with the records of the pixels it reads. -/
theorem readImage_objects {memory : ℕ → ℕ → ℤ} {im' : GrayImage} {p2Flag : Bool} {file : Text}
    {int : ℤ → ℤ} (h : ReadImage memory new p2Flag file int = some (true, im')) :
    im'.objects = im'.recordPixels int := by
  obtain ⟨bytes, hread⟩ := readPixels_of_readImage h
  exact (Image.readPixels_objects hread (Image.nodup_scan _ _)).1

end GrayImage

namespace Image

/-! ### Quotients that are cut off -/

section Quotient

variable {k n p : ℤ}

theorem tdiv_of_neg (hk : k < 0) : k.tdiv n = -(-k / n) := by
  rw [← Int.tdiv_eq_ediv_of_nonneg (by omega), Int.neg_tdiv, neg_neg]

theorem le_tdiv_iff (hn : 1 ≤ n) (hp : 0 ≤ p) :
    p ≤ k.tdiv n ↔ p * n ≤ k ∨ p = 0 ∧ -n < k := by
  rcases le_or_gt 0 k with hk | hk
  · rw [Int.tdiv_eq_ediv_of_nonneg hk, Int.le_ediv_iff_mul_le (by omega)]
    constructor
    · exact Or.inl
    · rintro (h | ⟨rfl, -⟩)
      · exact h
      · simpa using hk
  · have hprod : 0 ≤ p * n := mul_nonneg hp (by omega)
    have hquot : 0 ≤ -k / n := Int.ediv_nonneg (by omega) (by omega)
    have hsmall : -k / n < 1 ↔ -k < 1 * n := Int.ediv_lt_iff_lt_mul (by omega)
    rw [tdiv_of_neg hk]
    constructor
    · intro h
      exact Or.inr ⟨by omega, by omega⟩
    · rintro (h | ⟨rfl, h⟩)
      · omega
      · omega

theorem tdiv_le_iff (hn : 1 ≤ n) (hp : 0 ≤ p) : k.tdiv n ≤ p ↔ k < (p + 1) * n := by
  rcases le_or_gt 0 k with hk | hk
  · rw [Int.tdiv_eq_ediv_of_nonneg hk, ← Int.lt_add_one_iff, Int.ediv_lt_iff_lt_mul (by omega)]
  · have hprod : 0 ≤ (p + 1) * n := mul_nonneg (by omega) (by omega)
    have hquot : 0 ≤ -k / n := Int.ediv_nonneg (by omega) (by omega)
    rw [tdiv_of_neg hk]
    constructor
    · intro _
      omega
    · intro _
      omega

/-- The quotient by a positive number is an `int`. -/
theorem int32_tdiv (hn : 1 ≤ n) (h0 : -2 ^ 31 ≤ k) (h1 : k < 2 ^ 31) :
    int32 (k.tdiv n) = k.tdiv n := by
  rcases le_or_gt 0 k with hk | hk
  · rw [Int.tdiv_eq_ediv_of_nonneg hk]
    have hle := Int.ediv_le_self n hk
    have hquot : 0 ≤ k / n := Int.ediv_nonneg hk (by omega)
    exact int32_of_range (by omega) (by omega)
  · rw [tdiv_of_neg hk]
    have hle := Int.ediv_le_self n (a := -k) (by omega)
    have hquot : 0 ≤ -k / n := Int.ediv_nonneg (by omega) (by omega)
    exact int32_of_range (by omega) (by omega)

end Quotient

/-! ### The centre in the bounding box -/

/-- A number between the least and the greatest of a coordinate. -/
def Between (s : Finset (ℤ × ℤ)) (coord : ℤ × ℤ → ℤ) (z : ℤ) : Prop :=
  (∃ x ∈ s, coord x ≤ z) ∧ ∃ y ∈ s, z ≤ coord y

/-- The record has pixels, its centre is in their bounding box, and it is in the image. -/
def Centred (im : Image) (v : ℤ) (obj : ObjData) : Prop :=
  1 ≤ obj.area ∧ ∃ o, obj.findCenter int32 = some o ∧
    Between (im.region v) Prod.fst o.centerRow ∧ Between (im.region v) Prod.snd o.centerCol ∧
    (im.markCenter o).isSome

/-- The sum of a coordinate and the number of the pixels, both taken as numbers of type
`int`, are in the proportion of some coordinates; a sum just below zero is cut off to
zero. -/
def Fits (s : Finset (ℤ × ℤ)) (coord : ℤ × ℤ → ℤ) : Prop :=
  (∃ x ∈ s, coord x * int32 s.card ≤ int32 (∑ z ∈ s, coord z) ∨
    coord x = 0 ∧ -int32 s.card < int32 (∑ z ∈ s, coord z)) ∧
  ∃ y ∈ s, int32 (∑ z ∈ s, coord z) < (coord y + 1) * int32 s.card

theorem between_tdiv_iff {s : Finset (ℤ × ℤ)} {coord : ℤ × ℤ → ℤ} (hn : 1 ≤ int32 s.card)
    (h0 : ∀ x ∈ s, 0 ≤ coord x) :
    Between s coord (int32 ((int32 (∑ z ∈ s, coord z)).tdiv (int32 s.card))) ↔ Fits s coord := by
  have hrange := (int32_eq_iff.mp (rfl : int32 (∑ z ∈ s, coord z) = _)).2
  rw [int32_tdiv hn hrange.1 hrange.2]
  refine and_congr (exists_congr fun x => and_congr_right fun hx => ?_)
    (exists_congr fun y => and_congr_right fun hy => ?_)
  · exact le_tdiv_iff hn (h0 x hx)
  · exact tdiv_le_iff hn (h0 y hy)

/-- A centre in the bounding box is in the image. -/
theorem isSome_markCenter {im : Image} {v : ℤ} {o : Object}
    (hrow : Between (im.region v) Prod.fst o.centerRow)
    (hcol : Between (im.region v) Prod.snd o.centerCol) : (im.markCenter o).isSome := by
  have hin : ∀ x ∈ im.region v,
      (0 ≤ x.1 ∧ x.1 < im.num_rows) ∧ 0 ≤ x.2 ∧ x.2 < im.num_columns := by
    intro x hx
    obtain ⟨i, j, rfl, ⟨hi, hj⟩, -⟩ := mem_region.mp hx
    exact ⟨⟨Int.natCast_nonneg i, Int.ofNat_lt.mpr hi⟩, Int.natCast_nonneg j, Int.ofNat_lt.mpr hj⟩
  obtain ⟨⟨x, hx, hxr⟩, y, hy, hyr⟩ := hrow
  obtain ⟨⟨x', hx', hxc⟩, y', hy', hyc⟩ := hcol
  have h1 := hin x hx
  have h2 := hin y hy
  have h3 := hin x' hx'
  have h4 := hin y' hy'
  rw [markCenter, if_pos (by omega)]
  rfl

/-- The record of one object after `findCenters`. -/
theorem centred_iff {im : Image} {v : ℤ} {obj : ObjData} (h : im.recordPixels int32 v = some obj) :
    im.Centred v obj ↔ 1 ≤ int32 (im.region v).card ∧ Fits (im.region v) Prod.fst ∧
      Fits (im.region v) Prod.snd := by
  rw [recordPixels_eq sums_int32] at h
  split_ifs at h
  obtain rfl := Option.some.inj h
  unfold Centred
  dsimp only
  refine and_congr_right fun hn => ?_
  have hfst := between_tdiv_iff hn fun x (hx : x ∈ im.region v) => (region_nonneg hx).1
  have hsnd := between_tdiv_iff hn fun x (hx : x ∈ im.region v) => (region_nonneg hx).2
  have hzero : int32 (im.region v).card ≠ 0 := by omega
  rw [← hfst, ← hsnd]
  simp only [ObjData.findCenter, if_neg hzero, Option.some.injEq, exists_eq_left']
  constructor
  · rintro ⟨hrow, hcol, -⟩
    exact ⟨hrow, hcol⟩
  · rintro ⟨hrow, hcol⟩
    exact ⟨hrow, hcol, isSome_markCenter hrow hcol⟩

/-- Sums in the range of `int` fit. -/
theorem fits_of_lt {s : Finset (ℤ × ℤ)} {coord : ℤ × ℤ → ℤ} (hs : s.Nonempty)
    (h0 : ∀ x ∈ s, 0 ≤ coord x) (hn : (s.card : ℤ) < 2 ^ 31)
    (hsum : ∑ z ∈ s, coord z < 2 ^ 31) : Fits s coord := by
  have hnonneg := Finset.sum_nonneg h0
  have hcard : (0 : ℤ) < s.card := by exact_mod_cast hs.card_pos
  rw [Fits, int32_of_range (by omega) hn, int32_of_range (by omega) hsum]
  obtain ⟨x, hx, hmin⟩ := s.exists_min_image coord hs
  obtain ⟨y, hy, hmax⟩ := s.exists_max_image coord hs
  have hlow : s.card • coord x ≤ ∑ z ∈ s, coord z := Finset.card_nsmul_le_sum s coord _ hmin
  have hhigh : ∑ z ∈ s, coord z ≤ s.card • coord y := Finset.sum_le_card_nsmul s coord _ hmax
  rw [nsmul_eq_mul, mul_comm] at hlow hhigh
  refine ⟨⟨x, hx, Or.inl hlow⟩, y, hy, ?_⟩
  linarith [add_one_mul (coord y) (s.card : ℤ)]

end Image

namespace GrayImage

open Text

/-- The centres of the objects of a file are in their bounding boxes, and so in the image,
if and only if the sums fit for each of them, which they do below `2 ^ 31`. -/
theorem centres_in_box_iff {memory : ℕ → ℕ → ℤ} {p2Flag : Bool} {file : Text} {im' : GrayImage}
    (h : ReadImage memory new p2Flag file = some (true, im')) :
    im'.objects = im'.recordPixels int32 ∧
      ((∀ v obj, im'.objects v = some obj → im'.Centred v obj) ↔
        ∀ v, 0 < v → (im'.region v).Nonempty → 1 ≤ int32 (im'.region v).card ∧
          Image.Fits (im'.region v) Prod.fst ∧ Image.Fits (im'.region v) Prod.snd) ∧
      ∀ v, (im'.region v).Nonempty → ((im'.region v).card : ℤ) < 2 ^ 31 →
        ∑ x ∈ im'.region v, x.1 < 2 ^ 31 → ∑ x ∈ im'.region v, x.2 < 2 ^ 31 →
        1 ≤ int32 (im'.region v).card ∧ Image.Fits (im'.region v) Prod.fst ∧
          Image.Fits (im'.region v) Prod.snd := by
  have hobjects := readImage_objects h
  refine ⟨hobjects, ?_, fun v hne hn hrow hcol => ⟨?_, ?_, ?_⟩⟩
  · rw [hobjects]
    constructor
    · intro hall v hv hne
      have hsome := Image.recordPixels_eq Image.sums_int32 im'.toImage v
      rw [if_pos ⟨hv, hne⟩] at hsome
      exact (Image.centred_iff hsome).mp (hall v _ hsome)
    · intro hfits v obj hobj
      have hrecord := hobj
      rw [Image.recordPixels_eq Image.sums_int32] at hrecord
      split_ifs at hrecord with hv
      exact (Image.centred_iff hobj).mpr (hfits v hv.1 hv.2)
  · rw [int32_of_range (by omega) hn]
    exact_mod_cast hne.card_pos
  · exact Image.fits_of_lt hne (fun x hx => (Image.region_nonneg hx).1) hn hrow
  · exact Image.fits_of_lt hne (fun x hx => (Image.region_nonneg hx).2) hn hcol

/-- A complete file is accepted. -/
theorem readImage_complete (f : P5File) (memory : ℕ → ℕ → ℤ) (int : ℤ → ℤ := int32) :
    ∃ im', ReadImage memory new false f.text int = some (true, im') ∧
      Stored f.rows f.cols f.bytes (Image.scan f.rows f.cols) im'.toImage := by
  obtain ⟨im₁, hread, hstored⟩ : ∃ im₁, Image.readPixels false (Image.scan f.rows f.cols) f.bytes
      (new.sized memory f.rows f.cols) int = some (true, im₁) ∧ _ :=
    readPixels_stored memory false (by simp) f.complete
  refine ⟨⟨im₁, size_t f.levels⟩, ?_, hstored⟩
  rw [readImage_eq f.header_eq, hread]
  rfl

theorem centres_in_box_twoColumns :
    ∃ im', ReadImage (fun _ _ => 0) new false P5File.twoColumns.text = some (true, im') ∧
      im'.objects = im'.recordPixels int32 ∧ (im'.objects 30).isSome ∧ (im'.objects 60).isSome ∧
      ∀ v obj, im'.objects v = some obj → im'.Centred v obj := by
  obtain ⟨im', hread, hstored⟩ := readImage_complete P5File.twoColumns fun _ _ => 0
  obtain ⟨hobjects, hiff, hsmall⟩ := centres_in_box_iff hread
  have hin : ∀ v, ∀ x ∈ im'.region v, x.1 ≤ 2 ∧ x.2 ≤ 3 := by
    intro v x hx
    obtain ⟨i, j, rfl, ⟨hi, hj⟩, -⟩ := Image.mem_region.mp hx
    rw [hstored.num_rows] at hi
    rw [hstored.num_columns] at hj
    exact ⟨Int.ofNat_le.mpr (Nat.le_of_lt hi), Int.ofNat_le.mpr (Nat.le_of_lt hj)⟩
  have hcard : ∀ v, (im'.region v).card ≤ 6 := by
    intro v
    rw [← Image.length_cells]
    refine (List.length_filter_le _ _).trans ?_
    rw [Image.length_scan, hstored.num_rows, hstored.num_columns]
    exact le_rfl
  have hrecorded : ∀ p ∈ Image.scan 2 3, 0 < im'.pixels p.1 p.2 →
      (im'.objects (im'.pixels p.1 p.2)).isSome := by
    intro p hp hpos
    obtain ⟨hi, hj⟩ := Image.mem_scan.mp hp
    rw [hobjects, Image.recordPixels_eq Image.sums_int32, if_pos ⟨hpos, _,
      Image.mem_region.mpr ⟨p.1, p.2, rfl, ⟨hstored.num_rows.symm ▸ hi,
        hstored.num_columns.symm ▸ hj⟩, rfl⟩⟩]
    rfl
  have hleft : im'.pixels 0 0 = 30 := hstored.pixels (0, 0) (by decide)
  have hright : im'.pixels 0 2 = 60 := hstored.pixels (0, 2) (by decide)
  refine ⟨im', hread, hobjects, ?_, ?_, hiff.mpr fun v _ hne => hsmall v hne ?_ ?_ ?_⟩
  · have := hrecorded (0, 0) (by decide)
    rw [hleft] at this
    exact this (by norm_num)
  · have := hrecorded (0, 2) (by decide)
    rw [hright] at this
    exact this (by norm_num)
  · have := hcard v
    omega
  · have hsum := Finset.sum_le_card_nsmul (im'.region v) Prod.fst 2 fun x hx => (hin v x hx).1
    rw [nsmul_eq_mul] at hsum
    refine hsum.trans_lt ?_
    have := hcard v
    omega
  · have hsum := Finset.sum_le_card_nsmul (im'.region v) Prod.snd 3 fun x hx => (hin v x hx).2
    rw [nsmul_eq_mul] at hsum
    refine hsum.trans_lt ?_
    have := hcard v
    omega

/-- A row of pixels of one value. -/
def row (n : ℕ) : GrayImage :=
  { new with num_rows := 1, num_columns := n, num_gray_levels := 255, pixels := fun _ _ => 1 }

/-- The file of the row. -/
def rowFile (n : ℕ) (hn : n < 2 ^ 31) : P5File where
  text := (row n).WriteImage 0 false false
  rows := 1
  cols := n
  levels := 255
  bytes := Image.WriteImage (row n).toImage 0 false false
  header_eq := header_writeImage (show (row n).num_rows < 2 ^ 31 from by norm_num [row]) hn
    (show (row n).num_gray_levels < 2 ^ 31 from by norm_num [row]) 0 false false
  complete := by
    rw [Image.WriteImage, List.length_map, Image.length_scan]
    exact le_rfl

/-- A row of points. -/
def points (n : ℕ) : Finset (ℤ × ℤ) :=
  (Finset.range n).map ⟨fun j : ℕ => ((0 : ℤ), (j : ℤ)), fun i j hij => by simpa using hij⟩

theorem sum_points (n : ℕ) : (∑ x ∈ points n, x.2) * 2 = n * (n - 1 : ℕ) := by
  have hsum : ∑ x ∈ points n, x.2 = ((∑ j ∈ Finset.range n, j : ℕ) : ℤ) := by
    rw [points, Finset.sum_map]
    push_cast
    rfl
  rw [hsum]
  exact_mod_cast Finset.sum_range_id_mul_two n

theorem card_points (n : ℕ) : (points n).card = n := by
  rw [points, Finset.card_map, Finset.card_range]

theorem pixels_rowFile {n : ℕ} {hn : n < 2 ^ 31} {im : Image}
    (h : Stored (rowFile n hn).rows (rowFile n hn).cols (rowFile n hn).bytes
      (Image.scan (rowFile n hn).rows (rowFile n hn).cols) im) {j : ℕ} (hj : j < n) :
    im.pixels 0 j = 1 := by
  have hbyte : Image.pixelByte n (Image.WriteImage (row n).toImage 0 false false) (0, j) =
      Image.fputc 1 := by
    have hget : (Image.scan (row n).num_rows (row n).num_columns)[0 * n + j]? = some (0, j) :=
      Image.scan_getElem? (p := (0, j)) Nat.one_pos hj
    simp only [Image.pixelByte, Image.WriteImage, List.getD_eq_getElem?_getD, List.getElem?_map,
      hget]
    rfl
  exact (h.pixels (0, j) (Image.mem_scan.mpr ⟨Nat.one_pos, hj⟩)).trans
    (congrArg (fun b : UInt8 => (b.toNat : ℤ)) hbyte)

theorem region_rowFile {n : ℕ} {hn : n < 2 ^ 31} {im : Image}
    (h : Stored (rowFile n hn).rows (rowFile n hn).cols (rowFile n hn).bytes
      (Image.scan (rowFile n hn).rows (rowFile n hn).cols) im) : im.region 1 = points n := by
  ext x
  rw [Image.mem_region, h.num_rows, h.num_columns]
  simp only [points, Finset.mem_map, Finset.mem_range]
  constructor
  · rintro ⟨i, j, rfl, ⟨hi, hj⟩, -⟩
    obtain rfl : i = 0 := Nat.lt_one_iff.mp hi
    exact ⟨j, hj, rfl⟩
  · rintro ⟨j, hj, rfl⟩
    exact ⟨0, j, rfl, ⟨Nat.one_pos, hj⟩, pixels_rowFile h hj⟩

/-- The sum of the column numbers of a row of 65537 pixels is no `int`, and the centre is
not in the image. -/
theorem centre_leaves_image : ¬ ∀ (memory : ℕ → ℕ → ℤ) (p2Flag : Bool) (file : Text)
    (im' : GrayImage), ReadImage memory new p2Flag file = some (true, im') →
      ∀ v obj, im'.objects v = some obj → im'.Centred v obj := by
  intro h
  obtain ⟨im', hread, hstored⟩ := readImage_complete (rowFile 65537 (by decide)) fun _ _ => 0
  have hregion := region_rowFile hstored
  have hsum : ∑ x ∈ im'.region 1, x.2 = 2147516416 := by
    have := sum_points 65537
    rw [← hregion] at this
    omega
  have hne : (im'.region 1).Nonempty := by
    rw [← Finset.card_pos, hregion, card_points]
    exact Nat.succ_pos _
  have hobj := Image.recordPixels_eq Image.sums_int32 im'.toImage 1
  rw [if_pos ⟨one_pos, hne⟩] at hobj
  have hcentred := h _ _ _ _ hread 1
  rw [readImage_objects hread] at hcentred
  obtain ⟨-, -, ⟨x, hx, hlow⟩, -⟩ := (Image.centred_iff hobj).mp (hcentred _ hobj)
  have hx0 := (Image.region_nonneg hx).2
  rw [hsum, hregion, card_points] at hlow
  have hcard : int32 ((65537 : ℕ) : ℤ) = 65537 := by decide
  have htotal : int32 2147516416 = -2147450880 := by decide
  rw [hcard, htotal] at hlow
  omega

end GrayImage

end SchoolProjects.Vision
