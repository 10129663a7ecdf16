import SchoolProjects.Vision.Components

/-! The label image on its way from `p2` to `p3`: `WriteImage` keeps the low byte of
thirty times a label, and `ReadImage` takes the byte for the label and records the
object under it. The bytes tell the labels apart, and apart from the background, for
up to 127 labels and no further: thirty times 128 is a multiple of 256. The areas are
of type `int`, and right for objects of fewer than `2 ^ 31` pixels. -/

namespace SchoolProjects.Vision.Image

/-! ### Reading without labels -/

/-- How many pixels of a list have the byte `b`. -/
def byteCount (cols : ℕ) (bytes : List UInt8) (ps : List Pixel) (b : ℤ) : ℕ :=
  ps.countP fun q => ((pixelByte cols bytes q).toNat : ℤ) = b

/-- The state of the pixel loop of `ReadImage` after the pixels `done`, without labels:
the pixels read, and one record for each positive byte, with the number of its pixels. -/
structure Recorded (rows cols : ℕ) (bytes : List UInt8) (done : List Pixel) (im : Image) :
    Prop where
  num_rows : im.num_rows = rows
  num_columns : im.num_columns = cols
  pixels : ∀ p ∈ done, im.pixels p.1 p.2 = (pixelByte cols bytes p).toNat
  objects : ∀ b : ℤ, (im.objects b).map ObjData.area =
    if 0 < b ∧ 0 < byteCount cols bytes done b then some (int32 (byteCount cols bytes done b))
    else none

section Read

variable {rows cols : ℕ} {bytes : List UInt8} {done rest : List Pixel} {p : Pixel} {im : Image}

/-- A record is made, or one more pixel added to it. -/
theorem recordData_area (im : Image) (i j : ℕ) (k b : ℤ) :
    ((im.recordData i j k).objects b).map ObjData.area =
      if b = k then some (int32 ((((im.objects k).map ObjData.area).getD 0) + 1))
      else (im.objects b).map ObjData.area := by
  by_cases hb : b = k
  · subst hb
    cases h : im.objects b <;> simp [recordData, h]
  · simp [recordData, hb]

theorem Recorded.step (hscan : scan rows cols = done ++ p :: rest) {byte : UInt8}
    (hbyte : bytes[done.length]? = some byte) (h : Recorded rows cols bytes done im) :
    ∃ im', im.readPixel false p byte = some im' ∧ Recorded rows cols bytes (done ++ [p]) im' := by
  have hb := pixelByte_of_scan hscan hbyte
  obtain ⟨hi, hj⟩ := pixel_mem hscan
  have hset := SetPixel_eq (byte.toNat : ℤ) (h.num_rows.symm ▸ hi) (h.num_columns.symm ▸ hj)
  have hpix := pixels_step hscan hbyte h.pixels
  have hcount : ∀ b, byteCount cols bytes (done ++ [p]) b =
      byteCount cols bytes done b + if b = byte.toNat then 1 else 0 := fun b => by
    simp [byteCount, List.countP_append, hb, List.countP_singleton, eq_comm]
  simp only [readPixel, hset, Option.bind_some, Bool.false_eq_true, if_false, Option.map_some]
  refine ⟨_, rfl, ?_⟩
  split_ifs with hpos
  · refine ⟨h.num_rows, h.num_columns, hpix, fun b => ?_⟩
    rw [recordData_area, hcount]
    change (if b = byte.toNat
      then some (int32 (((im.objects byte.toNat).map ObjData.area).getD 0 + 1))
      else (im.objects b).map ObjData.area) = _
    rw [h.objects, h.objects]
    by_cases hbb : b = byte.toNat
    · subst hbb
      have hpos' : (0 : ℤ) < byte.toNat := by omega
      rw [if_pos rfl, if_pos rfl]
      generalize byteCount cols bytes done byte.toNat = n
      rw [if_pos (show 0 < (byte.toNat : ℤ) ∧ 0 < n + 1 from ⟨hpos', Nat.succ_pos n⟩),
        Nat.cast_add, Nat.cast_one]
      rcases Nat.eq_zero_or_pos n with rfl | h0
      · rw [if_neg fun h => lt_irrefl 0 h.2, Option.getD_none, Nat.cast_zero]
      · rw [if_pos ⟨hpos', h0⟩, Option.getD_some, int32_add_int32]
    · simp [hbb]
  · refine ⟨h.num_rows, h.num_columns, hpix, fun b => ?_⟩
    change (im.objects b).map ObjData.area = _
    rw [h.objects, hcount]
    by_cases hbb : b = byte.toNat
    · have hb0 : ¬ 0 < b := by omega
      simp [hb0]
    · simp [hbb]

/-- Reading an image that is long enough, without labels. -/
theorem readImage_recorded (memory : ℕ → ℕ → ℤ) (hlen : rows * cols ≤ bytes.length) :
    ∃ im, ReadImage memory rows cols false bytes = some (true, im) ∧
      Recorded rows cols bytes (scan rows cols) im := by
  refine readPixels_loop (Recorded rows cols bytes) ?_ (by rwa [length_scan])
    fun done p rest im byte hscan hbyte h => h.step hscan hbyte
  exact ⟨rfl, rfl, by simp, fun b => by simp [byteCount, allocate]⟩

end Read

/-! ### From `p2` to `p3` -/

/-- The number of the pixels with the label of `p`. -/
def labelCells (rows cols : ℕ) (final : Pixel → ℤ) (p : Pixel) : ℕ :=
  (scan rows cols).countP fun q => final q = final p

/-- Every object has fewer than `2 ^ 31` pixels. -/
def SmallObjects (rows cols : ℕ) (final : Pixel → ℤ) : Prop :=
  ∀ p : Pixel, p.1 < rows → p.2 < cols → 0 < final p → labelCells rows cols final p < 2 ^ 31

/-- What the image `im` that `p3` reads has kept of the labels `final`: the bytes tell
labels apart, and there is one record for each label, with its number of pixels. -/
structure HandOff (rows cols : ℕ) (final : Pixel → ℤ) (im : Image) : Prop where
  byte_eq : ∀ p q : Pixel, p.1 < rows → p.2 < cols → q.1 < rows → q.2 < cols →
    0 < final p → 0 < final q → (im.pixels p.1 p.2 = im.pixels q.1 q.2 ↔ final p = final q)
  byte_zero : ∀ p : Pixel, p.1 < rows → p.2 < cols → (im.pixels p.1 p.2 = 0 ↔ final p = 0)
  recorded : ∀ p : Pixel, p.1 < rows → p.2 < cols → 0 < final p →
    ∃ obj, im.objects (im.pixels p.1 p.2) = some obj ∧ obj.area = labelCells rows cols final p
  only : ∀ b obj, im.objects b = some obj →
    ∃ p : Pixel, p.1 < rows ∧ p.2 < cols ∧ 0 < final p ∧ im.pixels p.1 p.2 = b

section Bytes

variable {rows cols k : ℕ} {bytes : List UInt8} {lit : Pixel → Prop} {final : Pixel → ℤ}
  {im : Image} {p q : Pixel}

/-- Thirty times a label, to one byte, is faithful on 0, ..., 127. -/
theorem byte_inj {x y : ℤ} (hx0 : 0 ≤ x) (hx : x ≤ 127) (hy0 : 0 ≤ y) (hy : y ≤ 127) :
    x * 30 % 256 = y * 30 % 256 ↔ x = y := by
  omega

/-- The byte `WriteImage` puts in the place of a pixel. -/
theorem pixelByte_written (im : Image) (h1 : p.1 < im.num_rows) (h2 : p.2 < im.num_columns) :
    pixelByte im.num_columns (WriteImage im 0 false true) p = fputc (im.label p * 30) := by
  simp [pixelByte, WriteImage, scan_getElem? h1 h2, label]

theorem SoundLabels.le_of_le (hs : SoundLabels rows cols lit final k) (hk : k ≤ 127)
    (h1 : p.1 < rows) (h2 : p.2 < cols) : 0 ≤ final p ∧ final p ≤ 127 := by
  have h0 := hs.nonneg p h1 h2
  rcases h0.eq_or_lt with h0 | h0
  · omega
  · have hdense := ((hs.dense (final p)).mp ⟨p, h1, h2, h0, rfl⟩).2
    omega

section Written

variable (hr : Recorded rows cols bytes (scan rows cols) im)
  (hb : ∀ p : Pixel, p.1 < rows → p.2 < cols → pixelByte cols bytes p = fputc (final p * 30))

include hr hb

/-- The pixel read back is the byte of thirty times the label. -/
theorem pixels_written (h1 : p.1 < rows) (h2 : p.2 < cols) :
    im.pixels p.1 p.2 = final p * 30 % 256 := by
  rw [hr.pixels p (mem_scan.mpr ⟨h1, h2⟩), hb p h1 h2, toNat_fputc]

variable (hs : SoundLabels rows cols lit final k) (hk : k ≤ 127)

include hs hk

theorem pixels_eq_iff (hp1 : p.1 < rows) (hp2 : p.2 < cols) (hq1 : q.1 < rows)
    (hq2 : q.2 < cols) : im.pixels p.1 p.2 = im.pixels q.1 q.2 ↔ final p = final q := by
  rw [pixels_written hr hb hp1 hp2, pixels_written hr hb hq1 hq2]
  obtain ⟨hp, hp'⟩ := hs.le_of_le hk hp1 hp2
  obtain ⟨hq, hq'⟩ := hs.le_of_le hk hq1 hq2
  exact byte_inj hp hp' hq hq'

theorem pixels_eq_zero (h1 : p.1 < rows) (h2 : p.2 < cols) :
    im.pixels p.1 p.2 = 0 ↔ final p = 0 := by
  obtain ⟨hp, hp'⟩ := hs.le_of_le hk h1 h2
  rw [pixels_written hr hb h1 h2]
  omega

/-- The pixels with the byte of `p` are those with its label. -/
theorem byteCount_written (h1 : p.1 < rows) (h2 : p.2 < cols) :
    byteCount cols bytes (scan rows cols) (im.pixels p.1 p.2) = labelCells rows cols final p := by
  apply List.countP_congr
  intro q hq
  obtain ⟨hq1, hq2⟩ := mem_scan.mp hq
  rw [decide_eq_true_iff, decide_eq_true_iff, ← hr.pixels q hq]
  exact pixels_eq_iff hr hb hs hk hq1 hq2 h1 h2

/-- The record of a label is found under its byte. -/
theorem recorded_written (h1 : p.1 < rows) (h2 : p.2 < cols) (hpos : 0 < final p) :
    ∃ obj, im.objects (im.pixels p.1 p.2) = some obj ∧
      obj.area = int32 (labelCells rows cols final p) := by
  have hbyte : 0 < im.pixels p.1 p.2 := by
    have hne := mt (pixels_eq_zero hr hb hs hk h1 h2).mp hpos.ne'
    rw [pixels_written hr hb h1 h2] at hne ⊢
    omega
  have hmem : 0 < labelCells rows cols final p :=
    List.countP_pos_iff.mpr ⟨p, mem_scan.mpr ⟨h1, h2⟩, by simp⟩
  have harea := hr.objects (im.pixels p.1 p.2)
  rw [byteCount_written hr hb hs hk h1 h2, if_pos ⟨hbyte, hmem⟩] at harea
  exact Option.map_eq_some_iff.mp harea

/-- A record that was found belongs to a label. -/
theorem label_of_recorded {b : ℤ} {obj : ObjData} (hobj : im.objects b = some obj) :
    ∃ p : Pixel, p.1 < rows ∧ p.2 < cols ∧ 0 < final p ∧ im.pixels p.1 p.2 = b := by
  have harea := hr.objects b
  rw [hobj, Option.map_some] at harea
  split_ifs at harea with hc
  obtain ⟨q, hq, hqb⟩ := List.countP_pos_iff.mp hc.2
  obtain ⟨h1, h2⟩ := mem_scan.mp hq
  rw [decide_eq_true_iff, ← hr.pixels q hq] at hqb
  refine ⟨q, h1, h2, lt_of_le_of_ne (hs.le_of_le hk h1 h2).1 fun h => ?_, hqb⟩
  have hzero := (pixels_eq_zero hr hb hs hk h1 h2).mpr h.symm
  omega

end Written

/-- With labels from 0 to `k`, the image read back keeps them just when `k` is at
most 127 and the number of the pixels of each object is an `int`. -/
theorem handOff_iff (hs : SoundLabels rows cols lit final k)
    (hr : Recorded rows cols bytes (scan rows cols) im)
    (hb : ∀ p : Pixel, p.1 < rows → p.2 < cols → pixelByte cols bytes p = fputc (final p * 30)) :
    HandOff rows cols final im ↔ k ≤ 127 ∧ SmallObjects rows cols final := by
  constructor
  · intro h
    have hk : k ≤ 127 := by
      by_contra hk
      obtain ⟨p, h1, h2, -, hp⟩ := (hs.dense 128).mpr (by omega)
      have h0 := (h.byte_zero p h1 h2).mp (by rw [pixels_written hr hb h1 h2, hp]; rfl)
      omega
    refine ⟨hk, fun p h1 h2 hpos => ?_⟩
    obtain ⟨obj, hobj, harea⟩ := h.recorded p h1 h2 hpos
    obtain ⟨obj', hobj', harea'⟩ := recorded_written hr hb hs hk h1 h2 hpos
    obtain rfl := Option.some.inj (hobj.symm.trans hobj')
    have hrange := (int32_eq_iff.mp (harea'.symm.trans harea)).2.2
    exact_mod_cast hrange
  · rintro ⟨hk, hsmall⟩
    constructor
    case byte_eq => exact fun p q hp1 hp2 hq1 hq2 _ _ => pixels_eq_iff hr hb hs hk hp1 hp2 hq1 hq2
    case byte_zero => exact fun p h1 h2 => pixels_eq_zero hr hb hs hk h1 h2
    case recorded =>
      intro p h1 h2 hpos
      have hlt := hsmall p h1 h2 hpos
      obtain ⟨obj, hobj, harea⟩ := recorded_written hr hb hs hk h1 h2 hpos
      rw [int32_of_range (by omega) (by exact_mod_cast hlt)] at harea
      exact ⟨obj, hobj, harea⟩
    case only => exact fun b obj hobj => label_of_recorded hr hb hs hk hobj

/-- From the bytes of an image to the image `p3` reads. -/
theorem p2_written (memory memory' : ℕ → ℕ → ℤ) (hlen : rows * cols ≤ bytes.length) :
    ∃ k im im', p2 memory rows cols bytes = some (k, im) ∧
      ReadImage memory' rows cols false (WriteImage im 0 false true) = some (true, im') ∧
      (HandOff rows cols im.label im' ↔ k ≤ 127 ∧ SmallObjects rows cols im.label) ∧
      SoundLabels rows cols (Lit rows cols bytes) im.label k ∧
      (CompleteLabels (Lit rows cols bytes) im.label ↔ ∀ p, ¬ Blind (Lit rows cols bytes) p) := by
  obtain ⟨k, im, hp2, rfl, rfl, hs, hc⟩ := p2_labels memory hlen
  obtain ⟨im', hread, hr⟩ := readImage_recorded memory'
    (show im.num_rows * im.num_columns ≤ (WriteImage im 0 false true).length by
      simp [WriteImage, length_scan])
  exact ⟨k, im, im', hp2, hread, handOff_iff hs hr fun p h1 h2 => pixelByte_written im h1 h2,
    hs, hc⟩

/-- An image labelled by `p2`, written with its labels and read by `p3`, keeps them
just when no more than 127 objects were reported, each of fewer than `2 ^ 31` pixels. -/
theorem p2_handOff_iff (memory memory' : ℕ → ℕ → ℤ) (rows cols : ℕ) (bytes : List UInt8)
    (hlen : rows * cols ≤ bytes.length) :
    ∃ k im im', p2 memory rows cols bytes = some (k, im) ∧
      ReadImage memory' rows cols false (WriteImage im 0 false true) = some (true, im') ∧
      (HandOff rows cols im.label im' ↔ k ≤ 127 ∧ SmallObjects rows cols im.label) := by
  obtain ⟨k, im, im', hp2, hread, hiff, -⟩ := p2_written memory memory' hlen
  exact ⟨k, im, im', hp2, hread, hiff⟩

theorem p2_handOff_iff_ring : ∃ k im im', p2 (fun _ _ => 0) 3 3 ring = some (k, im) ∧
    ReadImage (fun _ _ => 0) 3 3 false (WriteImage im 0 false true) = some (true, im') ∧
    (HandOff 3 3 im.label im' ↔ k ≤ 127 ∧ SmallObjects 3 3 im.label) :=
  p2_handOff_iff _ _ 3 3 ring (by decide)

/-- One row of 128 lit pixels with an unlit one after each. -/
def stripes : List UInt8 := (List.replicate 128 [255, 0]).flatten

theorem stripes_lit : Lit 1 256 stripes p ↔ p.1 = 0 ∧ p.2 < 256 ∧ p.2 % 2 = 0 := by
  have hbyte : ∀ j < 256, stripes.getD j 0 = 255 ↔ j % 2 = 0 := by decide +kernel
  constructor
  · rintro ⟨h1, h2, hb⟩
    have h0 : p.1 = 0 := by omega
    simp only [pixelByte, h0, zero_mul, zero_add] at hb
    exact ⟨h0, h2, (hbyte p.2 h2).mp hb⟩
  · rintro ⟨h0, h2, hj⟩
    refine ⟨by omega, h2, ?_⟩
    simp only [pixelByte, h0, zero_mul, zero_add]
    exact (hbyte p.2 h2).mpr hj

/-- The lit pixels of the stripes have no lit neighbours. -/
theorem stripes_isolated (h : Joined (Lit 1 256 stripes) p q) : p = q := by
  induction h with
  | refl => rfl
  | tail _ hstep ih =>
    obtain ⟨hx, hy, hadj⟩ := hstep
    have hx := stripes_lit.mp hx
    have hy := stripes_lit.mp hy
    unfold Adjacent IsLeft IsTop IsDiag at hadj
    omega

/-- The stripes have at least 128 labels. -/
theorem stripes_labels (hs : SoundLabels 1 256 (Lit 1 256 stripes) final k)
    (hc : CompleteLabels (Lit 1 256 stripes) final) : 128 ≤ k := by
  have hlit : ∀ t < 128, Lit 1 256 stripes (0, 2 * t) := fun t ht =>
    stripes_lit.mpr ⟨rfl, by simp only; omega, by simp only; omega⟩
  have hmaps : ∀ t ∈ Finset.range 128, final (0, 2 * t) ∈ Finset.Icc (1 : ℤ) k := fun t ht => by
    have ht := Finset.mem_range.mp ht
    exact Finset.mem_Icc.mpr ((hs.dense _).mp
      ⟨(0, 2 * t), by simp, by simp only; omega, hc.positive _ (hlit t ht), rfl⟩)
  have hinj : Set.InjOn (fun t => final (0, 2 * t)) (Finset.range 128 : Set ℕ) := by
    intro t ht u hu h
    have ht : t < 128 := by simpa using ht
    have hu : u < 128 := by simpa using hu
    have hj := (hs.joined (0, 2 * t) (0, 2 * u) (by simp) (by simp only; omega) (by simp)
      (by simp only; omega) (hc.positive _ (hlit t ht)) h).2
    have := congrArg Prod.snd (stripes_isolated hj)
    omega
  have := Finset.card_le_card_of_injOn _ hmaps hinj
  simpa using this

/-- The 128th object of the stripes reaches `p3` as background. -/
theorem stripes_lost : ¬ ∀ (memory memory' : ℕ → ℕ → ℤ) (rows cols : ℕ) (bytes : List UInt8),
    rows * cols ≤ bytes.length → (∀ b ∈ bytes, b = 0 ∨ b = 255) →
    ∃ k im im', p2 memory rows cols bytes = some (k, im) ∧
      ReadImage memory' rows cols false (WriteImage im 0 false true) = some (true, im') ∧
      HandOff rows cols im.label im' := by
  intro h
  have hlen : 1 * 256 ≤ stripes.length := by decide +kernel
  obtain ⟨k, im, im', hp2, hread, hand⟩ :=
    h (fun _ _ => 0) (fun _ _ => 0) 1 256 stripes hlen (by decide +kernel)
  obtain ⟨k₁, im₁, im₁', hp2₁, hread₁, hiff, hs, hc⟩ :=
    p2_written (fun _ _ => 0) (fun _ _ => 0) hlen
  obtain ⟨rfl, rfl⟩ : k₁ = k ∧ im₁ = im := by simpa using hp2₁.symm.trans hp2
  obtain rfl : im₁' = im' := by simpa using hread₁.symm.trans hread
  have hblind : ∀ p, ¬ Blind (Lit 1 256 stripes) p := by
    rintro p ⟨hp, -, t, -, -, ht, -⟩
    have := hp.1
    have := ht.1
    omega
  have := stripes_labels hs (hc.mpr hblind)
  have := (hiff.mp hand).1
  omega

end Bytes

end SchoolProjects.Vision.Image
