import SchoolProjects.Vision.Centroid
import SchoolProjects.Vision.Reuse

/-! The programs `p1`, `p2` and `p3` one after the other, each on the file the one before
has written: a threshold, the labels of the bright pixels, and a record for each label.
For every complete picture the records are those of the classes of the labels modulo 128.
Where no pixel is blind the objects that `p2` reports are the connected components of the
bright pixels, and the records are those of the components just when there are at most 127
of them. The sums in the records are exact, and a result `none` is also a picture that is
turned down. -/

namespace SchoolProjects.Vision

open Text

namespace GrayImage

/-- `main` of `p1.cc` from the bytes of one file to those of the other. -/
def p1 (memory : ℕ → ℕ → ℤ) (threshold : ℤ) (file : Text) : Option Text :=
  match ReadImage memory new false file with
  | some (true, im) => some (im.WriteImage threshold true false)
  | _ => none

/-- `main` of `p2.cc`, with the number of objects it reports. -/
def p2 (memory : ℕ → ℕ → ℤ) (file : Text) : Option (ℕ × Text) :=
  match ReadImage memory new true file with
  | some (true, im) =>
    im.secondPass.map fun r => (r.1, GrayImage.WriteImage { im with toImage := r.2 } 0 false true)
  | _ => none

/-- The records that `p3` prints, without the axes and with exact sums. -/
def p3 (memory : ℕ → ℕ → ℤ) (file : Text) : Option (ℤ → Option Object) :=
  match ReadImage memory new false file id with
  | some (true, im) => some (im.recordSecondData (Image.findCenters id im.objects))
  | _ => none

end GrayImage

/-- The pixels of a connected component as points. -/
def component (lit : Pixel → Prop) (p : Pixel) : Set (ℤ × ℤ) :=
  {x | ∃ q : Pixel, x = (↑q.1, ↑q.2) ∧ lit q ∧ Joined lit p q}

/-- The connected components of a set of pixels. -/
def components (lit : Pixel → Prop) : Set (Set (ℤ × ℤ)) := {c | ∃ p, lit p ∧ c = component lit p}

/-- There is one record for each connected component, under a name of its own, and no
other record. -/
def Describes (lit : Pixel → Prop) (objects : ℤ → Option Object) : Prop :=
  ∃ name : Set (ℤ × ℤ) → ℤ, Set.InjOn name (components lit) ∧
    ∀ v o, objects v = some o ↔ ∃ s : Finset (ℤ × ℤ), (s : Set (ℤ × ℤ)) ∈ components lit ∧
      name s = v ∧ o = Image.descriptor v s

/-! ### Labels and components -/

section Classes

variable {rows cols k : ℕ} {lit : Pixel → Prop} {final : Pixel → ℤ} {p q : Pixel}

/-- The pixels of one label as points. -/
def labelPoints (rows cols : ℕ) (final : Pixel → ℤ) (n : ℤ) : Set (ℤ × ℤ) :=
  {x | ∃ q : Pixel, x = (↑q.1, ↑q.2) ∧ (q.1 < rows ∧ q.2 < cols) ∧ final q = n}

theorem final_eq_of_joined (hc : Image.CompleteLabels lit final) (hp : lit p)
    (h : Joined lit p q) : lit q ∧ final q = final p := by
  induction h with
  | refl => exact ⟨hp, rfl⟩
  | tail _ hstep ih =>
    obtain ⟨hb, hq, hadj | hadj⟩ := hstep
    · exact ⟨hq, (hc.neighbours _ _ hb hq hadj).symm.trans ih.2⟩
    · exact ⟨hq, (hc.neighbours _ _ hq hb hadj).trans ih.2⟩

/-- Sound and complete labels are those of the components. -/
theorem component_eq (hs : Image.SoundLabels rows cols lit final k)
    (hc : Image.CompleteLabels lit final) (hin : ∀ p, lit p → p.1 < rows ∧ p.2 < cols)
    (hp : lit p) : component lit p = labelPoints rows cols final (final p) := by
  ext x
  constructor
  · rintro ⟨q, rfl, hq, hj⟩
    exact ⟨q, rfl, hin q hq, (final_eq_of_joined hc hp hj).2⟩
  · rintro ⟨q, rfl, ⟨h1, h2⟩, hq⟩
    obtain ⟨hp1, hp2⟩ := hin p hp
    have hpos := hc.positive p hp
    have hlit := (hs.joined q p h1 h2 hp1 hp2 (hq ▸ hpos) hq).1
    exact ⟨q, rfl, hlit, (hs.joined p q hp1 hp2 h1 h2 hpos hq.symm).2⟩

theorem labelPoints_inj (hs : Image.SoundLabels rows cols lit final k) :
    Set.InjOn (labelPoints rows cols final) (Set.Icc 1 (k : ℤ)) := by
  intro m hm n hn h
  obtain ⟨p, h1, h2, hpos, hp⟩ := (hs.dense m).mpr hm
  have hmem : ((p.1 : ℤ), (p.2 : ℤ)) ∈ labelPoints rows cols final n :=
    h ▸ ⟨p, rfl, ⟨h1, h2⟩, hp⟩
  obtain ⟨q, hpq, -, hq⟩ := hmem
  obtain ⟨hrow, hcol⟩ := Prod.mk.inj hpq
  obtain rfl : p = q := Prod.ext (by exact_mod_cast hrow) (by exact_mod_cast hcol)
  exact hp.symm.trans hq

theorem components_eq (hs : Image.SoundLabels rows cols lit final k)
    (hc : Image.CompleteLabels lit final) (hin : ∀ p, lit p → p.1 < rows ∧ p.2 < cols) :
    components lit = labelPoints rows cols final '' Set.Icc 1 (k : ℤ) := by
  ext c
  constructor
  · rintro ⟨p, hp, rfl⟩
    obtain ⟨h1, h2⟩ := hin p hp
    exact ⟨final p, (hs.dense _).mp ⟨p, h1, h2, hc.positive p hp, rfl⟩,
      (component_eq hs hc hin hp).symm⟩
  · rintro ⟨n, hn, rfl⟩
    obtain ⟨p, h1, h2, hpos, rfl⟩ := (hs.dense n).mpr hn
    have hp : lit p := (hs.joined p p h1 h2 h1 h2 hpos rfl).1
    exact ⟨p, hp, (component_eq hs hc hin hp).symm⟩

/-- There are as many components as labels. -/
theorem ncard_components (hs : Image.SoundLabels rows cols lit final k)
    (hc : Image.CompleteLabels lit final) (hin : ∀ p, lit p → p.1 < rows ∧ p.2 < cols) :
    (components lit).ncard = k := by
  rw [components_eq hs hc hin, (labelPoints_inj hs).ncard_image, Set.ncard_eq_toFinset_card',
    Set.toFinset_Icc, Int.card_Icc]
  omega

end Classes

namespace P5File

variable (f : P5File)

/-- The pixels that the threshold leaves. -/
def Bright (threshold : ℤ) (p : Pixel) : Prop :=
  p.1 < f.rows ∧ p.2 < f.cols ∧ threshold ≤ (Image.pixelByte f.cols f.bytes p).toNat

instance (threshold : ℤ) : DecidablePred (f.Bright threshold) := fun _ =>
  inferInstanceAs (Decidable (_ ∧ _))

/-- The pixels with the label `final` whose byte is `v`, as points. -/
def labelled (final : Pixel → ℤ) (v : ℤ) : Finset (ℤ × ℤ) :=
  ((f.scan.filter fun p => final p * 30 % 256 = v).map fun p => ((p.1 : ℤ), (p.2 : ℤ))).toFinset

variable {f} {threshold : ℤ} {p q : Pixel}

theorem mem_labelled {final : Pixel → ℤ} {v : ℤ} {x : ℤ × ℤ} : x ∈ f.labelled final v ↔
    ∃ p : Pixel, x = (↑p.1, ↑p.2) ∧ (p.1 < f.rows ∧ p.2 < f.cols) ∧ final p * 30 % 256 = v := by
  simp only [labelled, scan, List.mem_toFinset, List.mem_map, List.mem_filter, Image.mem_scan,
    decide_eq_true_eq]
  constructor
  · rintro ⟨p, ⟨hin, hv⟩, rfl⟩
    exact ⟨p, rfl, hin, hv⟩
  · rintro ⟨p, rfl, hin, hv⟩
    exact ⟨p, ⟨hin, hv⟩, rfl⟩

/-! ### One program -/

section Written

variable {im : GrayImage}

/-- The rows, the columns and the gray levels of the file are those of the image. -/
structure Fits (f : P5File) (im : GrayImage) : Prop where
  num_rows : im.num_rows = f.rows
  num_columns : im.num_columns = f.cols
  num_gray_levels : im.num_gray_levels = GrayImage.size_t f.levels

theorem range (f : P5File) : f.rows < 2 ^ 31 ∧ f.cols < 2 ^ 31 ∧ int32 (GrayImage.size_t f.levels) =
    f.levels := by
  obtain ⟨⟨-, hrows⟩, ⟨-, hcols⟩, hlow, hhigh⟩ := GrayImage.header_range f.header_eq
  refine ⟨by exact_mod_cast hrows, by exact_mod_cast hcols, int32_eq_iff.mpr ⟨?_, hlow, hhigh⟩⟩
  unfold GrayImage.size_t
  omega

/-- The file that `WriteImage` makes of an image of this size. -/
def written (f : P5File) (im : GrayImage) (h : f.Fits im) (threshold : ℤ)
    (p1Flag p2Flag : Bool) : P5File where
  text := im.WriteImage threshold p1Flag p2Flag
  rows := f.rows
  cols := f.cols
  levels := f.levels
  bytes := Image.WriteImage im.toImage threshold p1Flag p2Flag
  header_eq := by
    obtain ⟨hrows, hcols, hlevels⟩ := f.range
    rw [← h.num_gray_levels] at hlevels
    rw [← h.num_rows] at hrows ⊢
    rw [← h.num_columns] at hcols ⊢
    exact GrayImage.header_written hrows hcols hlevels threshold p1Flag p2Flag
  complete := by
    rw [Image.WriteImage, List.length_map, Image.length_scan, h.num_rows, h.num_columns]

/-- The byte that `WriteImage` puts in the place of a pixel. -/
theorem pixelByte_written (h : f.Fits im) (p1Flag p2Flag : Bool) (h1 : p.1 < f.rows)
    (h2 : p.2 < f.cols) :
    Image.pixelByte f.cols (f.written im h threshold p1Flag p2Flag).bytes p =
      Image.fputc (if p2Flag then im.label p * 30
        else if p1Flag then (if im.pixels p.1 p.2 < threshold then 0 else 255)
        else im.pixels p.1 p.2) := by
  rw [← h.num_rows] at h1
  rw [← h.num_columns] at h2 ⊢
  simp [Image.pixelByte, written, Image.WriteImage, Image.scan_getElem? h1 h2, Image.label]

end Written

/-- Reading a complete file without labels. -/
theorem readImage_fits (f : P5File) (memory : ℕ → ℕ → ℤ) (int : ℤ → ℤ := int32) :
    ∃ im, GrayImage.ReadImage memory .new false f.text int = some (true, im) ∧ f.Fits im ∧
      ∀ p : Pixel, p.1 < f.rows → p.2 < f.cols →
        im.pixels p.1 p.2 = (Image.pixelByte f.cols f.bytes p).toNat := by
  obtain ⟨im, hread, h⟩ := GrayImage.readImage_complete f memory int
  obtain ⟨rows, cols, levels, bytes, hheader, -, -, hlevels⟩ := GrayImage.readImage_cases hread
  obtain ⟨-, -, rfl, -⟩ : (f.rows : ℤ) = rows ∧ (f.cols : ℤ) = cols ∧ f.levels = levels ∧
      f.bytes = bytes := by
    simpa using f.header_eq.symm.trans hheader
  exact ⟨im, hread, ⟨h.num_rows, h.num_columns, hlevels⟩,
    fun p h1 h2 => h.pixels p (Image.mem_scan.mpr ⟨h1, h2⟩)⟩

/-- `p1` leaves a complete picture, with 255 for the bright pixels and 0 for the others. -/
theorem p1_file (f : P5File) (memory : ℕ → ℕ → ℤ) (threshold : ℤ) :
    ∃ g : P5File, GrayImage.p1 memory threshold f.text = some g.text ∧ g.rows = f.rows ∧
      g.cols = f.cols ∧ g.levels = f.levels ∧
      ∀ p : Pixel, p.1 < f.rows → p.2 < f.cols → Image.pixelByte g.cols g.bytes p =
        if ((Image.pixelByte f.cols f.bytes p).toNat : ℤ) < threshold then 0 else 255 := by
  obtain ⟨im, hread, hfits, hpixels⟩ := f.readImage_fits memory
  refine ⟨f.written im hfits threshold true false, ?_, rfl, rfl, rfl, fun p h1 h2 => ?_⟩
  · rw [GrayImage.p1, hread]
    rfl
  · refine (pixelByte_written hfits true false h1 h2).trans ?_
    rw [← hpixels p h1 h2]
    simp only [Bool.false_eq_true, if_false, if_true]
    split_ifs <;> rfl

/-- After `p1` the bright pixels are lit. -/
theorem p1_lit (f : P5File) (memory : ℕ → ℕ → ℤ) (threshold : ℤ) :
    ∃ g : P5File, GrayImage.p1 memory threshold f.text = some g.text ∧ g.rows = f.rows ∧
      g.cols = f.cols ∧ g.Lit = f.Bright threshold := by
  obtain ⟨g, hp1, hrows, hcols, -, hbytes⟩ := f.p1_file memory threshold
  refine ⟨g, hp1, hrows, hcols, ?_⟩
  funext p
  have hbyte : p.1 < f.rows → p.2 < f.cols → (Image.pixelByte g.cols g.bytes p = 255 ↔
      threshold ≤ (Image.pixelByte f.cols f.bytes p).toNat) := by
    intro h1 h2
    rw [hbytes p h1 h2]
    split_ifs with h
    · exact iff_of_false (by decide) (not_le.mpr h)
    · exact iff_of_true rfl (not_lt.mp h)
  refine propext ⟨?_, ?_⟩
  · rintro ⟨h1, h2, hb⟩
    rw [hrows] at h1
    have h2 : p.2 < f.cols := hcols ▸ h2
    exact ⟨h1, h2, (hbyte h1 h2).mp hb⟩
  · rintro ⟨h1, h2, hb⟩
    exact ⟨hrows.symm ▸ h1, hcols.symm ▸ h2, (hbyte h1 h2).mpr hb⟩

/-- `p2` leaves a complete picture with the bytes of its labels. -/
theorem p2_file (g : P5File) {lit : Pixel → Prop} [hdec : DecidablePred lit] (hlit : g.Lit = lit)
    (memory : ℕ → ℕ → ℤ) :
    ∃ (k : ℕ) (final : Pixel → ℤ) (h : P5File), GrayImage.p2 memory g.text = some (k, h.text) ∧
      h.rows = g.rows ∧ h.cols = g.cols ∧ Image.SoundLabels g.rows g.cols lit final k ∧
      (Image.CompleteLabels lit final ↔ ∀ p, ¬ Blind lit p) ∧
      ∀ p : Pixel, p.1 < g.rows → p.2 < g.cols →
        Image.pixelByte h.cols h.bytes p = Image.fputc (final p * 30) := by
  obtain ⟨k, im, hp2, hrows, hcols, hsound, hcomplete⟩ := Image.p2_labels memory g.complete
  have hrun : GrayImage.p2 memory g.text =
      some (k, GrayImage.WriteImage ⟨im, GrayImage.size_t g.levels⟩ 0 false true) := by
    rw [GrayImage.p2, GrayImage.readImage_eq g.header_eq]
    unfold Image.p2 at hp2
    split at hp2
    · next im₀ hread =>
      have hread : Image.readPixels true (Image.scan g.rows g.cols) g.bytes
          (GrayImage.new.sized memory g.rows g.cols) = some (true, im₀) := hread
      rw [hread]
      simp only [Option.map_some, hp2]
    · cases hp2
  have hfits : g.Fits ⟨im, GrayImage.size_t g.levels⟩ := ⟨hrows, hcols, rfl⟩
  subst hlit
  refine ⟨k, im.label, g.written _ hfits 0 false true, hrun, rfl, rfl, hsound, ?_,
    fun p h1 h2 => pixelByte_written hfits false true h1 h2⟩
  rw [Subsingleton.elim hdec (inferInstanceAs (DecidablePred (Image.Lit _ _ _)))]
  exact hcomplete

/-- `p3` measures what is in its file. -/
theorem p3_file (h : P5File) (memory : ℕ → ℕ → ℤ) :
    ∃ im : Image, GrayImage.p3 memory h.text = some im.measure ∧ im.num_rows = h.rows ∧
      im.num_columns = h.cols ∧ ∀ p : Pixel, p.1 < h.rows → p.2 < h.cols →
        im.pixels p.1 p.2 = (Image.pixelByte h.cols h.bytes p).toNat := by
  obtain ⟨im, hread, hfits, hpixels⟩ := h.readImage_fits memory id
  refine ⟨im.toImage, ?_, hfits.num_rows, hfits.num_columns, hpixels⟩
  simp only [GrayImage.p3, hread, GrayImage.readImage_objects hread]
  rfl

/-! ### One after the other -/

/-- What `p3` keeps of the labels, for every number of them. -/
def records (f : P5File) (final : Pixel → ℤ) (v : ℤ) : Option Object :=
  if 0 < v ∧ (f.labelled final v).Nonempty then
    some (Image.descriptor v (f.labelled final v))
  else none

section Records

variable {k : ℕ} {lit : Pixel → Prop} {final : Pixel → ℤ} {v : ℤ}

/-- A label below 128 has a byte of its own. -/
theorem labelled_eq (hs : Image.SoundLabels f.rows f.cols lit final k) (hk : k ≤ 127) {n : ℤ}
    (h0 : 0 ≤ n) (hn : n ≤ k) :
    (f.labelled final (n * 30 % 256) : Set (ℤ × ℤ)) = labelPoints f.rows f.cols final n := by
  ext x
  rw [Finset.mem_coe, mem_labelled]
  refine exists_congr fun q => and_congr_right fun _ => and_congr_right fun hq => ?_
  obtain ⟨hq0, hq1⟩ := hs.le_of_le hk hq.1 hq.2
  exact Image.byte_inj hq0 hq1 h0 (by omega)

theorem records_eq_some {o : Object} : f.records final v = some o ↔
    (0 < v ∧ ∃ p : Pixel, (p.1 < f.rows ∧ p.2 < f.cols) ∧ final p * 30 % 256 = v) ∧
      o = Image.descriptor v (f.labelled final v) := by
  have hne : (f.labelled final v).Nonempty ↔
      ∃ p : Pixel, (p.1 < f.rows ∧ p.2 < f.cols) ∧ final p * 30 % 256 = v := by
    constructor
    · rintro ⟨x, hx⟩
      obtain ⟨p, -, hp⟩ := mem_labelled.mp hx
      exact ⟨p, hp⟩
    · rintro ⟨p, hp⟩
      exact ⟨_, mem_labelled.mpr ⟨p, rfl, hp⟩⟩
  rw [← hne, records]
  split_ifs with h
  · simp only [h, and_self, true_and, Option.some.injEq, eq_comm]
  · simp [h]

/-- The bytes of the labels up to `k`, without 0, are those of the labels up to 127. -/
theorem isSome_records (hs : Image.SoundLabels f.rows f.cols lit final k) :
    {v | (f.records final v).isSome} =
      ↑((Finset.Icc (1 : ℤ) (min k 127)).image fun n => n * 30 % 256) := by
  ext v
  have hsome : (f.records final v).isSome ↔
      0 < v ∧ ∃ p : Pixel, (p.1 < f.rows ∧ p.2 < f.cols) ∧ final p * 30 % 256 = v := by
    simp only [Option.isSome_iff_exists, records_eq_some, exists_and_left, exists_eq, and_true]
  simp only [Set.mem_ofPred_eq, hsome, Finset.coe_image, Set.mem_image, Finset.mem_coe,
    Finset.mem_Icc]
  constructor
  · rintro ⟨hv, p, ⟨h1, h2⟩, rfl⟩
    have h0 := hs.nonneg p h1 h2
    have hpos : 0 < final p := by omega
    have hk := ((hs.dense _).mp ⟨p, h1, h2, hpos, rfl⟩).2
    exact ⟨final p % 128, by omega, by omega⟩
  · rintro ⟨n, hn, rfl⟩
    obtain ⟨p, h1, h2, -, hp⟩ := (hs.dense n).mpr (by omega)
    exact ⟨by omega, p, ⟨h1, h2⟩, by rw [hp]⟩

/-- The number of the records. -/
theorem ncard_records (hs : Image.SoundLabels f.rows f.cols lit final k) :
    {v | (f.records final v).isSome}.ncard = min k 127 := by
  have hinj : Set.InjOn (fun n : ℤ => n * 30 % 256) (Finset.Icc (1 : ℤ) (min k 127)) := by
    intro m hm n hn h
    simp only [Finset.coe_Icc, Set.mem_Icc] at hm hn h
    exact (Image.byte_inj (by omega) (by omega) (by omega) (by omega)).mp h
  rw [isSome_records hs, Set.ncard_coe_finset, Finset.card_image_of_injOn hinj, Int.card_Icc]
  omega

/-- With complete labels up to 127 the records are those of the components. -/
theorem describes_records (hs : Image.SoundLabels f.rows f.cols lit final k)
    (hc : Image.CompleteLabels lit final) (hin : ∀ p, lit p → p.1 < f.rows ∧ p.2 < f.cols)
    (hk : k ≤ 127) : Describes lit (f.records final) := by
  classical
  have hcomp := components_eq hs hc hin
  have hlabel : ∀ c ∈ components lit, ∃ n : ℤ, (1 ≤ n ∧ n ≤ k) ∧
      labelPoints f.rows f.cols final n = c := by
    intro c hcc
    rw [hcomp] at hcc
    exact hcc
  choose! number hnumber hpoints using hlabel
  refine ⟨fun c => number c * 30 % 256, fun c hcc d hd h => ?_, fun v o => ?_⟩
  · have h1 := hnumber c hcc
    have h2 := hnumber d hd
    have heq := (Image.byte_inj (by omega) (by omega) (by omega) (by omega)).mp h
    rw [← hpoints c hcc, heq, hpoints d hd]
  · rw [records_eq_some]
    constructor
    · rintro ⟨⟨hv, p, ⟨h1, h2⟩, rfl⟩, rfl⟩
      have h0 := hs.nonneg p h1 h2
      have hpos : 0 < final p := by omega
      have hle := (hs.dense _).mp ⟨p, h1, h2, hpos, rfl⟩
      have hset := labelled_eq hs hk h0 hle.2
      have hmem : (f.labelled final (final p * 30 % 256) : Set (ℤ × ℤ)) ∈ components lit := by
        rw [hset, hcomp]
        exact ⟨final p, hle, rfl⟩
      have hname : number (f.labelled final (final p * 30 % 256)) = final p :=
        labelPoints_inj hs (hnumber _ hmem) hle ((hpoints _ hmem).trans hset)
      exact ⟨_, hmem, congrArg (fun n => n * 30 % 256) hname, rfl⟩
    · rintro ⟨s, hmem, hv, rfl⟩
      have hv : number s * 30 % 256 = v := hv
      subst hv
      have hn := hnumber _ hmem
      obtain ⟨p, h1, h2, hpos, hp⟩ := (hs.dense _).mpr hn
      have hset : s = f.labelled final (number s * 30 % 256) := by
        rw [← Finset.coe_inj, labelled_eq hs hk (by omega) hn.2, hpoints _ hmem]
      exact ⟨⟨by omega, p, ⟨h1, h2⟩, by rw [hp]⟩, congrArg _ hset⟩

/-- Records of the components are as many as there are labels. -/
theorem le_of_describes (hs : Image.SoundLabels f.rows f.cols lit final k)
    (hc : Image.CompleteLabels lit final) (hin : ∀ p, lit p → p.1 < f.rows ∧ p.2 < f.cols)
    (h : Describes lit (f.records final)) : k ≤ 127 := by
  obtain ⟨name, hinj, hname⟩ := h
  have hfinite : {v | (f.records final v).isSome}.Finite := by
    rw [isSome_records hs]
    exact Finset.finite_toSet _
  have hmaps : ∀ c ∈ components lit, name c ∈ {v | (f.records final v).isSome} := by
    rintro c hcc
    have hfin : c.Finite := by
      rw [components_eq hs hc hin] at hcc
      obtain ⟨n, -, rfl⟩ := hcc
      refine (((f.scan.map fun q => ((q.1 : ℤ), (q.2 : ℤ))).toFinset).finite_toSet).subset ?_
      rintro x ⟨q, rfl, hq, -⟩
      simp only [Finset.mem_coe, List.mem_toFinset, List.mem_map]
      exact ⟨q, Image.mem_scan.mpr hq, rfl⟩
    obtain ⟨s, rfl⟩ := hfin.exists_finset_coe
    exact Option.isSome_iff_exists.mpr ⟨_, (hname _ _).mpr ⟨s, hcc, rfl, rfl⟩⟩
  have hle := Set.ncard_le_ncard_of_injOn name hmaps hinj hfinite
  rw [ncard_components hs hc hin, ncard_records hs] at hle
  omega

end Records

/-- The three programs run on every complete picture. -/
theorem programs_records (f : P5File) (threshold : ℤ) (memory₁ memory₂ memory₃ : ℕ → ℕ → ℤ) :
    ∃ mask k labelled final, GrayImage.p1 memory₁ threshold f.text = some mask ∧
      GrayImage.p2 memory₂ mask = some (k, labelled) ∧
      GrayImage.p3 memory₃ labelled = some (f.records final) ∧
      Image.SoundLabels f.rows f.cols (f.Bright threshold) final k ∧
      (Image.CompleteLabels (f.Bright threshold) final ↔
        ∀ p, ¬ Blind (f.Bright threshold) p) := by
  obtain ⟨g, hp1, hrows, hcols, hlit⟩ := f.p1_lit memory₁ threshold
  obtain ⟨k, final, h, hp2, hrows', hcols', hsound, hcomplete, hbytes⟩ := g.p2_file hlit memory₂
  obtain ⟨im, hp3, hrows'', hcols'', hpixels⟩ := h.p3_file memory₃
  rw [hrows, hcols] at hsound
  refine ⟨g.text, k, h.text, final, hp1, hp2, hp3.trans (congrArg some ?_), hsound, hcomplete⟩
  have hregion : ∀ v, im.region v = f.labelled final v := by
    intro v
    ext x
    rw [Image.mem_region, mem_labelled, hrows'', hcols'', hrows', hcols', hrows, hcols]
    have hbyte : ∀ p : Pixel, p.1 < f.rows → p.2 < f.cols →
        im.pixels p.1 p.2 = final p * 30 % 256 := by
      intro p h1 h2
      rw [← hrows] at h1
      rw [← hcols] at h2
      rw [hpixels p (hrows'.symm ▸ h1) (hcols'.symm ▸ h2), hbytes p h1 h2, Image.toNat_fputc]
    constructor
    · rintro ⟨i, j, rfl, hin, hv⟩
      exact ⟨(i, j), rfl, hin, (hbyte (i, j) hin.1 hin.2).symm.trans hv⟩
    · rintro ⟨p, rfl, hin, hv⟩
      exact ⟨p.1, p.2, rfl, hin, (hbyte p hin.1 hin.2).trans hv⟩
  funext v
  rw [Image.measure_eq, records, hregion]

/-- The three programs, one on the file of the other, run on every complete picture. The
labels of `p2` do not mix components, and `p3` has a record for each class of the labels
modulo 128 that is not 0. Where no bright pixel is blind `p2` reports the number of the
components, and the records are those of the components just when there are at most 127. -/
theorem programs_describe_iff (f : P5File) (threshold : ℤ) (memory₁ memory₂ memory₃ : ℕ → ℕ → ℤ) :
    ∃ mask k labelled objects, GrayImage.p1 memory₁ threshold f.text = some mask ∧
      GrayImage.p2 memory₂ mask = some (k, labelled) ∧
      GrayImage.p3 memory₃ labelled = some objects ∧
      {v | (objects v).isSome}.ncard = min k 127 ∧
      (∀ v o, objects v = some o → ∃ s : Finset (ℤ × ℤ), o = Image.descriptor v s ∧
        ∀ x ∈ s, ∃ p, x = ((p.1 : ℤ), (p.2 : ℤ)) ∧ f.Bright threshold p) ∧
      ((∀ p, ¬ Blind (f.Bright threshold) p) → (components (f.Bright threshold)).ncard = k ∧
        (Describes (f.Bright threshold) objects ↔ k ≤ 127)) := by
  obtain ⟨mask, k, labelled, final, hp1, hp2, hp3, hs, hc⟩ :=
    f.programs_records threshold memory₁ memory₂ memory₃
  have hin : ∀ p, f.Bright threshold p → p.1 < f.rows ∧ p.2 < f.cols := fun p hp =>
    ⟨hp.1, hp.2.1⟩
  refine ⟨mask, k, labelled, f.records final, hp1, hp2, hp3, ncard_records hs, fun v o ho => ?_,
    fun hblind => ⟨ncard_components hs (hc.mpr hblind) hin, ?_⟩⟩
  · obtain ⟨⟨hv, -⟩, rfl⟩ := records_eq_some.mp ho
    refine ⟨f.labelled final v, rfl, fun x hx => ?_⟩
    obtain ⟨p, rfl, ⟨h1, h2⟩, hp⟩ := mem_labelled.mp hx
    have h0 := hs.nonneg p h1 h2
    exact ⟨p, rfl, (hs.joined p p h1 h2 h1 h2 (by omega) rfl).1⟩
  · exact ⟨le_of_describes hs (hc.mpr hblind) hin, describes_records hs (hc.mpr hblind) hin⟩

end P5File

end SchoolProjects.Vision
