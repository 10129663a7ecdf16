import SchoolProjects.Lib.MachineInt
import SchoolProjects.Lib.Moments
import SchoolProjects.Lib.Table
import SchoolProjects.Vision.Labelling
import SchoolProjects.Vision.Raster

/-! The records of the objects (`image.h` and `image.cc` of the second homework): the sums
that `recordData` keeps while the pixels are read, the centres, and the sums of the second
moments. A record depends on the pixels of its own value alone, so it goes along with a
shift of them, and its moments are those of a finite set. The function `int` is what
becomes of a sum of numbers of type `int`: the sum itself, or its reduction. The second
moments, which are of type `double`, are exact. -/

namespace SchoolProjects.Vision

/-- `struct objData`, without the axis. -/
structure Object extends ObjData where
  centerRow : ℤ
  centerCol : ℤ
  totalXPrime : ℤ := 0
  totalYPrime : ℤ := 0
  a : ℤ := 0
  b : ℤ := 0
  c : ℤ := 0
  deriving DecidableEq

/-- `recordData`. -/
def ObjData.recordData (int : ℤ → ℤ) (obj : ObjData) (p : Pixel) : ObjData :=
  { obj with
    totalX := int (obj.totalX + p.2), totalY := int (obj.totalY + p.1), area := int (obj.area + 1) }

/-- `findCenter`; `none` is a division by zero. -/
def ObjData.findCenter (int : ℤ → ℤ) (obj : ObjData) : Option Object :=
  if obj.area = 0 then none
  else some { obj with
    centerRow := int (obj.totalY.tdiv obj.area), centerCol := int (obj.totalX.tdiv obj.area) }

/-- The body of the pixel loop of `recordSecondData`. -/
def Object.addSecond (obj : Object) (p : Pixel) : Object :=
  { obj with
    totalXPrime := obj.totalXPrime + (p.2 - obj.centerCol) ^ 2
    totalYPrime := obj.totalYPrime + (p.1 - obj.centerRow) ^ 2
    b := obj.b + (p.2 - obj.centerCol) * (p.1 - obj.centerRow) }

/-- The body of the second loop of `recordSecondData`. -/
def Object.finish (obj : Object) : Object :=
  { obj with a := obj.totalXPrime, b := obj.b * 2, c := obj.totalYPrime }

namespace Image

/-- What `ReadImage` records for one pixel. -/
def recordOne (int : ℤ → ℤ) (pixels : ℕ → ℕ → ℤ) (objects : ℤ → Option ObjData) (p : Pixel) :
    ℤ → Option ObjData :=
  if 0 < pixels p.1 p.2 then
    Function.update objects (pixels p.1 p.2)
      (some (((objects (pixels p.1 p.2)).getD { label := pixels p.1 p.2 }).recordData int p))
  else objects

/-- The map `objects` after the pixels are read. -/
def recordPixels (int : ℤ → ℤ) (im : Image) : ℤ → Option ObjData :=
  (scan im.num_rows im.num_columns).foldl (recordOne int im.pixels) fun _ => none

/-- `findCenters`. -/
def findCenters (int : ℤ → ℤ) (objects : ℤ → Option ObjData) (v : ℤ) : Option Object :=
  (objects v).bind (ObjData.findCenter int)

/-- `recordSecondData`; a pixel without a record is passed over. -/
def recordSecondData (im : Image) (objects : ℤ → Option Object) (v : ℤ) : Option Object :=
  ((scan im.num_rows im.num_columns).foldl (fun objects p =>
    if 0 < im.pixels p.1 p.2 then
      Function.update objects (im.pixels p.1 p.2)
        ((objects (im.pixels p.1 p.2)).map fun obj => obj.addSecond p)
    else objects) objects v).map Object.finish

/-- The records after `recordData`, `findCenters` and `recordSecondData`, with exact
sums. -/
def measure (im : Image) : ℤ → Option Object :=
  im.recordSecondData (findCenters id (im.recordPixels id))

/-! ### The set of the pixels of an object -/

/-- The pixels of one value. -/
def cells (im : Image) (v : ℤ) : List Pixel :=
  (scan im.num_rows im.num_columns).filter fun p => im.pixels p.1 p.2 = v

/-- The pixels of one value as points. -/
def region (im : Image) (v : ℤ) : Finset (ℤ × ℤ) :=
  ((im.cells v).map fun p => ((p.1 : ℤ), (p.2 : ℤ))).toFinset

theorem nodup_cells (im : Image) (v : ℤ) :
    ((im.cells v).map fun p => ((p.1 : ℤ), (p.2 : ℤ))).Nodup := by
  refine List.Nodup.map (fun p q h => ?_) ((nodup_scan _ _).filter _)
  obtain ⟨hrow, hcol⟩ := Prod.mk.inj h
  exact Prod.ext (by exact_mod_cast hrow) (by exact_mod_cast hcol)

theorem mem_region {im : Image} {v : ℤ} {x : ℤ × ℤ} : x ∈ im.region v ↔
    ∃ i j : ℕ, x = (↑i, ↑j) ∧ (i < im.num_rows ∧ j < im.num_columns) ∧ im.pixels i j = v := by
  simp only [region, cells, List.mem_toFinset, List.mem_map, List.mem_filter, mem_scan,
    decide_eq_true_eq]
  constructor
  · rintro ⟨p, ⟨hin, hv⟩, rfl⟩
    exact ⟨p.1, p.2, rfl, hin, hv⟩
  · rintro ⟨i, j, rfl, hin, hv⟩
    exact ⟨(i, j), ⟨hin, hv⟩, rfl⟩

theorem sum_cells (im : Image) (v : ℤ) (f : ℤ × ℤ → ℤ) :
    ((im.cells v).map fun p => f (p.1, p.2)).sum = ∑ x ∈ im.region v, f x := by
  rw [region, List.sum_toFinset f (im.nodup_cells v), List.map_map]
  rfl

theorem length_cells (im : Image) (v : ℤ) : (im.cells v).length = (im.region v).card := by
  rw [region, List.toFinset_card_of_nodup (im.nodup_cells v), List.length_map]

theorem cells_ne_nil {im : Image} {v : ℤ} : im.cells v ≠ [] ↔ (im.region v).Nonempty := by
  rw [← Finset.card_pos, ← length_cells, List.length_pos_iff]

/-! ### The sums of one record -/

/-- What becomes of a sum that may be reduced at every step. -/
structure Sums (int : ℤ → ℤ) : Prop where
  zero : int 0 = 0
  add : ∀ z w, int (int z + w) = int (z + w)

theorem sums_id : Sums id := ⟨rfl, fun _ _ => rfl⟩

theorem sums_int32 : Sums int32 := ⟨rfl, int32_add_int32⟩

def rowSum (ps : List Pixel) : ℤ := (ps.map fun p => (p.1 : ℤ)).sum

def colSum (ps : List Pixel) : ℤ := (ps.map fun p => (p.2 : ℤ)).sum

variable {int : ℤ → ℤ}

/-- Some pixels in the record of their value. -/
theorem foldl_recordData (hint : Sums int) (v x y n : ℤ) (ps : List Pixel) :
    ps.foldl (fun obj p => obj.recordData int p) (⟨v, int x, int y, int n⟩ : ObjData) =
      ⟨v, int (x + colSum ps), int (y + rowSum ps), int (n + ps.length)⟩ := by
  induction ps generalizing x y n with
  | nil => simp [colSum, rowSum]
  | cons p ps ih =>
    have hstep : (⟨v, int x, int y, int n⟩ : ObjData).recordData int p =
        ⟨v, int (x + p.2), int (y + p.1), int (n + 1)⟩ := by
      simp only [ObjData.recordData, hint.add]
    rw [List.foldl_cons, hstep, ih]
    simp only [colSum, rowSum, List.map_cons, List.sum_cons, List.length_cons]
    push_cast
    simp only [add_assoc, add_comm (1 : ℤ)]

/-- What `recordData` keeps: for each positive value of a pixel the sums over its pixels. -/
theorem recordPixels_eq (hint : Sums int) (im : Image) (v : ℤ) :
    im.recordPixels int v = if 0 < v ∧ (im.region v).Nonempty then
      some ⟨v, int (∑ x ∈ im.region v, x.2), int (∑ x ∈ im.region v, x.1), int (im.region v).card⟩
    else none := by
  have hkey := foldl_update_key_if (fun p : Pixel => im.pixels p.1 p.2) (fun k => 0 < k)
    (fun (o : Option ObjData) p =>
      some ((o.getD { label := im.pixels p.1 p.2 }).recordData int p)) v
    (scan im.num_rows im.num_columns) fun _ => none
  refine hkey.trans ?_
  by_cases hv : 0 < v
  · simp only [hv, true_and]
    change (im.cells v).foldl _ none = _
    cases hcells : im.cells v with
    | nil =>
      have hempty : ¬ (im.region v).Nonempty := fun hne => cells_ne_nil.mpr hne hcells
      rw [if_neg hempty]
      rfl
    | cons p ps =>
      have hvalue : ∀ q ∈ p :: ps, im.pixels q.1 q.2 = v := fun q hq => by
        rw [← hcells] at hq
        simpa using (List.mem_filter.mp hq).2
      have hsome := foldl_getD_some (fun p : Pixel => ({ label := im.pixels p.1 p.2 } : ObjData))
        (fun obj p => obj.recordData int p) ps
      have hfirst : (⟨v, 0, 0, 0⟩ : ObjData) = ⟨v, int 0, int 0, int 0⟩ := by rw [hint.zero]
      rw [List.foldl_cons, hsome, hvalue p List.mem_cons_self]
      change some ((p :: ps).foldl (fun (obj : ObjData) p => obj.recordData int p)
        (⟨v, 0, 0, 0⟩ : ObjData)) = _
      have hne : (im.region v).Nonempty := cells_ne_nil.mp (hcells ▸ List.cons_ne_nil p ps)
      rw [hfirst, foldl_recordData hint, if_pos hne, ← hcells, colSum, rowSum,
        im.sum_cells v Prod.snd, im.sum_cells v Prod.fst, length_cells]
      simp only [zero_add]
  · simp only [hv, false_and]
    rfl

/-! ### The second moments -/

/-- Some pixels in the sums of the second moments. -/
theorem foldl_addSecond (obj : Object) (ps : List Pixel) :
    ps.foldl Object.addSecond obj = { obj with
      totalXPrime := obj.totalXPrime + (ps.map fun p => ((p.2 : ℤ) - obj.centerCol) ^ 2).sum
      totalYPrime := obj.totalYPrime + (ps.map fun p => ((p.1 : ℤ) - obj.centerRow) ^ 2).sum
      b := obj.b +
        (ps.map fun p => ((p.2 : ℤ) - obj.centerCol) * (p.1 - obj.centerRow)).sum } := by
  induction ps generalizing obj with
  | nil => simp
  | cons p ps ih =>
    rw [List.foldl_cons, ih]
    simp only [Object.addSecond, List.map_cons, List.sum_cons, add_assoc]

/-- What `recordSecondData` adds to a record: the sums over the pixels of its value. -/
theorem recordSecondData_eq (im : Image) (objects : ℤ → Option Object) (v : ℤ) :
    im.recordSecondData objects v = (objects v).map fun obj =>
      (if 0 < v then (im.cells v).foldl Object.addSecond obj else obj).finish := by
  have hkey := foldl_update_key_if (fun p : Pixel => im.pixels p.1 p.2) (fun k => 0 < k)
    (fun (o : Option Object) p => o.map fun obj => obj.addSecond p) v
    (scan im.num_rows im.num_columns) objects
  rw [recordSecondData, hkey, foldl_option_map]
  split_ifs
  · rw [Option.map_map]
    rfl
  · rfl

/-! ### The record of a set -/

/-- Where the object is: its sums over the number of its pixels, cut off. -/
def centre (s : Finset (ℤ × ℤ)) : ℤ × ℤ :=
  ((∑ x ∈ s, x.1).tdiv s.card, (∑ x ∈ s, x.2).tdiv s.card)

/-- The record of a set of pixels. -/
def descriptor (v : ℤ) (s : Finset (ℤ × ℤ)) : Object where
  label := v
  totalX := ∑ x ∈ s, x.2
  totalY := ∑ x ∈ s, x.1
  area := s.card
  centerRow := (centre s).1
  centerCol := (centre s).2
  totalXPrime := Moments.product s Prod.snd Prod.snd (centre s).2 (centre s).2
  totalYPrime := Moments.product s Prod.fst Prod.fst (centre s).1 (centre s).1
  a := Moments.product s Prod.snd Prod.snd (centre s).2 (centre s).2
  b := Moments.product s Prod.snd Prod.fst (centre s).2 (centre s).1 * 2
  c := Moments.product s Prod.fst Prod.fst (centre s).1 (centre s).1

theorem findCenter_descriptor (v : ℤ) {s : Finset (ℤ × ℤ)} (hs : s.Nonempty) :
    (⟨v, ∑ x ∈ s, x.2, ∑ x ∈ s, x.1, s.card⟩ : ObjData).findCenter id =
      some ⟨⟨v, ∑ x ∈ s, x.2, ∑ x ∈ s, x.1, s.card⟩,
        (centre s).1, (centre s).2, 0, 0, 0, 0, 0⟩ := by
  have harea : (s.card : ℤ) ≠ 0 := by exact_mod_cast hs.card_ne_zero
  simp only [ObjData.findCenter, if_neg harea]
  rfl

/-- What is measured of an object is the descriptor of its pixels. -/
theorem measure_eq (im : Image) (v : ℤ) : im.measure v =
    if 0 < v ∧ (im.region v).Nonempty then some (descriptor v (im.region v)) else none := by
  rw [measure, recordSecondData_eq, findCenters, recordPixels_eq sums_id]
  by_cases h : 0 < v ∧ (im.region v).Nonempty
  · rw [if_pos h, if_pos h, Option.bind_some]
    simp only [id, h.1, if_true, findCenter_descriptor v h.2, Option.map_some, foldl_addSecond]
    have hxx := im.sum_cells v fun x => (x.2 - (centre (im.region v)).2) ^ 2
    have hyy := im.sum_cells v fun x => (x.1 - (centre (im.region v)).1) ^ 2
    have hxy := im.sum_cells v fun x =>
      (x.2 - (centre (im.region v)).2) * (x.1 - (centre (im.region v)).1)
    simp only [hxx, hyy, hxy, Object.finish, zero_add]
    simp only [descriptor, Moments.product, sq]
  · rw [if_neg h, if_neg h]
    rfl

/-! ### Shifts -/

section Shift

variable {s : Finset (ℤ × ℤ)} {d : ℤ × ℤ}

/-- Quotients cut off towards zero go along with a shift where both sums are positive. -/
theorem tdiv_shift {z n d : ℤ} (hn : 0 < n) (hz : 0 ≤ z) (hd : 0 ≤ z + n * d) :
    (z + n * d).tdiv n = z.tdiv n + d := by
  rw [Int.tdiv_eq_ediv_of_nonneg hd, Int.tdiv_eq_ediv_of_nonneg hz,
    Int.add_mul_ediv_left _ _ hn.ne']

theorem centre_map (hs : s.Nonempty) (h0 : ∀ x ∈ s, 0 ≤ x.1 ∧ 0 ≤ x.2)
    (hd : ∀ x ∈ s, 0 ≤ (x + d).1 ∧ 0 ≤ (x + d).2) :
    centre (s.map (addRightEmbedding d)) = centre s + d := by
  have hpos : (0 : ℤ) < s.card := by exact_mod_cast hs.card_pos
  have hrow := Moments.sum_map_shift (s := s) (x := fun x : ℤ × ℤ => x.1) (addRightEmbedding d)
    fun x => (rfl : (x + d).1 = x.1 + d.1)
  have hcol := Moments.sum_map_shift (s := s) (x := fun x : ℤ × ℤ => x.2) (addRightEmbedding d)
    fun x => (rfl : (x + d).2 = x.2 + d.2)
  have hnonneg : ∀ (f : ℤ × ℤ → ℤ), (∀ x ∈ s, 0 ≤ f (x + d)) →
      0 ≤ ∑ x ∈ s.map (addRightEmbedding d), f x := by
    intro f hf
    rw [Finset.sum_map]
    exact Finset.sum_nonneg hf
  unfold centre
  rw [Finset.card_map, hrow, hcol]
  refine Prod.ext (tdiv_shift hpos (Finset.sum_nonneg fun x hx => (h0 x hx).1) ?_)
    (tdiv_shift hpos (Finset.sum_nonneg fun x hx => (h0 x hx).2) ?_)
  · exact hrow ▸ hnonneg Prod.fst fun x hx => (hd x hx).1
  · exact hcol ▸ hnonneg Prod.snd fun x hx => (hd x hx).2

theorem region_nonneg {im : Image} {v : ℤ} {x : ℤ × ℤ} (h : x ∈ im.region v) :
    0 ≤ x.1 ∧ 0 ≤ x.2 := by
  obtain ⟨i, j, rfl, -⟩ := mem_region.mp h
  exact ⟨Int.natCast_nonneg i, Int.natCast_nonneg j⟩

/-- The record of an object goes along with a shift of its pixels. -/
theorem measure_shift {im im' : Image} {L : ℤ} (hL : 0 < L) (hne : (im.region L).Nonempty)
    (hshift : im'.region L = (im.region L).map (addRightEmbedding d)) :
    ∃ o o', im.measure L = some o ∧ im'.measure L = some o' ∧ o'.area = o.area ∧
      (o'.a = o.a ∧ o'.b = o.b ∧ o'.c = o.c) ∧
      o'.centerRow = o.centerRow + d.1 ∧ o'.centerCol = o.centerCol + d.2 := by
  have hne' : (im'.region L).Nonempty := hshift ▸ hne.map
  have hcentre : centre ((im.region L).map (addRightEmbedding d)) = centre (im.region L) + d := by
    refine centre_map hne (fun x hx => region_nonneg hx) fun x hx => ?_
    have hmem : x + d ∈ im'.region L := by
      rw [hshift]
      exact Finset.mem_map_of_mem (addRightEmbedding d) hx
    exact region_nonneg hmem
  have hrows := congrArg Prod.fst hcentre
  have hcols := congrArg Prod.snd hcentre
  refine ⟨descriptor L (im.region L), descriptor L (im'.region L), ?_, ?_, ?_, ⟨?_, ?_, ?_⟩, ?_, ?_⟩
  · rw [measure_eq, if_pos ⟨hL, hne⟩]
  · rw [measure_eq, if_pos ⟨hL, hne'⟩]
  · rw [hshift]
    exact congrArg Nat.cast (Finset.card_map (addRightEmbedding d))
  · simp only [descriptor, hshift, hcols]
    exact Moments.product_map (addRightEmbedding d) (fun _ => rfl) (fun _ => rfl) _ _
  · simp only [descriptor, hshift, hcols, hrows]
    exact congrArg (· * 2)
      (Moments.product_map (addRightEmbedding d) (fun _ => rfl) (fun _ => rfl) _ _)
  · simp only [descriptor, hshift, hrows]
    exact Moments.product_map (addRightEmbedding d) (fun _ => rfl) (fun _ => rfl) _ _
  · rw [hshift]
    exact hrows
  · rw [hshift]
    exact hcols

end Shift

/-- An image of two rows and three columns. -/
def strip (pixels : ℕ → ℕ → ℤ) : Image := allocate pixels 2 3

/-- Two pixels side by side, and the same one row down and one column on, beside another
object. -/
theorem measure_shift_strip :
    ∃ o o', (strip fun i j => if i = 0 ∧ j < 2 then 30 else 0).measure 30 = some o ∧
      (strip fun i j => if i = 1 ∧ 0 < j then 30 else 60).measure 30 = some o' ∧
      o'.area = o.area ∧ (o'.a = o.a ∧ o'.b = o.b ∧ o'.c = o.c) ∧
      o'.centerRow = o.centerRow + 1 ∧ o'.centerCol = o.centerCol + 1 :=
  measure_shift (d := (1, 1)) (by decide) (by decide) (by decide)

/-! ### The inequality -/

/-- The moments of an object are not negative, about no axis. -/
theorem measure_nonneg {im : Image} {v : ℤ} {o : Object} (h : im.measure v = some o) :
    0 ≤ o.a ∧ 0 ≤ o.c ∧ o.b ^ 2 ≤ 4 * o.a * o.c ∧
      ∀ s t : ℝ, 0 ≤ Moments.form (o.a : ℝ) o.b o.c s t := by
  rw [measure_eq] at h
  split_ifs at h
  obtain rfl := Option.some.inj h
  have ha := Moments.product_self_nonneg (im.region v) Prod.snd (centre (im.region v)).2
  have hc := Moments.product_self_nonneg (im.region v) Prod.fst (centre (im.region v)).1
  have hb : (descriptor v (im.region v)).b ^ 2 ≤
      4 * (descriptor v (im.region v)).a * (descriptor v (im.region v)).c := by
    have hsq := Moments.product_sq_le (im.region v) Prod.snd Prod.fst (centre (im.region v)).2
      (centre (im.region v)).1
    simp only [descriptor]
    linarith
  refine ⟨ha, hc, hb, fun s t => Moments.form_nonneg ?_ ?_ ?_ s t⟩
  · exact_mod_cast ha
  · exact_mod_cast hc
  · exact_mod_cast hb

theorem measure_nonneg_strip : ∃ o, (strip fun i _ => i + 1).measure 2 = some o ∧ 0 ≤ o.a ∧
    0 ≤ o.c ∧ o.b ^ 2 ≤ 4 * o.a * o.c ∧ ∀ s t : ℝ, 0 ≤ Moments.form (o.a : ℝ) o.b o.c s t := by
  have hsome : ((strip fun i _ => i + 1).measure 2).isSome = true := by decide
  obtain ⟨o, ho⟩ := Option.isSome_iff_exists.mp hsome
  exact ⟨o, ho, measure_nonneg ho⟩

end Image

end SchoolProjects.Vision
