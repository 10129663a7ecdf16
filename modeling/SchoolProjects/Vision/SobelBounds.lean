import SchoolProjects.Lib.Loop
import SchoolProjects.Vision.Pgm
import SchoolProjects.Vision.Sobel

/-! The loops of the Sobel step (`image.h` of the third homework) with their counters of type
`int` and their bounds of type `size_t`. A bound is one less than a size and wraps around for
the size 0. A result `none` is an index outside an array or a counter that leaves its type. -/

namespace SchoolProjects.Vision.SobelImage

open Loop GrayImage

/-- The sum of two numbers of type `int`, where it is one. -/
def intAdd (z w : ℤ) : Option ℤ :=
  if -2 ^ 31 ≤ z + w ∧ z + w < 2 ^ 31 then some (z + w) else none

/-- The indices of the arrays that `AllocateSpaceAndSetSize` makes. -/
def Inside (im : SobelImage) (i j : ℤ) : Prop :=
  (0 ≤ i ∧ i < im.num_rows) ∧ 0 ≤ j ∧ j < im.num_columns

instance (im : SobelImage) (i j : ℤ) : Decidable (im.Inside i j) :=
  inferInstanceAs (Decidable (_ ∧ _))

/-- `pixels_[i][j]`. -/
def pixelAt (im : SobelImage) (i j : ℤ) : Option ℤ :=
  if im.Inside i j then some (im.pixels i.toNat j.toNat) else none

/-- `pixels_[i+a][j+a]`; the loop of `convolute` starts with -1. -/
def neighbour (im : SobelImage) (i j : ℤ) (a : Fin 3) : Option ℤ := do
  let row ← intAdd i (a - 1)
  let column ← intAdd j (a - 1)
  im.pixelAt row column

/-- The inner loop of `convolute`. -/
def convoluteRowAt (im : SobelImage) (filter : Filter) (i j : ℤ) (total : ℤ) (a : Fin 3) :
    Option ℤ :=
  (List.finRange 3).foldlM (fun total b => do
    let pixel ← im.neighbour i j a
    return int32 (total + int32 (pixel * filter a b))) total

def convoluteAt (im : SobelImage) (filter : Filter) (i j : ℤ) : Option ℤ :=
  (List.finRange 3).foldlM (im.convoluteRowAt filter i j) 0

/-- The body of the loops of `performSobel`. -/
def sobelStep (im : SobelImage) (i j : ℤ) : Option SobelImage := do
  let gX ← im.convoluteAt sobelX i j
  let gY ← im.convoluteAt sobelY i j
  if im.Inside i j then
    return im.setSobel (i.toNat, j.toNat) ({ gX := gX, gY := gY } : SVals).computeValues
  else none

/-- `num_rows_-1` or `num_columns_-1`. -/
def bound (size : ℕ) : ℕ := size_t (size - 1)

/-- The counters, and the image so far; without `j` the outer loop is tested. -/
structure SobelState where
  i : ℤ
  j : Option ℤ
  im : SobelImage

def sobelBody (s : SobelState) : SobelState ⊕ Option SobelImage :=
  match s.j with
  | none =>
    if size_t s.i < bound s.im.num_rows then .inl { s with j := some 1 } else .inr (some s.im)
  | some j =>
    if size_t j < bound s.im.num_columns then
      match s.im.sobelStep s.i j, intAdd j 1 with
      | some im, some j => .inl ⟨s.i, some j, im⟩
      | _, _ => .inr none
    else
      match intAdd s.i 1 with
      | some i => .inl ⟨i, none, s.im⟩
      | none => .inr none

/-- `performSobel` ends with the result `r`. -/
def PerformSobel (im : SobelImage) (r : Option SobelImage) : Prop := Ends sobelBody ⟨1, none, im⟩ r

/-! ### Rounds -/

section Rounds

variable {s s' : SobelState} {im im' : SobelImage} {i j : ℤ}

theorem intAdd_eq {z w : ℤ} (h0 : -2 ^ 31 ≤ z + w) (h1 : z + w < 2 ^ 31) :
    intAdd z w = some (z + w) := if_pos ⟨h0, h1⟩

theorem intAdd_eq_some {z w v : ℤ} (h : intAdd z w = some v) : v = z + w ∧ v < 2 ^ 31 := by
  unfold intAdd at h
  split_ifs at h with hrange
  obtain rfl := Option.some.inj h
  exact ⟨rfl, hrange.2⟩

theorem size_t_counter {z : ℤ} (h1 : 1 ≤ z) (h2 : z < 2 ^ 31) : (size_t z : ℤ) = z := by
  unfold size_t
  omega

/-- A bound in the range of the counters. -/
theorem bound_lt_iff {size : ℕ} (h : size < 2 ^ 64) :
    bound size < 2 ^ 31 ↔ 1 ≤ size ∧ size ≤ 2 ^ 31 := by
  unfold bound size_t
  omega

theorem lt_bound_iff {size n : ℕ} (h1 : 1 ≤ size) (h2 : size ≤ 2 ^ 31) (hn : n < 2 ^ 64) :
    size_t n < bound size ↔ n + 1 < size := by
  rw [size_t_natCast hn, bound]
  unfold size_t
  omega

theorem intAdd_one {n : ℕ} (h : n + 1 < 2 ^ 31) : intAdd n 1 = some ((n + 1 : ℕ) : ℤ) := by
  rw [intAdd_eq (by omega) (by omega)]
  rfl

/-- A step writes into `sData` and leaves the sizes as they are. -/
theorem sobelStep_sizes (h : im.sobelStep i j = some im') :
    im'.num_rows = im.num_rows ∧ im'.num_columns = im.num_columns := by
  obtain ⟨gX, -, h⟩ := Option.bind_eq_some_iff.mp h
  obtain ⟨gY, -, h⟩ := Option.bind_eq_some_iff.mp h
  split_ifs at h
  obtain rfl := Option.some.inj h
  exact ⟨rfl, rfl⟩

theorem sobelBody_enter (h : size_t i < bound im.num_rows) :
    sobelBody ⟨i, none, im⟩ = .inl ⟨i, some 1, im⟩ := if_pos h

theorem sobelBody_done (h : bound im.num_rows ≤ size_t i) :
    sobelBody ⟨i, none, im⟩ = .inr (some im) := if_neg (not_lt.mpr h)

theorem sobelBody_step {j' : ℤ} (h : size_t j < bound im.num_columns)
    (hstep : im.sobelStep i j = some im') (hnext : intAdd j 1 = some j') :
    sobelBody ⟨i, some j, im⟩ = .inl ⟨i, some j', im'⟩ := by
  simp only [sobelBody, if_pos h, hstep, hnext]

theorem sobelBody_leave {i' : ℤ} (h : bound im.num_columns ≤ size_t j)
    (hnext : intAdd i 1 = some i') : sobelBody ⟨i, some j, im⟩ = .inl ⟨i', none, im⟩ := by
  simp only [sobelBody, if_neg (not_lt.mpr h), hnext]

/-- How the loops can end. -/
theorem sobelBody_exit (h : sobelBody s = .inr (some im')) :
    s.j = none ∧ bound s.im.num_rows ≤ size_t s.i := by
  obtain ⟨i, j, im⟩ := s
  cases j with
  | none =>
    simp only [sobelBody] at h
    split_ifs at h with hlt
    exact ⟨rfl, not_lt.mp hlt⟩
  | some j =>
    simp only [sobelBody] at h
    split_ifs at h
    · cases hstep : im.sobelStep i j <;> cases hnext : intAdd j 1 <;> simp [hstep, hnext] at h
    · cases hnext : intAdd i 1 <;> simp [hnext] at h

/-- What the rounds can be. -/
theorem sobelBody_again (h : sobelBody s = .inl s') :
    s'.im.num_rows = s.im.num_rows ∧ s'.im.num_columns = s.im.num_columns ∧
      ((s.j = none ∧ s'.i = s.i ∧ s'.j = some 1) ∨
        (∃ j, s.j = some j ∧ s'.i = s.i ∧ s'.j = some (j + 1) ∧ j + 1 < 2 ^ 31) ∨
        ∃ j, s.j = some j ∧ bound s.im.num_columns ≤ size_t j ∧ s'.i = s.i + 1 ∧
          s'.j = none ∧ s.i + 1 < 2 ^ 31) := by
  obtain ⟨i, j, im⟩ := s
  cases j with
  | none =>
    simp only [sobelBody] at h
    split_ifs at h
    obtain rfl := Sum.inl.inj h
    exact ⟨rfl, rfl, .inl ⟨rfl, rfl, rfl⟩⟩
  | some j =>
    simp only [sobelBody] at h
    split_ifs at h with hlt
    · cases hstep : im.sobelStep i j <;> cases hnext : intAdd j 1 <;> simp [hstep, hnext] at h
      obtain rfl := h
      obtain ⟨rfl, hmax⟩ := intAdd_eq_some hnext
      obtain ⟨hrows, hcolumns⟩ := sobelStep_sizes hstep
      exact ⟨hrows, hcolumns, .inr (.inl ⟨j, rfl, rfl, rfl, hmax⟩)⟩
    · cases hnext : intAdd i 1 <;> simp [hnext] at h
      obtain rfl := h
      obtain ⟨rfl, hmax⟩ := intAdd_eq_some hnext
      exact ⟨rfl, rfl, .inr (.inr ⟨j, rfl, not_lt.mp hlt, rfl, rfl, hmax⟩)⟩

end Rounds

/-! ### Loops that end -/

section Ends

variable {s : SobelState} {im' : SobelImage} {j : ℤ}

/-- Where the loops end, the counter of the outer one has come to its bound. -/
theorem bound_rows_of_ends {r : Option SobelImage} (h : Ends sobelBody s r) (hr : r = some im')
    (h1 : 1 ≤ s.i) (h2 : s.i < 2 ^ 31) : bound s.im.num_rows < 2 ^ 31 := by
  induction h with
  | exit he =>
    rw [hr] at he
    have hle := (sobelBody_exit he).2
    have hi := size_t_counter h1 h2
    omega
  | @again s s' r ha _ ih =>
    obtain ⟨hrows, -, ⟨-, hi, -⟩ | ⟨j, -, hi, -, -⟩ | ⟨j, -, -, hi, -, hmax⟩⟩ := sobelBody_again ha
    all_goals
      rw [← hrows]
      exact ih hr (by omega) (by omega)

/-- And where a row is looked at, so has that of the inner one. -/
theorem bound_columns_of_ends {r : Option SobelImage} (h : Ends sobelBody s r)
    (hr : r = some im') (hj : s.j = some j) (h1 : 1 ≤ j) (h2 : j < 2 ^ 31) :
    bound s.im.num_columns < 2 ^ 31 := by
  induction h generalizing j with
  | exit he =>
    rw [hr] at he
    have hnone := (sobelBody_exit he).1
    rw [hj] at hnone
    cases hnone
  | @again s s' r ha _ ih =>
    obtain ⟨-, hcolumns, ⟨hnone, -⟩ | ⟨j', hj', -, hnext, hmax⟩ | ⟨j', hj', hle, -⟩⟩ :=
      sobelBody_again ha
    · rw [hj] at hnone
      cases hnone
    · obtain rfl := Option.some.inj (hj.symm.trans hj')
      rw [← hcolumns]
      exact ih hr hnext (by omega) hmax
    · obtain rfl := Option.some.inj (hj.symm.trans hj')
      have hsize := size_t_counter h1 h2
      omega

end Ends

/-! ### Rows and columns in range -/

section Interior

variable {im : SobelImage} {i j : ℕ} (hi : 1 ≤ i ∧ i + 1 < im.num_rows)
  (hj : 1 ≤ j ∧ j + 1 < im.num_columns) (hrows : im.num_rows ≤ 2 ^ 31)
  (hcolumns : im.num_columns ≤ 2 ^ 31)

include hi hj hrows hcolumns

theorem neighbour_eq (a : Fin 3) :
    im.neighbour i j a = some (im.pixels (i + a - 1) (j + a - 1)) := by
  have ha := a.isLt
  have hrow : intAdd i (a - 1) = some ((i : ℤ) + (a - 1)) := intAdd_eq (by omega) (by omega)
  have hcolumn : intAdd j (a - 1) = some ((j : ℤ) + (a - 1)) := intAdd_eq (by omega) (by omega)
  have hinside : im.Inside ((i : ℤ) + (a - 1)) ((j : ℤ) + (a - 1)) := by
    unfold Inside
    omega
  have hi' : ((i : ℤ) + (a - 1)).toNat = i + a - 1 := by omega
  have hj' : ((j : ℤ) + (a - 1)).toNat = j + a - 1 := by omega
  simp only [neighbour, hrow, hcolumn, Option.bind_eq_bind, Option.bind_some, pixelAt,
    if_pos hinside, hi', hj']

/-- Between its neighbours a pixel is convoluted without leaving the arrays. -/
theorem convoluteAt_eq (filter : Filter) :
    im.convoluteAt filter i j = some (im.convolute filter i j) := by
  have hrow : im.convoluteRowAt filter i j = fun total a =>
      some (im.convoluteRow filter i j total a) := by
    funext total a
    simp only [convoluteRowAt, neighbour_eq hi hj hrows hcolumns, Option.bind_eq_bind,
      Option.bind_some]
    exact List.foldlM_pure
  rw [convoluteAt, hrow]
  exact List.foldlM_pure

theorem sobelStep_eq :
    im.sobelStep i j = some (im.setSobel (i, j) (im.sobelAt (i, j))) := by
  have hinside : im.Inside i j := by
    unfold Inside
    omega
  simp only [sobelStep, convoluteAt_eq hi hj hrows hcolumns, Option.bind_eq_bind,
    Option.bind_some, if_pos hinside, Int.toNat_natCast]
  rfl

end Interior

/-! ### Runs -/

/-- The image after the steps of `performSobel` for some pixels. -/
def stored (im : SobelImage) (ps : List Pixel) : SobelImage :=
  ps.foldl (fun im p => im.setSobel p (im.sobelAt p)) im

/-- The pixels of row `i` that are not on the border. -/
def interiorRow (num_columns i : ℕ) : List Pixel :=
  (List.range' 1 (num_columns - 2)).map fun j => (i, j)

section Runs

variable {im : SobelImage}

theorem stored_append (im : SobelImage) (ps qs : List Pixel) :
    im.stored (ps ++ qs) = (im.stored ps).stored qs := List.foldl_append

theorem stored_sizes (im : SobelImage) (ps : List Pixel) :
    (im.stored ps).num_rows = im.num_rows ∧ (im.stored ps).num_columns = im.num_columns := by
  induction ps generalizing im with
  | nil => exact ⟨rfl, rfl⟩
  | cons p ps ih => exact ih (im.setSobel p (im.sobelAt p))

/-- The inner loop over `n` pixels. -/
theorem leads_columns (im : SobelImage) {i : ℕ} (hi : 1 ≤ i ∧ i + 1 < im.num_rows)
    (hrows : im.num_rows ≤ 2 ^ 31) (hcolumns : im.num_columns ≤ 2 ^ 31) (n j : ℕ) (hj : 1 ≤ j)
    (hn : 0 < n → j + n < im.num_columns) :
    Leads sobelBody ⟨i, some (j : ℤ), im⟩
      ⟨i, some ((j + n : ℕ) : ℤ), im.stored ((List.range' j n).map fun j => (i, j))⟩ := by
  induction n generalizing im j with
  | zero => exact .refl _
  | succ n ih =>
    have hlt : j + 1 < im.num_columns := by omega
    have hround := sobelBody_step ((lt_bound_iff (by omega) hcolumns (by omega)).mpr hlt)
      (sobelStep_eq hi ⟨hj, hlt⟩ hrows hcolumns) (intAdd_one (by omega))
    have hrest := ih (im.setSobel (i, j) (im.sobelAt (i, j))) hi hrows hcolumns (j + 1)
      (by omega) fun h => by
        have := hn (by omega)
        show j + 1 + n < im.num_columns
        omega
    rw [List.range'_succ, List.map_cons, show j + (n + 1) = j + 1 + n by omega]
    exact .again hround hrest

/-- A round of the outer loop. -/
theorem leads_row (im : SobelImage) {i : ℕ} (hi : 1 ≤ i ∧ i + 1 < im.num_rows)
    (hrows : im.num_rows ≤ 2 ^ 31)
    (hcolumns : 1 ≤ im.num_columns ∧ im.num_columns ≤ 2 ^ 31) :
    Leads sobelBody ⟨i, none, im⟩
      ⟨((i + 1 : ℕ) : ℤ), none, im.stored (interiorRow im.num_columns i)⟩ := by
  have henter := sobelBody_enter ((lt_bound_iff (by omega) hrows (by omega)).mpr hi.2)
  have hcolumns' := leads_columns im hi hrows hcolumns.2 (im.num_columns - 2) 1 le_rfl (by omega)
  obtain ⟨-, hsame⟩ := stored_sizes im (interiorRow im.num_columns i)
  have hlast : bound (im.stored (interiorRow im.num_columns i)).num_columns ≤
      size_t ((1 + (im.num_columns - 2) : ℕ) : ℤ) := by
    rw [hsame, ← not_lt, lt_bound_iff hcolumns.1 hcolumns.2 (by omega)]
    omega
  have hleave := sobelBody_leave hlast (intAdd_one (by omega : i + 1 < 2 ^ 31))
  exact .again henter (hcolumns'.trans (.again hleave (.refl _)))

/-- The outer loop over `n` rows. -/
theorem leads_rows (im : SobelImage) (hrows : im.num_rows ≤ 2 ^ 31)
    (hcolumns : 1 ≤ im.num_columns ∧ im.num_columns ≤ 2 ^ 31) (n i : ℕ) (hi : 1 ≤ i)
    (hn : i + n < im.num_rows) :
    Leads sobelBody ⟨i, none, im⟩ ⟨((i + n : ℕ) : ℤ), none,
      im.stored ((List.range' i n).flatMap (interiorRow im.num_columns))⟩ := by
  induction n generalizing im i with
  | zero => exact .refl _
  | succ n ih =>
    have hrow := leads_row im (i := i) ⟨hi, by omega⟩ hrows hcolumns
    obtain ⟨hsame, hsame'⟩ := stored_sizes im (interiorRow im.num_columns i)
    have hrest := ih (im.stored (interiorRow im.num_columns i)) (by omega) (by omega) (i + 1)
      (by omega) (by omega)
    rw [hsame', ← stored_append] at hrest
    rw [List.range'_succ, List.flatMap_cons, show i + (n + 1) = i + 1 + n by omega]
    exact hrow.trans hrest

/-- Where the bounds are in the range of the counters, the loops end with the image that has
the values of all pixels inside. -/
theorem performSobel_refines (hrows : 1 ≤ im.num_rows ∧ im.num_rows ≤ 2 ^ 31)
    (hcolumns : im.num_rows ≤ 2 ∨ 1 ≤ im.num_columns ∧ im.num_columns ≤ 2 ^ 31) :
    im.performSobel = some (im.stored im.interior) ∧
      PerformSobel im (some (im.stored im.interior)) := by
  have hdefined : ¬ (im.num_rows = 0 ∨ (im.num_columns = 0 ∧ 3 ≤ im.num_rows)) := by omega
  refine ⟨if_neg hdefined, ?_⟩
  by_cases hsmall : im.num_rows ≤ 2
  · have hnone : im.interior = [] := by
      rw [interior, show im.num_rows - 2 = 0 by omega]
      rfl
    have hlast : bound im.num_rows ≤ size_t 1 := by
      unfold bound size_t
      omega
    rw [hnone]
    exact .exit (sobelBody_done hlast)
  · have hrun := leads_rows im hrows.2 (hcolumns.resolve_left hsmall) (im.num_rows - 2) 1 le_rfl
      (by omega)
    have hlast : bound (im.stored im.interior).num_rows ≤
        size_t ((1 + (im.num_rows - 2) : ℕ) : ℤ) := by
      rw [(stored_sizes im im.interior).1, ← not_lt, lt_bound_iff hrows.1 hrows.2 (by omega)]
      omega
    exact hrun.ends_iff.mpr (.exit (sobelBody_done hlast))

/-- All indices are inside the arrays and both loops end if and only if the image has a row,
the counters can come to the bounds of the loops, and an image that has rows inside has a
column. -/
theorem sobel_in_bounds_iff (im : SobelImage) (hr : im.num_rows < 2 ^ 64)
    (hc : im.num_columns < 2 ^ 64) : (∃ im', PerformSobel im (some im')) ↔
      (1 ≤ im.num_rows ∧ im.num_rows ≤ 2 ^ 31) ∧
        (im.num_rows ≤ 2 ∨ 1 ≤ im.num_columns ∧ im.num_columns ≤ 2 ^ 31) := by
  constructor
  · rintro ⟨im', hends⟩
    have hrows := (bound_lt_iff hr).mp
      (bound_rows_of_ends hends rfl (by norm_num) (by norm_num))
    refine ⟨hrows, ?_⟩
    by_cases hsmall : im.num_rows ≤ 2
    · exact .inl hsmall
    · have hlt : size_t 1 < bound im.num_rows :=
        (lt_bound_iff hrows.1 hrows.2 (by norm_num : 1 < 2 ^ 64)).mpr (by omega)
      have hrow := (ends_again_iff (sobelBody_enter hlt)).mp hends
      exact .inr ((bound_lt_iff hc).mp
        (bound_columns_of_ends hrow rfl rfl (by norm_num) (by norm_num)))
  · rintro ⟨hrows, hcolumns⟩
    exact ⟨_, (performSobel_refines hrows hcolumns).2⟩

end Runs

theorem sobel_in_bounds_iff_corner : (∃ im', PerformSobel (corner 1) (some im')) ↔
    (1 ≤ (corner 1).num_rows ∧ (corner 1).num_rows ≤ 2 ^ 31) ∧
      ((corner 1).num_rows ≤ 2 ∨ 1 ≤ (corner 1).num_columns ∧ (corner 1).num_columns ≤ 2 ^ 31) :=
  sobel_in_bounds_iff (corner 1) (by decide) (by decide)

/-- Three columns and no rows. -/
def noRows : SobelImage := { corner 0 with num_rows := 0 }

/-- The loops do not end inside an image without rows. -/
theorem no_rows_out_of_bounds : ¬ ∀ im : SobelImage, im.num_rows < 2 ^ 64 →
    im.num_columns < 2 ^ 64 → ∃ im', PerformSobel im (some im') := by
  intro h
  obtain ⟨im', hends⟩ := h noRows (by decide) (by decide)
  have hbound := bound_rows_of_ends hends rfl (by norm_num) (by norm_num)
  revert hbound
  decide

end SchoolProjects.Vision.SobelImage
