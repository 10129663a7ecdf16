import SchoolProjects.Lib.Stream
import SchoolProjects.Vision.Hough
import SchoolProjects.Vision.Pgm

/-! Peaks of the accumulator (`readArray` of the third homework). In windows of ten rows and
ten columns the cells that reach the threshold are averaged and the cell there is marked.
The excess over the threshold is added to the coordinates, and cut off to the count, so
the average stays below the end of the window but not above its start. The function `double`
is what becomes of a number of type `double`: the number itself, or the rounded one; here
weights are exact. Drawing the lines is left out. -/

namespace SchoolProjects.Vision

open Text

namespace HoughImage

/-- `file >> value` for each cell, where `value` holds what the stack does. -/
def readValues : List Pixel → Istream → (ℕ → ℕ → Int32) → ℕ → ℕ → Int32
  | [], _, table => table
  | p :: ps, file, table =>
    let (value, file) := file.extract Scan.int (table p.1 p.2).toInt
    readValues ps file
      (Function.update table p.1 (Function.update (table p.1) p.2 (Int32.ofInt value)))

/-- `temp[x][y]`. -/
def temp (table : ℕ → ℕ → Int32) (threshold : Int32) (p : Pixel) : ℤ :=
  if threshold ≤ table p.1 p.2 then (table p.1 p.2).toInt else 0

/-- The sums of one window. -/
structure Weighing where
  count : ℤ := 0
  totalX : ℚ := 0
  totalY : ℚ := 0

/-- `(temp[x][y]-threshold)*.001`. -/
def weight (threshold : Int32) (value : ℤ) (double : ℚ → ℚ := id) : ℚ :=
  double ((value - threshold.toInt) * double (1 / 1000))

/-- The body of the loop over the cells of a window; the conversion to `int` comes after
the addition. -/
def Weighing.add (threshold : Int32) (value : ℤ) (t : Weighing) (p : Pixel)
    (double : ℚ → ℚ := id) : Weighing where
  count := int32 (trunc (double (t.count + double (1 + weight threshold value double))))
  totalX := double (t.totalX + double (p.1 + weight threshold value double))
  totalY := double (t.totalY + double (p.2 + weight threshold value double))

/-- The cells the two inner loops look at. Each `break` leaves the inner of them. -/
def window (im : HoughImage) (w : Pixel) : List Pixel :=
  (List.range' w.1 10).flatMap fun x =>
    ((List.range' w.2 10).takeWhile fun y => x < im.maxRho ∧ y < im.intervals).map fun y => (x, y)

def weigh (im : HoughImage) (table : ℕ → ℕ → Int32) (threshold : Int32) (w : Pixel)
    (double : ℚ → ℚ := id) : Weighing :=
  (im.window w).foldl (fun t p =>
    if 0 < temp table threshold p then t.add threshold (temp table threshold p) p double else t) {}

/-- `if (avg >= n) avg = n;` -/
def clamp (avg : ℚ) (n : ℕ) : ℚ := if n ≤ avg then n else avg

/-- The cell that is marked for a window. -/
def peak (im : HoughImage) (table : ℕ → ℕ → Int32) (threshold : Int32) (w : Pixel)
    (double : ℚ → ℚ := id) : Option (ℤ × ℤ) :=
  let t := im.weigh table threshold w double
  if 0 < t.count then
    some (trunc (clamp (double (t.totalX / t.count)) im.maxRho),
      trunc (clamp (double (t.totalY / t.count)) im.intervals))
  else none

/-- The body of the loop over the windows. -/
def markPeak (table : ℕ → ℕ → Int32) (threshold : Int32) (im : HoughImage) (w : Pixel)
    (double : ℚ → ℚ := id) : Option HoughImage :=
  match im.peak table threshold w double with
  | none => some im
  | some c => im.setHoughPixel (GrayImage.size_t c.1) (GrayImage.size_t c.2) 255 false

/-- Where the windows start. -/
def windows (im : HoughImage) : List Pixel :=
  (Image.scan ((im.maxRho + 9) / 10) ((im.intervals + 9) / 10)).map fun w => (10 * w.1, 10 * w.2)

/-- `readArray` after reading the values. -/
def markPeaks (im : HoughImage) (table : ℕ → ℕ → Int32) (threshold : Int32)
    (double : ℚ → ℚ := id) : Option HoughImage :=
  im.windows.foldlM (fun im w => markPeak table threshold im w double) im

/-- `readArray`, without `drawHoughLines`. -/
def readArray (memory : ℕ → ℕ → Int32) (file : Text) (im : HoughImage) (threshold : Int32)
    (double : ℚ → ℚ := id) : Option HoughImage :=
  im.markPeaks (readValues (Image.scan im.maxRho im.intervals) (.ofText file) memory) threshold
    double

/-! ### The sums of a window -/

section Window

variable {im : HoughImage} {table : ℕ → ℕ → Int32} {threshold : Int32} {w p : Pixel}

/-- The cells of a window that count. -/
def strong (im : HoughImage) (table : ℕ → ℕ → Int32) (threshold : Int32) (w : Pixel) :
    List Pixel :=
  (im.window w).filter fun p => 0 < temp table threshold p

/-- How far a cell is above the threshold. -/
def excess (table : ℕ → ℕ → Int32) (threshold : Int32) (p : Pixel) : ℤ :=
  (table p.1 p.2).toInt - threshold.toInt

theorem mem_window (h : p ∈ im.window w) :
    (w.1 ≤ p.1 ∧ w.2 ≤ p.2) ∧ (p.1 < w.1 + 10 ∧ p.1 < im.maxRho) ∧
      p.2 < w.2 + 10 ∧ p.2 < im.intervals := by
  obtain ⟨x, hx, hp⟩ := List.mem_flatMap.mp h
  obtain ⟨y, hy, rfl⟩ := List.mem_map.mp hp
  have hbound := List.mem_takeWhile_imp hy
  have hrow := List.mem_range'_1.mp hx
  have hcol := List.mem_range'_1.mp ((List.takeWhile_sublist _).subset hy)
  simp only [Bool.decide_and, Bool.and_eq_true, decide_eq_true_eq] at hbound
  omega

theorem length_window_le (im : HoughImage) (w : Pixel) : (im.window w).length ≤ 100 := by
  rw [window, List.length_flatMap]
  refine (List.sum_le_card_nsmul _ 10 ?_).trans (by simp)
  simp only [List.mem_map]
  rintro _ ⟨x, -, rfl⟩
  rw [List.length_map]
  exact (List.takeWhile_sublist _).length_le.trans (by simp)

/-- A cell that counts reaches the threshold, and its value is that of the table. -/
theorem temp_of_strong (h : p ∈ im.strong table threshold w) :
    temp table threshold p = (table p.1 p.2).toInt ∧ 0 ≤ excess table threshold p ∧
      excess table threshold p < 2 ^ 32 := by
  have hpos : 0 < temp table threshold p := by simpa using (List.mem_filter.mp h).2
  unfold temp at hpos ⊢
  split_ifs at hpos ⊢ with hle
  · have hle' := Int32.le_iff_toInt_le.mp hle
    have hhigh := Int32.toInt_lt (table p.1 p.2)
    have hlow := Int32.le_toInt threshold
    unfold excess
    exact ⟨rfl, by omega, by omega⟩
  · omega

/-- The part of the weight that comes into the count. -/
theorem trunc_count {n e : ℤ} (hn : 0 ≤ n) (he : 0 ≤ e) :
    trunc (n + (1 + e * (1 / 1000)) : ℚ) = n + (1 + e / 1000) := by
  have hweight : (e * (1 / 1000) : ℚ) = (e : ℚ) / (1000 : ℕ) := by
    push_cast
    ring
  have hnonneg : (0 : ℚ) ≤ n + (1 + e * (1 / 1000)) := by positivity
  have hcast : (n + (1 + e * (1 / 1000)) : ℚ) = ((n + 1 : ℤ) : ℚ) + (e : ℚ) / (1000 : ℕ) := by
    rw [hweight]
    push_cast
    ring
  rw [trunc_of_nonneg hnonneg, hcast, Int.floor_intCast_add, Rat.floor_intCast_div_natCast]
  push_cast
  ring

theorem Weighing.add_eq {t : Weighing} (h0 : 0 ≤ t.count) (hp : 0 ≤ excess table threshold p)
    (hbound : t.count + (1 + excess table threshold p / 1000) < 2 ^ 31) :
    t.add threshold (table p.1 p.2).toInt p =
      { count := t.count + (1 + excess table threshold p / 1000)
        totalX := t.totalX + (p.1 + excess table threshold p * (1 / 1000))
        totalY := t.totalY + (p.2 + excess table threshold p * (1 / 1000)) } := by
  have hcast : (((table p.1 p.2).toInt : ℚ) - threshold.toInt) = excess table threshold p := by
    rw [excess]
    push_cast
    rfl
  unfold Weighing.add weight
  simp only [id_eq]
  rw [hcast, trunc_count h0 hp, int32_of_range (by omega) hbound]

/-- The weighted count of some cells. -/
def heads (table : ℕ → ℕ → Int32) (threshold : Int32) (ps : List Pixel) : ℤ :=
  (ps.map fun p => 1 + excess table threshold p / 1000).sum

/-- The weighted sum of a coordinate of some cells. -/
def moment (table : ℕ → ℕ → Int32) (threshold : Int32) (coord : Pixel → ℕ) (ps : List Pixel) :
    ℚ :=
  (ps.map fun p => (coord p + excess table threshold p * (1 / 1000) : ℚ)).sum

theorem heads_nonneg {ps : List Pixel} (hps : ∀ p ∈ ps, 0 ≤ excess table threshold p) :
    0 ≤ heads table threshold ps := by
  apply List.sum_nonneg
  simp only [List.mem_map]
  rintro _ ⟨p, hp, rfl⟩
  have := hps p hp
  omega

/-- What the cells that count add to the sums. -/
theorem foldl_add (ps : List Pixel) (t : Weighing) (h0 : 0 ≤ t.count)
    (hps : ∀ p ∈ ps, 0 ≤ excess table threshold p)
    (hbound : t.count + heads table threshold ps < 2 ^ 31) :
    ps.foldl (fun t p => t.add threshold (table p.1 p.2).toInt p) t =
      { count := t.count + heads table threshold ps
        totalX := t.totalX + moment table threshold Prod.fst ps
        totalY := t.totalY + moment table threshold Prod.snd ps } := by
  induction ps generalizing t with
  | nil => simp [heads, moment]
  | cons p ps ih =>
    have hp := hps p List.mem_cons_self
    have hrest : ∀ q ∈ ps, 0 ≤ excess table threshold q := fun q hq =>
      hps q (List.mem_cons_of_mem p hq)
    have hnonneg := heads_nonneg hrest
    have hcons : heads table threshold (p :: ps) =
        1 + excess table threshold p / 1000 + heads table threshold ps := rfl
    rw [hcons] at hbound
    rw [List.foldl_cons, Weighing.add_eq h0 hp (by omega),
      ih _ (by show 0 ≤ t.count + _; omega) hrest (by show t.count + _ + _ < _; omega)]
    simp only [heads, moment, List.map_cons, List.sum_cons, add_assoc]

/-- A hundred weights of numbers of type `int` do not leave the type. -/
theorem heads_strong_lt (im : HoughImage) (table : ℕ → ℕ → Int32) (threshold : Int32) (w : Pixel) :
    heads table threshold (im.strong table threshold w) < 2 ^ 31 := by
  have hlength : (im.strong table threshold w).length ≤ 100 :=
    (List.length_filter_le _ _).trans (im.length_window_le w)
  have hle : heads table threshold (im.strong table threshold w) ≤
      (im.strong table threshold w).length • (4294968 : ℤ) := by
    rw [heads, ← List.length_map]
    apply List.sum_le_card_nsmul
    simp only [List.mem_map]
    rintro _ ⟨p, hp, rfl⟩
    have := (temp_of_strong hp).2.2
    omega
  rw [nsmul_eq_mul] at hle
  omega

/-- Only the cells that count add to the sums. -/
theorem weigh_eq_foldl (im : HoughImage) (table : ℕ → ℕ → Int32) (threshold : Int32) (w : Pixel)
    (double : ℚ → ℚ) : im.weigh table threshold w double =
      (im.strong table threshold w).foldl
        (fun (t : Weighing) p => t.add threshold (table p.1 p.2).toInt p double) {} := by
  have hfilter : im.weigh table threshold w double = (im.strong table threshold w).foldl
      (fun (t : Weighing) p => t.add threshold (temp table threshold p) p double) {} := by
    rw [strong, List.foldl_filter]
    simp only [decide_eq_true_eq]
    rfl
  rw [hfilter]
  refine List.foldl_ext _ _ _ fun t p hp => ?_
  rw [(temp_of_strong hp).1]

/-- What `readArray` sums up in a window. -/
theorem weigh_eq (im : HoughImage) (table : ℕ → ℕ → Int32) (threshold : Int32) (w : Pixel) :
    im.weigh table threshold w =
      { count := heads table threshold (im.strong table threshold w)
        totalX := moment table threshold Prod.fst (im.strong table threshold w)
        totalY := moment table threshold Prod.snd (im.strong table threshold w) } := by
  rw [weigh_eq_foldl, foldl_add _ _ le_rfl (fun p hp => (temp_of_strong hp).2.1)
    (by simpa using heads_strong_lt im table threshold w)]
  simp

/-! ### The average -/

/-- The average stays below any bound of the coordinates: what the weight adds to a
coordinate is less than what it adds to the count and one. -/
theorem moment_lt {coord : Pixel → ℕ} {M : ℕ} {ps : List Pixel} (hne : ps ≠ [])
    (hps : ∀ p ∈ ps, 0 ≤ excess table threshold p) (hlt : ∀ p ∈ ps, coord p < M) :
    moment table threshold coord ps < M * heads table threshold ps := by
  have hone : ∀ p ∈ ps, (coord p + excess table threshold p * (1 / 1000) : ℚ) <
      M * ((1 + excess table threshold p / 1000 : ℤ) : ℚ) := by
    intro p hp
    obtain ⟨q, hq⟩ : ∃ q, q = excess table threshold p / 1000 := ⟨_, rfl⟩
    have hq0 : 0 ≤ q := by
      have := hps p hp
      omega
    have hexcess : (excess table threshold p : ℚ) < 1000 * (q + 1) := by
      exact_mod_cast show excess table threshold p < 1000 * (q + 1) by omega
    have hcoord : (coord p : ℚ) + 1 ≤ M := by exact_mod_cast hlt p hp
    have hM : (1 : ℚ) ≤ M := le_trans (by simp) hcoord
    have hscale : (q : ℚ) ≤ M * q :=
      le_mul_of_one_le_left (by exact_mod_cast hq0) hM
    rw [← hq]
    push_cast
    linarith
  have hheads : (heads table threshold ps : ℚ) =
      (ps.map fun p => ((1 + excess table threshold p / 1000 : ℤ) : ℚ)).sum := by
    rw [heads, Int.cast_list_sum, List.map_map]
    rfl
  rw [moment, hheads, ← List.sum_map_mul_left]
  exact List.sum_lt_sum_of_ne_nil hne _ _ hone

theorem heads_pos {ps : List Pixel} (hne : ps ≠ [])
    (hps : ∀ p ∈ ps, 0 ≤ excess table threshold p) : 0 < heads table threshold ps := by
  cases ps with
  | nil => exact absurd rfl hne
  | cons p ps =>
    have hp := hps p List.mem_cons_self
    have hrest := heads_nonneg fun q hq => hps q (List.mem_cons_of_mem p hq)
    have hcons : heads table threshold (p :: ps) =
        1 + excess table threshold p / 1000 + heads table threshold ps := rfl
    omega

/-- `totalX / count` and `totalY / count`. -/
def average (im : HoughImage) (table : ℕ → ℕ → Int32) (threshold : Int32) (w : Pixel)
    (coord : Pixel → ℕ) : ℚ :=
  moment table threshold coord (im.strong table threshold w) /
    heads table threshold (im.strong table threshold w)

section Average

variable {coord : Pixel → ℕ} (hne : im.strong table threshold w ≠ [])
include hne

theorem average_nonneg : 0 ≤ im.average table threshold w coord := by
  have hexcess : ∀ p ∈ im.strong table threshold w, 0 ≤ excess table threshold p := fun p hp =>
    (temp_of_strong hp).2.1
  have hheads := (heads_pos hne hexcess).le
  refine div_nonneg (List.sum_nonneg ?_) (by exact_mod_cast hheads)
  simp only [List.mem_map]
  rintro _ ⟨p, hp, rfl⟩
  have hp : (0 : ℚ) ≤ excess table threshold p := by exact_mod_cast hexcess p hp
  positivity

theorem average_lt {M : ℕ} (hlt : ∀ p ∈ im.window w, coord p < M) :
    im.average table threshold w coord < M := by
  have hexcess : ∀ p ∈ im.strong table threshold w, 0 ≤ excess table threshold p := fun p hp =>
    (temp_of_strong hp).2.1
  have hheads : (0 : ℚ) < heads table threshold (im.strong table threshold w) := by
    exact_mod_cast heads_pos hne hexcess
  rw [average, div_lt_iff₀ hheads]
  exact moment_lt hne hexcess fun p hp => hlt p (List.mem_of_mem_filter hp)

end Average

theorem clamp_of_lt {avg : ℚ} {n : ℕ} (h : avg < n) : clamp avg n = avg := if_neg (not_le.mpr h)

/-- What is marked: nothing where no cell counts, and otherwise the average, which the
two comparisons leave as it is. -/
theorem peak_eq (im : HoughImage) (table : ℕ → ℕ → Int32) (threshold : Int32) (w : Pixel) :
    im.peak table threshold w = if im.strong table threshold w = [] then none else
      some (trunc (im.average table threshold w Prod.fst),
        trunc (im.average table threshold w Prod.snd)) := by
  unfold peak
  simp only [weigh_eq]
  by_cases hne : im.strong table threshold w = []
  · simp [hne, heads]
  · have hheads := heads_pos hne fun p hp => (temp_of_strong hp).2.1
    have hx : im.average table threshold w Prod.fst < im.maxRho :=
      average_lt hne fun p hp => (mem_window hp).2.1.2
    have hy : im.average table threshold w Prod.snd < im.intervals :=
      average_lt hne fun p hp => (mem_window hp).2.2.2
    rw [if_pos hheads, if_neg hne]
    exact congrArg some
      (Prod.ext (congrArg trunc (clamp_of_lt hx)) (congrArg trunc (clamp_of_lt hy)))

/-- A marked cell lies before the end of its window, and in the accumulator. -/
theorem peak_bounds {c : ℤ × ℤ} (h : im.peak table threshold w = some c) :
    (0 ≤ c.1 ∧ c.1 < im.maxRho ∧ c.1 < w.1 + 10) ∧
      0 ≤ c.2 ∧ c.2 < im.intervals ∧ c.2 < w.2 + 10 := by
  rw [peak_eq] at h
  split_ifs at h with hne
  obtain rfl := Option.some.inj h
  have hlt : ∀ {coord : Pixel → ℕ} {M : ℕ}, (∀ p ∈ im.window w, coord p < M) →
      trunc (im.average table threshold w coord) < M := by
    intro coord M hcoord
    rw [trunc_lt_iff (average_nonneg hne)]
    exact_mod_cast average_lt hne hcoord
  refine ⟨⟨trunc_nonneg (average_nonneg hne), hlt fun p hp => (mem_window hp).2.1.2, ?_⟩,
    trunc_nonneg (average_nonneg hne), hlt fun p hp => (mem_window hp).2.2.2, ?_⟩
  · exact_mod_cast hlt (M := w.1 + 10) fun p hp => (mem_window hp).2.1.1
  · exact_mod_cast hlt (M := w.2 + 10) fun p hp => (mem_window hp).2.2.1

theorem size_t_lt {z : ℤ} {n : ℕ} (h0 : 0 ≤ z) (h : z < n) : GrayImage.size_t z < n := by
  unfold GrayImage.size_t
  omega

/-- A window is done without a call of `abort`. -/
theorem markPeak_spec (im : HoughImage) (table : ℕ → ℕ → Int32) (threshold : Int32) (w : Pixel) :
    ∃ im', markPeak table threshold im w = some im' ∧ im'.maxRho = im.maxRho ∧
      im'.intervals = im.intervals := by
  unfold markPeak
  split
  · exact ⟨im, rfl, rfl, rfl⟩
  · rename_i c hpeak
    obtain ⟨⟨hx0, hx, -⟩, hy0, hy, -⟩ := peak_bounds hpeak
    have hin : ¬ (im.maxRho ≤ GrayImage.size_t c.1 ∨ im.intervals ≤ GrayImage.size_t c.2) :=
      not_or.mpr ⟨not_le.mpr (size_t_lt hx0 hx), not_le.mpr (size_t_lt hy0 hy)⟩
    rw [setHoughPixel, if_neg hin]
    exact ⟨_, rfl, rfl, rfl⟩

/-- `readArray` does not call `abort`: the average is below both bounds, whatever the file
and the threshold are. -/
theorem readArray_never_aborts (im : HoughImage) (threshold : Int32) :
    (∀ (table : ℕ → ℕ → Int32), (∀ w ∈ im.windows, ∀ c, im.peak table threshold w = some c →
        (0 ≤ c.1 ∧ c.1 < im.maxRho) ∧ 0 ≤ c.2 ∧ c.2 < im.intervals) ∧
      ∃ im', im.markPeaks table threshold = some im') ∧
    ∀ (memory : ℕ → ℕ → Int32) (file : Text),
      ∃ im', readArray memory file im threshold = some im' := by
  have hmarks : ∀ table : ℕ → ℕ → Int32, ∃ im', im.markPeaks table threshold = some im' := by
    intro table
    suffices hloop : ∀ (ws : List Pixel) (im : HoughImage),
        ∃ im', ws.foldlM (markPeak table threshold) im = some im' from hloop im.windows im
    intro ws
    induction ws with
    | nil => exact fun im => ⟨im, rfl⟩
    | cons w ws ih =>
      intro im
      obtain ⟨im₁, hstep, -⟩ := markPeak_spec im table threshold w
      rw [List.foldlM_cons, hstep]
      exact ih im₁
  refine ⟨fun table => ⟨fun w _ c hc => ?_, hmarks table⟩, fun memory file => hmarks _⟩
  obtain ⟨⟨hx0, hx, -⟩, hy0, hy, -⟩ := peak_bounds hc
  exact ⟨⟨hx0, hx⟩, hy0, hy⟩

end Window

end HoughImage

end SchoolProjects.Vision
