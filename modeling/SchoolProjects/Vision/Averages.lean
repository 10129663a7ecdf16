import SchoolProjects.Lib.Double
import SchoolProjects.Vision.Peaks

/-! The averages of `readArray` in `double`. The count comes out exactly and the sums up to a
part of `206` in `2 ^ 53`. That is too little to move an average across the start or the end of
its window, except where the exact average is the start itself. -/

namespace SchoolProjects.Vision

namespace HoughImage

section Sums

variable {table : ℕ → ℕ → Int32} {threshold : Int32} {p : Pixel} {coord : Pixel → ℕ}
  {ps : List Pixel}

/-! ### Exact sums -/

/-- The part of the weights that comes into the count. -/
def carry (table : ℕ → ℕ → Int32) (threshold : Int32) (ps : List Pixel) : ℤ :=
  (ps.map fun p => excess table threshold p / 1000).sum

/-- By how much the weights in the count pull the average towards zero. -/
def pull (table : ℕ → ℕ → Int32) (threshold : Int32) (start : ℕ) (ps : List Pixel) : ℤ :=
  1000 * start * carry table threshold ps

/-- By how much the coordinates and the weights in the sum lift the average above the start. -/
def lift (table : ℕ → ℕ → Int32) (threshold : Int32) (coord : Pixel → ℕ) (start : ℕ)
    (ps : List Pixel) : ℤ :=
  (ps.map fun p => 1000 * ((coord p : ℤ) - start) + excess table threshold p).sum

theorem heads_eq (ps : List Pixel) :
    heads table threshold ps = ps.length + carry table threshold ps := by
  induction ps with
  | nil => rfl
  | cons p ps ih =>
    simp only [heads, carry, List.map_cons, List.sum_cons, List.length_cons] at ih ⊢
    push_cast
    linarith

theorem moment_eq (coord : Pixel → ℕ) (start : ℕ) (ps : List Pixel) :
    1000 * moment table threshold coord ps = ((1000 * start * ps.length +
      lift table threshold coord start ps : ℤ) : ℚ) := by
  induction ps with
  | nil => simp [moment, lift]
  | cons p ps ih =>
    simp only [moment, lift, List.map_cons, List.sum_cons, List.length_cons] at ih ⊢
    push_cast at ih ⊢
    linarith

/-- Excesses are differences of two numbers of type `int`. -/
def Excesses (table : ℕ → ℕ → Int32) (threshold : Int32) (ps : List Pixel) : Prop :=
  ∀ p ∈ ps, 0 ≤ excess table threshold p ∧ excess table threshold p < 2 ^ 32

theorem Excesses.tail (h : Excesses table threshold (p :: ps)) : Excesses table threshold ps :=
  fun q hq => h q (List.mem_cons_of_mem p hq)

theorem carry_mem (h : Excesses table threshold ps) :
    0 ≤ carry table threshold ps ∧ carry table threshold ps ≤ 4294967 * ps.length := by
  induction ps with
  | nil => simp [carry]
  | cons p ps ih =>
    have hp := h p List.mem_cons_self
    have hrest := ih h.tail
    have hcons : carry table threshold (p :: ps) =
        excess table threshold p / 1000 + carry table threshold ps := rfl
    rw [hcons, List.length_cons]
    push_cast
    omega

/-- What the cells of a window lift the average by, at most. -/
theorem lift_le {start m : ℕ} (h : Excesses table threshold ps)
    (hcoord : ∀ p ∈ ps, coord p ≤ start + m) : lift table threshold coord start ps ≤
      (1000 * m + 999) * ps.length + 1000 * carry table threshold ps := by
  induction ps with
  | nil => simp [lift, carry]
  | cons p ps ih =>
    have hp := h p List.mem_cons_self
    have hc := hcoord p List.mem_cons_self
    have hrest := ih h.tail fun q hq => hcoord q (List.mem_cons_of_mem p hq)
    have hcarry : carry table threshold (p :: ps) =
        excess table threshold p / 1000 + carry table threshold ps := rfl
    have hlift : lift table threshold coord start (p :: ps) =
        1000 * ((coord p : ℤ) - start) + excess table threshold p +
          lift table threshold coord start ps := rfl
    rw [hcarry, hlift, List.length_cons]
    push_cast
    rw [mul_add, mul_one]
    omega

theorem lift_nonneg {start : ℕ} (h : Excesses table threshold ps)
    (hcoord : ∀ p ∈ ps, start ≤ coord p) : 0 ≤ lift table threshold coord start ps := by
  apply List.sum_nonneg
  intro x hx
  obtain ⟨p, hp, rfl⟩ := List.mem_map.mp hx
  have hle := hcoord p hp
  have hexcess := (h p hp).1
  omega

/-- Where the weights in the count pull by more than the sum lifts, they do so by a large part of
the count: if the pull is great the sum cannot make up for half of it, and if it is not the count
is not great either. -/
theorem large_of_pull {start carry cells lift : ℤ} (hstart : 1 ≤ start) (hcarry : 1 ≤ carry)
    (hbound : carry ≤ 4294967 * 100) (hcells : cells ≤ 100)
    (hlift : lift ≤ 9999 * cells + 1000 * carry) (h : lift < 1000 * start * carry) :
    208000 * start * (cells + carry) ≤ 2 ^ 53 * (1000 * start * carry - lift) := by
  have hfactor := mul_le_mul_of_nonneg_left hcarry (show (0 : ℤ) ≤ start - 1 by omega)
  have hcells' := mul_le_mul_of_nonneg_left hcells (show (0 : ℤ) ≤ start by omega)
  rcases lt_or_ge ((start - 1) * carry) 2000 with hsmall | hgreat
  · linarith
  · have hstart2 : 1 ≤ start - 1 := by
      by_contra hno
      have hone : start - 1 = 0 := by omega
      rw [hone, zero_mul] at hgreat
      exact absurd hgreat (by norm_num)
    have hcarry' := mul_le_mul_of_nonneg_right hstart2 (show (0 : ℤ) ≤ carry by omega)
    linarith

/-! ### Rounded sums -/

open Double (eps Close)

/-- The double of `.001` is not less than the number itself. -/
theorem le_round_thousandth : (1 / 1000 : ℚ) ≤ Double.round (1 / 1000) := by decide +kernel

/-- The weight of a cell. -/
def roundedWeight (table : ℕ → ℕ → Int32) (threshold : Int32) (p : Pixel) : ℚ :=
  weight threshold (table p.1 p.2).toInt Double.round

theorem roundedWeight_eq (p : Pixel) : roundedWeight table threshold p =
    Double.round (excess table threshold p * Double.round (1 / 1000)) := by
  rw [roundedWeight, weight, excess]
  push_cast
  rfl

/-- The weight is not less than its whole part. -/
theorem le_roundedWeight (h0 : 0 ≤ excess table threshold p)
    (h1 : excess table threshold p < 2 ^ 32) :
    ((excess table threshold p / 1000 : ℤ) : ℚ) ≤ roundedWeight table threshold p := by
  obtain ⟨q, hq⟩ := Int.eq_ofNat_of_zero_le (show 0 ≤ excess table threshold p / 1000 by omega)
  have hwhole : (q : ℚ) * 1000 ≤ excess table threshold p := by
    exact_mod_cast show (q : ℤ) * 1000 ≤ excess table threshold p by omega
  have hexact : (q : ℚ) ≤ excess table threshold p * Double.round (1 / 1000) := by
    have h0' : (0 : ℚ) ≤ excess table threshold p := by exact_mod_cast h0
    have hle := mul_le_mul_of_nonneg_left le_round_thousandth h0'
    linarith
  rw [roundedWeight_eq, hq, Int.cast_natCast]
  exact Double.le_round (by omega) hexact

theorem close_roundedWeight (h0 : 0 ≤ excess table threshold p) :
    Close (4 * eps) (excess table threshold p * (1 / 1000)) (roundedWeight table threshold p) := by
  have h0' : (0 : ℚ) ≤ excess table threshold p := by exact_mod_cast h0
  have hliteral : Close (0 + 2 * eps) (1 / 1000) (Double.round (1 / 1000)) :=
    (Double.close_refl le_rfl (by norm_num)).round (by norm_num) (by norm_num)
  have hround := (hliteral.mul h0').round (by positivity) (by norm_num [eps])
  rw [roundedWeight_eq]
  exact hround.mono (by positivity) (by linarith)

theorem roundedWeight_nonneg (h0 : 0 ≤ excess table threshold p)
    (h1 : excess table threshold p < 2 ^ 32) : 0 ≤ roundedWeight table threshold p := by
  have hwhole : (0 : ℚ) ≤ ((excess table threshold p / 1000 : ℤ) : ℚ) := by
    exact_mod_cast Int.ediv_nonneg h0 (by norm_num)
  exact hwhole.trans (le_roundedWeight h0 h1)

/-- The sum that is cut off to the count is not below the exact count. -/
theorem le_round_count {n : ℤ} (hn : 0 ≤ n) (h0 : 0 ≤ excess table threshold p)
    (h1 : excess table threshold p < 2 ^ 32)
    (hbound : n + (1 + excess table threshold p / 1000) < 2 ^ 31) :
    ((n + (1 + excess table threshold p / 1000) : ℤ) : ℚ) ≤
      Double.round (n + Double.round (1 + roundedWeight table threshold p)) := by
  have hweight := le_roundedWeight h0 h1
  obtain ⟨q, hq⟩ := Int.eq_ofNat_of_zero_le (show 0 ≤ excess table threshold p / 1000 by omega)
  obtain ⟨m, rfl⟩ := Int.eq_ofNat_of_zero_le hn
  rw [hq] at hbound hweight ⊢
  have hone : ((1 + q : ℕ) : ℚ) ≤ Double.round (1 + roundedWeight table threshold p) := by
    refine Double.le_round (by omega) ?_
    push_cast at hweight ⊢
    linarith
  have hsum : ((m + (1 + q) : ℕ) : ℚ) ≤
      Double.round ((m : ℤ) + Double.round (1 + roundedWeight table threshold p)) := by
    refine Double.le_round (by omega) ?_
    push_cast at hone ⊢
    linarith
  exact_mod_cast hsum

/-- Nor does it come up to the next number: the errors are far less than a thousandth. -/
theorem round_count_lt {n : ℤ} (hn : 0 ≤ n) (h0 : 0 ≤ excess table threshold p)
    (hbound : n + (1 + excess table threshold p / 1000) < 2 ^ 31) :
    Double.round (n + Double.round (1 + roundedWeight table threshold p)) <
      ((n + (1 + excess table threshold p / 1000) + 1 : ℤ) : ℚ) := by
  have hn' : (0 : ℚ) ≤ n := by exact_mod_cast hn
  have h0' : (0 : ℚ) ≤ excess table threshold p := by exact_mod_cast h0
  have heps : (0 : ℚ) ≤ eps := by norm_num [eps]
  have hone := (Double.close_refl (r := 4 * eps) (by positivity) zero_le_one).add
    (close_roundedWeight h0)
  have hround := hone.round (by positivity) (by norm_num [eps])
  have hsum := ((Double.close_refl (r := 4 * eps + 2 * eps) (by positivity) hn').add hround).round
    (by positivity) (by norm_num [eps])
  have hupper := (abs_le.mp hsum).2
  have hrest : (excess table threshold p : ℚ) ≤
      1000 * ((excess table threshold p / 1000 : ℤ) : ℚ) + 999 := by
    exact_mod_cast show excess table threshold p ≤ 1000 * (excess table threshold p / 1000) + 999
      by omega
  have hsize : (n : ℚ) + (1 + ((excess table threshold p / 1000 : ℤ) : ℚ)) ≤ 2 ^ 31 := by
    exact_mod_cast hbound.le
  have hpart : (4 * eps + 2 * eps + 2 * eps : ℚ) = 1 / 2 ^ 50 := by norm_num [eps]
  rw [hpart] at hupper
  push_cast
  linarith

/-- The count of a cell comes out exactly. -/
theorem trunc_round_count {n : ℤ} (hn : 0 ≤ n) (h0 : 0 ≤ excess table threshold p)
    (h1 : excess table threshold p < 2 ^ 32)
    (hbound : n + (1 + excess table threshold p / 1000) < 2 ^ 31) :
    trunc (Double.round (n + Double.round (1 + roundedWeight table threshold p))) =
      n + (1 + excess table threshold p / 1000) := by
  have hlow := le_round_count hn h0 h1 hbound
  have hnonneg : (0 : ℚ) ≤
      Double.round (n + Double.round (1 + roundedWeight table threshold p)) := by
    refine le_trans ?_ hlow
    exact_mod_cast show 0 ≤ n + (1 + excess table threshold p / 1000) by omega
  refine le_antisymm (Int.lt_add_one_iff.mp ?_) ((le_trunc_iff hnonneg).mpr hlow)
  exact (trunc_lt_iff hnonneg).mpr (round_count_lt hn h0 hbound)

/-- What a cell adds to the sum of a coordinate. -/
def roundedPart (table : ℕ → ℕ → Int32) (threshold : Int32) (coord : Pixel → ℕ) (p : Pixel) : ℚ :=
  Double.round (coord p + roundedWeight table threshold p)

theorem add_round_eq {t : Weighing} (hn : 0 ≤ t.count) (h0 : 0 ≤ excess table threshold p)
    (h1 : excess table threshold p < 2 ^ 32)
    (hbound : t.count + (1 + excess table threshold p / 1000) < 2 ^ 31) :
    t.add threshold (table p.1 p.2).toInt p Double.round =
      { count := t.count + (1 + excess table threshold p / 1000)
        totalX := Double.round (t.totalX + roundedPart table threshold Prod.fst p)
        totalY := Double.round (t.totalY + roundedPart table threshold Prod.snd p) } := by
  have hcount := trunc_round_count hn h0 h1 hbound
  unfold roundedWeight at hcount
  rw [Weighing.add, hcount, int32_of_range (by omega) hbound]
  rfl

/-- What the cells that count add to the rounded sums. -/
theorem foldl_add_round (ps : List Pixel) (t : Weighing) (hn : 0 ≤ t.count)
    (hps : Excesses table threshold ps) (hbound : t.count + heads table threshold ps < 2 ^ 31) :
    ps.foldl (fun t p => t.add threshold (table p.1 p.2).toInt p Double.round) t =
      { count := t.count + heads table threshold ps
        totalX := Double.sum (ps.map (roundedPart table threshold Prod.fst)) t.totalX
        totalY := Double.sum (ps.map (roundedPart table threshold Prod.snd)) t.totalY } := by
  induction ps generalizing t with
  | nil => simp [heads, Double.sum]
  | cons p ps ih =>
    obtain ⟨h0, h1⟩ := hps p List.mem_cons_self
    have hnonneg := heads_nonneg fun q hq => (hps.tail q hq).1
    have hcons : heads table threshold (p :: ps) =
        1 + excess table threshold p / 1000 + heads table threshold ps := rfl
    rw [hcons] at hbound
    rw [List.foldl_cons, add_round_eq hn h0 h1 (by omega),
      ih _ (by show 0 ≤ t.count + _; omega) hps.tail (by show t.count + _ + _ < _; omega), hcons]
    simp only [Double.sum, List.map_cons, List.foldl_cons, add_assoc]

/-- The sum of a coordinate. -/
def total (table : ℕ → ℕ → Int32) (threshold : Int32) (coord : Pixel → ℕ) (ps : List Pixel) : ℚ :=
  Double.sum (ps.map (roundedPart table threshold coord)) 0

theorem close_roundedPart (coord : Pixel → ℕ) (h0 : 0 ≤ excess table threshold p) :
    Close (6 * eps) (coord p + excess table threshold p * (1 / 1000))
      (roundedPart table threshold coord p) := by
  have hcoord : (0 : ℚ) ≤ coord p := Nat.cast_nonneg _
  have h0' : (0 : ℚ) ≤ excess table threshold p := by exact_mod_cast h0
  have heps : (0 : ℚ) ≤ eps := by norm_num [eps]
  have hsum := (Double.close_refl (r := 4 * eps) (by positivity) hcoord).add
    (close_roundedWeight h0)
  exact (hsum.round (by positivity) (by norm_num [eps])).mono (by positivity) (by linarith)

/-- A hundred cells leave the sum close to the exact one. -/
theorem close_total (coord : Pixel → ℕ) (hps : Excesses table threshold ps)
    (hlen : ps.length ≤ 100) :
    Close (206 * eps) (moment table threshold coord ps) (total table threshold coord ps) := by
  have heps : (0 : ℚ) ≤ eps := by norm_num [eps]
  have hlen' : (ps.length : ℚ) ≤ 100 := by exact_mod_cast hlen
  have hscale := mul_le_mul_of_nonneg_right hlen' heps
  have hparts : ∀ p ∈ ps, (0 : ℚ) ≤ coord p + excess table threshold p * (1 / 1000) := by
    intro p hp
    have h0 : (0 : ℚ) ≤ excess table threshold p := by exact_mod_cast (hps p hp).1
    positivity
  have hsum := Double.close_sum (r := 6 * eps) (by positivity) ps le_rfl hparts
    (fun p hp => close_roundedPart coord (hps p hp).1)
    (by rw [mul_assoc]; norm_num [eps] at hscale ⊢; linarith)
    (Double.close_refl (by positivity) le_rfl)
  rw [zero_add] at hsum
  refine hsum.mono (List.sum_nonneg fun x hx => ?_) (by linarith)
  obtain ⟨p, hp, rfl⟩ := List.mem_map.mp hx
  exact hparts p hp

/-- The sum is not below the start of the window for each of the cells. -/
theorem le_total {start : ℕ} (hps : Excesses table threshold ps) (hlen : ps.length ≤ 100)
    (hcoord : ∀ p ∈ ps, start ≤ coord p) (hstart : start < 2 ^ 31) :
    (start * ps.length : ℚ) ≤ total table threshold coord ps := by
  have hparts : ∀ x ∈ ps.map (roundedPart table threshold coord), (start : ℚ) ≤ x := by
    intro x hx
    obtain ⟨p, hp, rfl⟩ := List.mem_map.mp hx
    have hle : (start : ℚ) ≤ coord p := by exact_mod_cast hcoord p hp
    have hnonneg := roundedWeight_nonneg (hps p hp).1 (hps p hp).2
    exact Double.le_round (by omega) (by linarith)
  have hsum := Double.le_sum (k := 0) _ hparts (t := 0)
    (by rw [List.length_map]; nlinarith) (by simp)
  rw [List.length_map, zero_add] at hsum
  rw [mul_comm]
  exact_mod_cast hsum

/-! ### The averages -/

/-- `totalX/count` and `totalY/count`. -/
def roundedAverage (table : ℕ → ℕ → Int32) (threshold : Int32) (coord : Pixel → ℕ)
    (ps : List Pixel) : ℚ :=
  Double.round (total table threshold coord ps / heads table threshold ps)

section Average

variable {start m : ℕ} (hne : ps ≠ []) (hps : Excesses table threshold ps)
  (hlen : ps.length ≤ 100)
include hne hps

theorem heads_cast_pos : (0 : ℚ) < heads table threshold ps := by
  exact_mod_cast heads_pos hne fun p hp => (hps p hp).1

include hlen

theorem roundedAverage_nonneg : 0 ≤ roundedAverage table threshold coord ps := by
  have hstart : ∀ p ∈ ps, 0 ≤ coord p := fun p _ => Nat.zero_le _
  have htotal := le_total hps hlen hstart (by norm_num)
  rw [Nat.cast_zero, zero_mul] at htotal
  exact Double.round_nonneg (div_nonneg htotal (heads_cast_pos hne hps).le)

/-- An average stays below a number when it does so exactly by enough. -/
theorem roundedAverage_lt_of_gap {b : ℕ} (hb : 0 < b) {gap : ℤ}
    (hgap : 1000 * moment table threshold coord ps =
      ((1000 * b * heads table threshold ps - gap : ℤ) : ℚ))
    (hlarge : 208000 * b * heads table threshold ps ≤ 2 ^ 53 * gap) :
    roundedAverage table threshold coord ps < b := by
  have heps : (0 : ℚ) ≤ 206 * eps := by norm_num [eps]
  refine (close_total coord hps hlen).round_div_lt heps (heads_cast_pos hne hps)
    (by exact_mod_cast hb) ?_
  have hlarge' : (208000 * b * heads table threshold ps : ℚ) ≤ 2 ^ 53 * gap := by
    exact_mod_cast hlarge
  have hpart : (206 * eps + 2 * eps : ℚ) = 208 / 2 ^ 53 := by norm_num [eps]
  push_cast at hgap
  rw [hpart]
  linarith

/-- The average stays below the end of the window and of the accumulator. -/
theorem roundedAverage_lt (hcoord : ∀ p ∈ ps, coord p < m) (hm : m ≤ 2 ^ 31) :
    roundedAverage table threshold coord ps < m := by
  obtain ⟨p, hp⟩ := List.exists_mem_of_ne_nil ps hne
  have hpos : 0 < m := (Nat.zero_le _).trans_lt (hcoord p hp)
  obtain ⟨hcarry0, hcarry⟩ := carry_mem hps
  have hlift : lift table threshold coord 0 ps ≤ (1000 * ((m - 1 : ℕ) : ℤ) + 999) * ps.length +
      1000 * carry table threshold ps :=
    lift_le hps fun q hq => by
      have := hcoord q hq
      omega
  have hmoment : 1000 * moment table threshold coord ps = ((1000 * m * heads table threshold ps -
      (1000 * m * heads table threshold ps - lift table threshold coord 0 ps) : ℤ) : ℚ) := by
    rw [moment_eq coord 0]
    push_cast
    ring
  refine roundedAverage_lt_of_gap hne hps hlen hpos hmoment ?_
  have hm' : (m : ℤ) ≤ 2 ^ 31 := by exact_mod_cast hm
  have hm1 : (0 : ℤ) ≤ m - 1 := by omega
  have hcells := mul_le_mul_of_nonneg_right hm' (Int.natCast_nonneg ps.length)
  have hpulled := mul_nonneg hm1 hcarry0
  rw [Nat.cast_sub hpos, Nat.cast_one] at hlift
  rw [heads_eq]
  linarith

omit hne in
/-- Where the weights in the count pull by less than the sum lifts, the start is small, so that
the errors are small too. -/
theorem start_mul_carry_lt (hcoord : ∀ p ∈ ps, coord p ≤ start + 9)
    (h : pull table threshold start ps < lift table threshold coord start ps) :
    (start - 1) * carry table threshold ps < 1000 := by
  have hlift := lift_le hps hcoord
  have hlen' : (ps.length : ℤ) ≤ 100 := by exact_mod_cast hlen
  unfold pull at h
  push_cast at hlift
  linarith

/-- Where the weights in the count pull by less than the sum lifts, or not at all, the average
is not below the start of the window. -/
theorem le_roundedAverage (hcoord : ∀ p ∈ ps, start ≤ coord p ∧ coord p ≤ start + 9)
    (hstart : start < 2 ^ 31) (h : pull table threshold start ps = 0 ∨
      pull table threshold start ps < lift table threshold coord start ps) :
    start ≤ roundedAverage table threshold coord ps := by
  refine Double.le_round_div (by omega) (heads_cast_pos hne hps) ?_
  by_cases hpull : pull table threshold start ps = 0
  · -- no weight counts for a row or column other than the first: each addition is above the start
    have hsum := le_total hps hlen (fun p hp => (hcoord p hp).1) hstart
    have hzero : (start * carry table threshold ps : ℤ) = 0 := by
      unfold pull at hpull
      linarith
    have hcast : (start : ℚ) * carry table threshold ps = 0 := by exact_mod_cast hzero
    rw [heads_eq]
    push_cast
    linarith
  · have hlt := h.resolve_left hpull
    obtain ⟨hcarry0, hcarry⟩ := carry_mem hps
    have hlen' : (ps.length : ℤ) ≤ 100 := by exact_mod_cast hlen
    have hsmall := start_mul_carry_lt hps hlen (fun p hp => (hcoord p hp).2) hlt
    have hlift := lift_le hps fun p hp => (hcoord p hp).2
    have hcarry1 : 1 ≤ carry table threshold ps := by
      by_contra hno
      have hzero : carry table threshold ps = 0 := by omega
      exact hpull (by rw [pull, hzero, mul_zero])
    have hstart1 : (start : ℤ) ≤ 1000 := by
      by_contra hno
      have hle := mul_le_mul_of_nonneg_left hcarry1 (show (0 : ℤ) ≤ start - 1 by omega)
      omega
    have hcells := mul_le_mul_of_nonneg_right hstart1 (Int.natCast_nonneg ps.length)
    have hbound : 1000 * moment table threshold coord ps ≤ 1000 * 2 ^ 29 := by
      rw [moment_eq coord start]
      exact_mod_cast show 1000 * (start : ℤ) * ps.length + lift table threshold coord start ps ≤
        1000 * 2 ^ 29 by push_cast at hlift; linarith
    have hgap : 1000 * (start * heads table threshold ps : ℚ) + 1 ≤
        1000 * moment table threshold coord ps := by
      rw [moment_eq coord start, heads_eq]
      unfold pull at hlt
      exact_mod_cast show 1000 * (start * (ps.length + carry table threshold ps)) + 1 ≤
        1000 * (start : ℤ) * ps.length + lift table threshold coord start ps by linarith
    have herror := (abs_le.mp (close_total coord hps hlen)).1
    norm_num [eps] at herror
    linarith

/-- Where they pull by more than it lifts, the average is below the start of the window. -/
theorem roundedAverage_lt_start (hcoord : ∀ p ∈ ps, start ≤ coord p ∧ coord p ≤ start + 9)
    (h : lift table threshold coord start ps < pull table threshold start ps) :
    roundedAverage table threshold coord ps < start := by
  have hmoment : 1000 * moment table threshold coord ps = ((1000 * start *
      heads table threshold ps - (pull table threshold start ps -
        lift table threshold coord start ps) : ℤ) : ℚ) := by
    rw [moment_eq coord start, heads_eq, pull]
    push_cast
    ring
  have hlift0 := lift_nonneg hps fun p hp => (hcoord p hp).1
  have hlift := lift_le hps fun p hp => (hcoord p hp).2
  obtain ⟨hcarry0, hcarry⟩ := carry_mem hps
  have hlen' : (ps.length : ℤ) ≤ 100 := by exact_mod_cast hlen
  have hpos : 0 < 1000 * (start : ℤ) * carry table threshold ps := hlift0.trans_lt h
  have hcarry1 : 1 ≤ carry table threshold ps := by
    by_contra hno
    have hzero : carry table threshold ps = 0 := by omega
    rw [hzero, mul_zero] at hpos
    exact lt_irrefl _ hpos
  have hstart1 : 1 ≤ (start : ℤ) := by
    by_contra hno
    have hzero : (start : ℤ) = 0 := by omega
    rw [hzero, mul_zero, zero_mul] at hpos
    exact lt_irrefl _ hpos
  refine roundedAverage_lt_of_gap hne hps hlen (by omega) hmoment ?_
  rw [heads_eq]
  unfold pull at h ⊢
  exact large_of_pull hstart1 hcarry1 (by omega) hlen' (by push_cast at hlift; linarith) h

end Average

end Sums

/-! ### The windows -/

section Window

variable {im : HoughImage} {table : ℕ → ℕ → Int32} {threshold : Int32} {w p : Pixel}

theorem excesses_strong (im : HoughImage) (table : ℕ → ℕ → Int32) (threshold : Int32) (w : Pixel) :
    Excesses table threshold (im.strong table threshold w) := fun _ hp => (temp_of_strong hp).2

theorem length_strong_le (im : HoughImage) (table : ℕ → ℕ → Int32) (threshold : Int32)
    (w : Pixel) : (im.strong table threshold w).length ≤ 100 :=
  (List.length_filter_le _ _).trans (im.length_window_le w)

theorem mem_strong (h : p ∈ im.strong table threshold w) :
    (w.1 ≤ p.1 ∧ w.2 ≤ p.2) ∧ (p.1 < w.1 + 10 ∧ p.1 < im.maxRho) ∧
      p.2 < w.2 + 10 ∧ p.2 < im.intervals := mem_window (List.mem_of_mem_filter h)

/-- The numbers of rows and columns of the accumulator, and what is one window beyond them, are
numbers of type `int`. -/
def Counted (im : HoughImage) : Prop := im.maxRho + 10 < 2 ^ 31 ∧ im.intervals + 10 < 2 ^ 31

instance (im : HoughImage) : Decidable im.Counted := inferInstanceAs (Decidable (_ ∧ _))

/-- What is marked in `double`. -/
theorem peak_round_eq (him : im.Counted) (table : ℕ → ℕ → Int32) (threshold : Int32) (w : Pixel) :
    im.peak table threshold w Double.round = if im.strong table threshold w = [] then none else
      some (trunc (roundedAverage table threshold Prod.fst (im.strong table threshold w)),
        trunc (roundedAverage table threshold Prod.snd (im.strong table threshold w))) := by
  have hps := im.excesses_strong table threshold w
  have hlen := im.length_strong_le table threshold w
  have hweigh : im.weigh table threshold w Double.round =
      { count := heads table threshold (im.strong table threshold w)
        totalX := total table threshold Prod.fst (im.strong table threshold w)
        totalY := total table threshold Prod.snd (im.strong table threshold w) } := by
    rw [weigh_eq_foldl, foldl_add_round _ _ le_rfl hps
      (by simpa using heads_strong_lt im table threshold w), zero_add]
    rfl
  unfold peak
  simp only [hweigh]
  by_cases hne : im.strong table threshold w = []
  · simp [hne, heads]
  · have hheads := heads_pos hne fun p hp => (hps p hp).1
    have hx : roundedAverage table threshold Prod.fst (im.strong table threshold w) < im.maxRho :=
      roundedAverage_lt hne hps hlen (fun p hp => (mem_strong hp).2.1.2)
        (by have := him.1; omega)
    have hy : roundedAverage table threshold Prod.snd (im.strong table threshold w) <
        im.intervals :=
      roundedAverage_lt hne hps hlen (fun p hp => (mem_strong hp).2.2.2)
        (by have := him.2; omega)
    rw [if_pos hheads, if_neg hne]
    exact congrArg some
      (Prod.ext (congrArg trunc (clamp_of_lt hx)) (congrArg trunc (clamp_of_lt hy)))

/-- A cell of the window that starts at `w`. -/
def InWindow (w : Pixel) (c : ℤ × ℤ) : Prop :=
  (w.1 ≤ c.1 ∧ c.1 < w.1 + 10) ∧ w.2 ≤ c.2 ∧ c.2 < w.2 + 10

/-- No weight in the count pulls the average to zero, or by less than the sum lifts it. -/
def Clear (table : ℕ → ℕ → Int32) (threshold : Int32) (coord : Pixel → ℕ) (start : ℕ)
    (ps : List Pixel) : Prop :=
  pull table threshold start ps = 0 ∨
    pull table threshold start ps < lift table threshold coord start ps

/-- The weights in the count do not pull by more than the sum lifts. -/
def Balanced (table : ℕ → ℕ → Int32) (threshold : Int32) (coord : Pixel → ℕ) (start : ℕ)
    (ps : List Pixel) : Prop :=
  pull table threshold start ps ≤ lift table threshold coord start ps

instance (coord : Pixel → ℕ) (start : ℕ) (ps : List Pixel) :
    Decidable (Clear table threshold coord start ps) := inferInstanceAs (Decidable (_ ∨ _))

theorem trunc_roundedAverage_lt (coord : Pixel → ℕ) {m : ℕ}
    (hne : im.strong table threshold w ≠ [])
    (hcoord : ∀ p ∈ im.strong table threshold w, coord p < m) (hm : m ≤ 2 ^ 31) :
    trunc (roundedAverage table threshold coord (im.strong table threshold w)) < m := by
  have hps := im.excesses_strong table threshold w
  have hlen := im.length_strong_le table threshold w
  rw [trunc_lt_iff (roundedAverage_nonneg hne hps hlen)]
  exact_mod_cast roundedAverage_lt hne hps hlen hcoord hm

/-- In one coordinate: the marked cell does not lie before the start of the window if the weights
are clear of it, and only if they are balanced. -/
theorem le_trunc_roundedAverage (coord : Pixel → ℕ) {start : ℕ}
    (hne : im.strong table threshold w ≠ [])
    (hcoord : ∀ p ∈ im.strong table threshold w, start ≤ coord p ∧ coord p ≤ start + 9)
    (hstart : start < 2 ^ 31) :
    (Clear table threshold coord start (im.strong table threshold w) →
      start ≤ trunc (roundedAverage table threshold coord (im.strong table threshold w))) ∧
    (start ≤ trunc (roundedAverage table threshold coord (im.strong table threshold w)) →
      Balanced table threshold coord start (im.strong table threshold w)) := by
  have hps := im.excesses_strong table threshold w
  have hlen := im.length_strong_le table threshold w
  rw [le_trunc_iff (roundedAverage_nonneg hne hps hlen)]
  constructor
  · intro h
    exact_mod_cast le_roundedAverage hne hps hlen hcoord hstart h
  · intro h
    by_contra hpull
    have hlow := roundedAverage_lt_start hne hps hlen hcoord (not_le.mp hpull)
    exact absurd hlow (not_lt.mpr (by exact_mod_cast h))

/-- What is marked for a window is in the window if the weights are clear of its start in both
coordinates, and only if they are balanced. Between the two there are only the ties, where the
exact average is the start itself and it depends on the roundings on which side the rounded one
comes to lie. -/
theorem peak_in_window (him : im.Counted) (table : ℕ → ℕ → Int32) (threshold : Int32)
    (w : Pixel) :
    (Clear table threshold Prod.fst w.1 (im.strong table threshold w) →
      Clear table threshold Prod.snd w.2 (im.strong table threshold w) →
      ∀ c, im.peak table threshold w Double.round = some c → InWindow w c) ∧
    ((∀ c, im.peak table threshold w Double.round = some c → InWindow w c) →
      Balanced table threshold Prod.fst w.1 (im.strong table threshold w) ∧
        Balanced table threshold Prod.snd w.2 (im.strong table threshold w)) := by
  rw [peak_round_eq him]
  by_cases hne : im.strong table threshold w = []
  · simp [hne, Balanced, pull, lift, carry]
  · obtain ⟨p, hp⟩ := List.exists_mem_of_ne_nil _ hne
    obtain ⟨⟨hfst, hsnd⟩, ⟨-, hrows⟩, -, hcolumns⟩ := mem_strong hp
    obtain ⟨hrho, hintervals⟩ := him
    have hx := le_trunc_roundedAverage Prod.fst hne
      (fun q hq => ⟨(mem_strong hq).1.1, Nat.le_of_lt_succ (mem_strong hq).2.1.1⟩) (by omega)
    have hy := le_trunc_roundedAverage Prod.snd hne
      (fun q hq => ⟨(mem_strong hq).1.2, Nat.le_of_lt_succ (mem_strong hq).2.2.1⟩) (by omega)
    have hxend := trunc_roundedAverage_lt Prod.fst hne
      (fun q hq => (mem_strong hq).2.1.1) (by omega)
    have hyend := trunc_roundedAverage_lt Prod.snd hne
      (fun q hq => (mem_strong hq).2.2.1) (by omega)
    push_cast at hxend hyend
    rw [if_neg hne]
    constructor
    · intro hclear hclear' c hc
      obtain rfl := Option.some.inj hc
      exact ⟨⟨hx.1 hclear, hxend⟩, hy.1 hclear', hyend⟩
    · intro h
      obtain ⟨⟨hlow, -⟩, hlow', -⟩ := h _ rfl
      exact ⟨hx.2 hlow, hy.2 hlow'⟩

end Window

/-- An image of sixty rows and sixty columns. -/
def square : HoughImage where
  num_rows := 60
  num_columns := 60
  num_gray_levels := 255
  pixels _ _ := 0
  sData _ _ := {}
  houghData _ _ := 0
  maxRho := 84
  intervals := 180

theorem sized_square : square.Sized :=
  ⟨Nat.eq_sqrt.mpr ⟨by decide, by decide⟩, rfl⟩

theorem counted_square : square.Counted := by decide

/-- A table that is 0 but for some cells. -/
def cells (values : List (Pixel × Int32)) (x y : ℕ) : Int32 := (values.lookup (x, y)).getD 0

/-- A weight in the count of a window in row 10, for which two cells in row 19 make up. -/
theorem peak_in_window_square : ∃ c,
    square.peak (cells [((19, 8), 1184), ((19, 9), 2184)]) 185 (10, 0) Double.round = some c ∧
      InWindow (10, 0) c := by
  have hpeak : square.peak (cells [((19, 8), 1184), ((19, 9), 2184)]) 185 (10, 0) Double.round =
      some (13, 6) := by
    decide +kernel
  exact ⟨(13, 6), hpeak, (peak_in_window counted_square _ 185 (10, 0)).1 (by decide +kernel)
    (by decide +kernel) _ hpeak⟩

/-- A tie that stays in the window. -/
example : square.peak (cells [((10, 0), 583), ((10, 1), 2047), ((14, 2), 534), ((13, 3), 576)])
    185 (10, 0) Double.round = some (10, 1) := by
  decide +kernel

/-- A tie of the same excesses that leaves it: the average is `49.99999999999999 / 5`. -/
example : square.peak (cells [((12, 0), 583), ((10, 3), 2047), ((10, 8), 534), ((15, 1), 576)])
    185 (10, 0) Double.round = some (9, 3) := by
  decide +kernel

/-- One cell in row 50 that exceeds the threshold by a thousand makes `readArray` mark a cell in
row 25. -/
theorem peak_leaves_window : ¬ ∀ (im : HoughImage) (table : ℕ → ℕ → Int32) (threshold : Int32),
    im.Sized → im.Counted → ∀ w ∈ im.windows, ∀ c,
      im.peak table threshold w Double.round = some c → InWindow w c := by
  intro h
  have hmem : (50, 0) ∈ square.windows := by decide +kernel
  have hpeak : square.peak (cells [((50, 0), 1185)]) 185 (50, 0) Double.round = some (25, 0) := by
    decide +kernel
  exact absurd (h square (cells [((50, 0), 1185)]) 185 sized_square counted_square (50, 0) hmem _
    hpeak) (by simp [InWindow])

end HoughImage

end SchoolProjects.Vision
