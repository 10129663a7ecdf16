import Mathlib.Data.Int.Log
import Mathlib.Data.Rat.Floor
import Mathlib.Tactic

/-! The `double` of the C and C++ sources on rational numbers: each operation gives the exact
result rounded to 53 binary places, to the even one of two that are equally near. The range of
the exponent is left out; it does not matter for zero and from `2 ^ -1022` up to `2 ^ 1023`.
Rounding keeps the order and the smaller integers, and each of it adds at most one part in
`2 ^ 53` to the error. -/

namespace SchoolProjects.Double

/-! ### The nearest integer -/

/-- The nearest integer, the even one of two. -/
def nearest (q : ℚ) : ℤ :=
  if q - ⌊q⌋ < 1 / 2 then ⌊q⌋
  else if 1 / 2 < q - ⌊q⌋ then ⌊q⌋ + 1
  else if ⌊q⌋ % 2 = 0 then ⌊q⌋ else ⌊q⌋ + 1

theorem nearest_cases (q : ℚ) : nearest q = ⌊q⌋ ∧ q - ⌊q⌋ ≤ 1 / 2 ∨
    nearest q = ⌊q⌋ + 1 ∧ 1 / 2 ≤ q - ⌊q⌋ := by
  unfold nearest
  split_ifs with hlow hhigh heven
  · exact Or.inl ⟨rfl, hlow.le⟩
  · exact Or.inr ⟨rfl, hhigh.le⟩
  · exact Or.inl ⟨rfl, not_lt.mp hhigh⟩
  · exact Or.inr ⟨rfl, not_lt.mp hlow⟩

theorem abs_nearest_sub_le (q : ℚ) : |(nearest q : ℚ) - q| ≤ 1 / 2 := by
  have hfloor := Int.floor_le q
  have hnext := Int.lt_floor_add_one q
  rw [abs_le]
  rcases nearest_cases q with ⟨h, hle⟩ | ⟨h, hle⟩
  · rw [h]
    constructor <;> linarith
  · rw [h]
    push_cast
    constructor <;> linarith

theorem nearest_intCast (z : ℤ) : nearest (z : ℚ) = z := by
  simp [nearest]

theorem nearest_mono {q r : ℚ} (h : q ≤ r) : nearest q ≤ nearest r := by
  rcases (Int.floor_le_floor h).eq_or_lt with heq | hlt
  · unfold nearest
    rw [heq]
    split_ifs <;> first | omega | (exfalso; linarith)
  · have hq : nearest q ≤ ⌊q⌋ + 1 := by
      rcases nearest_cases q with ⟨h, -⟩ | ⟨h, -⟩ <;> omega
    have hr : ⌊r⌋ ≤ nearest r := by
      rcases nearest_cases r with ⟨h, -⟩ | ⟨h, -⟩ <;> omega
    omega

/-! ### Rounding -/

/-- The unit in the last of 53 binary places. -/
def ulp (x : ℚ) : ℚ := 2 ^ (Int.log 2 |x| - 52)

/-- The nearest `double`. -/
def round (x : ℚ) : ℚ := nearest (x / ulp x) * ulp x

theorem ulp_pos (x : ℚ) : 0 < ulp x := zpow_pos (by norm_num) _

/-- A number has 53 binary places before the point when it is counted in this unit. -/
theorem ulp_mul {x : ℚ} (hx : 0 < x) :
    2 ^ 52 * ulp x = 2 ^ Int.log 2 x ∧ 2 ^ 53 * ulp x = 2 ^ (Int.log 2 x + 1) := by
  rw [ulp, abs_of_pos hx, ← zpow_natCast, ← zpow_natCast, ← zpow_add₀ (by norm_num),
    ← zpow_add₀ (by norm_num)]
  constructor
  · congr 1
    push_cast
    ring
  · congr 1
    push_cast
    ring

theorem div_ulp_mem {x : ℚ} (hx : 0 < x) : 2 ^ 52 ≤ x / ulp x ∧ x / ulp x ≤ 2 ^ 53 := by
  have hlow : (2 : ℚ) ^ Int.log 2 x ≤ x := by
    exact_mod_cast Int.zpow_log_le_self (b := 2) (by norm_num) hx
  have hhigh : x < (2 : ℚ) ^ (Int.log 2 x + 1) := by
    exact_mod_cast Int.lt_zpow_succ_log_self (b := 2) (by norm_num) x
  obtain ⟨h52, h53⟩ := ulp_mul hx
  rw [le_div_iff₀ (ulp_pos x), div_le_iff₀ (ulp_pos x), h52, h53]
  exact ⟨hlow, hhigh.le⟩

@[simp] theorem round_zero : round 0 = 0 := by simp [round, nearest]

/-- Rounding does not leave the powers of two around a number. -/
theorem round_mem {x : ℚ} (hx : 0 < x) :
    2 ^ Int.log 2 x ≤ round x ∧ round x ≤ 2 ^ (Int.log 2 x + 1) := by
  have hunit := (ulp_pos x).le
  obtain ⟨hlow, hhigh⟩ := div_ulp_mem hx
  obtain ⟨h52, h53⟩ := ulp_mul hx
  have hlow' : (2 ^ 52 : ℤ) ≤ nearest (x / ulp x) := by
    rw [← nearest_intCast (2 ^ 52)]
    exact nearest_mono (by exact_mod_cast hlow)
  have hhigh' : nearest (x / ulp x) ≤ (2 ^ 53 : ℤ) := by
    rw [← nearest_intCast (2 ^ 53)]
    exact nearest_mono (by exact_mod_cast hhigh)
  rw [round, ← h52, ← h53]
  exact ⟨mul_le_mul_of_nonneg_right (by exact_mod_cast hlow') hunit,
    mul_le_mul_of_nonneg_right (by exact_mod_cast hhigh') hunit⟩

theorem round_nonneg {x : ℚ} (hx : 0 ≤ x) : 0 ≤ round x := by
  rcases hx.eq_or_lt with rfl | hx
  · rw [round_zero]
  · exact (zpow_pos (by norm_num) _).le.trans (round_mem hx).1

/-- Rounding keeps the order. -/
theorem round_mono {x y : ℚ} (hx : 0 ≤ x) (h : x ≤ y) : round x ≤ round y := by
  rcases hx.eq_or_lt with rfl | hx
  · rw [round_zero]
    exact round_nonneg h
  · have hy := hx.trans_le h
    rcases (Int.log_mono_right (b := 2) hx h).eq_or_lt with heq | hlt
    · have hulp : ulp x = ulp y := by rw [ulp, ulp, abs_of_pos hx, abs_of_pos hy, heq]
      have hdiv : x / ulp y ≤ y / ulp y := div_le_div_of_nonneg_right h (ulp_pos y).le
      rw [round, round, hulp]
      exact mul_le_mul_of_nonneg_right (by exact_mod_cast nearest_mono hdiv) (ulp_pos y).le
    · calc round x ≤ 2 ^ (Int.log 2 x + 1) := (round_mem hx).2
        _ ≤ 2 ^ Int.log 2 y := zpow_le_zpow_right₀ (by norm_num) hlt
        _ ≤ round y := (round_mem hy).1

/-- The integers of 53 places are numbers of type `double`. -/
theorem round_natCast {n : ℕ} (hn : n < 2 ^ 53) : round n = n := by
  rcases Nat.eq_zero_or_pos n with rfl | hpos
  · simp
  · have hlog : Nat.log 2 n ≤ 52 := Nat.lt_succ_iff.mp (Nat.log_lt_of_lt_pow hpos.ne' hn)
    have hdiv : (n : ℚ) / ulp n = ((n * 2 ^ (52 - Nat.log 2 n) : ℕ) : ℤ) := by
      rw [div_eq_iff (ulp_pos _).ne', ulp, Nat.abs_cast, Int.log_natCast]
      have hpow : (2 : ℚ) ^ (52 - Nat.log 2 n) * 2 ^ ((Nat.log 2 n : ℤ) - 52) = 1 := by
        rw [← zpow_natCast, ← zpow_add₀ (by norm_num), Nat.cast_sub hlog]
        simp
      push_cast
      rw [mul_assoc, hpow, mul_one]
    rw [round, hdiv, nearest_intCast, ← hdiv, div_mul_cancel₀ _ (ulp_pos _).ne']

theorem le_round {n : ℕ} {x : ℚ} (hn : n < 2 ^ 53) (h : n ≤ x) : n ≤ round x := by
  rw [← round_natCast hn]
  exact round_mono (Nat.cast_nonneg n) h

/-! ### The error -/

/-- The part by which rounding changes a number at most. -/
def eps : ℚ := 1 / 2 ^ 53

theorem abs_round_sub_le (x : ℚ) : |round x - x| ≤ eps * |x| := by
  rcases eq_or_ne x 0 with rfl | hx
  · simp
  · have hunit : ulp |x| = ulp x := by rw [ulp, ulp, abs_abs]
    have hlow := (div_ulp_mem (abs_pos.mpr hx)).1
    rw [hunit, le_div_iff₀ (ulp_pos x)] at hlow
    have hscale : round x - x = (nearest (x / ulp x) - x / ulp x) * ulp x := by
      rw [round, sub_mul, div_mul_cancel₀ _ (ulp_pos x).ne']
    calc |round x - x| = |(nearest (x / ulp x) : ℚ) - x / ulp x| * ulp x := by
          rw [hscale, abs_mul, abs_of_pos (ulp_pos x)]
      _ ≤ 1 / 2 * ulp x :=
          mul_le_mul_of_nonneg_right (abs_nearest_sub_le _) (ulp_pos x).le
      _ ≤ eps * |x| := by
          rw [eps]
          linarith

/-- A number is known up to a part `r` of the exact one. -/
def Close (r x x' : ℚ) : Prop := |x' - x| ≤ r * x

section Close

variable {r x x' y y' : ℚ}

theorem close_refl (hr : 0 ≤ r) (hx : 0 ≤ x) : Close r x x := by
  rw [Close, sub_self, abs_zero]
  positivity

theorem Close.mono {s : ℚ} (h : Close r x x') (hx : 0 ≤ x) (hrs : r ≤ s) : Close s x x' :=
  h.trans (mul_le_mul_of_nonneg_right hrs hx)

theorem Close.add (h : Close r x x') (h' : Close r y y') : Close r (x + y) (x' + y') := by
  calc |x' + y' - (x + y)| = |(x' - x) + (y' - y)| := by rw [add_sub_add_comm]
    _ ≤ |x' - x| + |y' - y| := abs_add_le _ _
    _ ≤ r * x + r * y := add_le_add h h'
    _ = r * (x + y) := (mul_add r x y).symm

theorem Close.mul {k : ℚ} (hk : 0 ≤ k) (h : Close r x x') : Close r (k * x) (k * x') := by
  calc |k * x' - k * x| = k * |x' - x| := by rw [← mul_sub, abs_mul, abs_of_nonneg hk]
    _ ≤ k * (r * x) := mul_le_mul_of_nonneg_left h hk
    _ = r * (k * x) := by ring

/-- Each rounding adds to the part. -/
theorem Close.round (hx : 0 ≤ x) (hr : r ≤ 1) (h : Close r x x') :
    Close (r + 2 * eps) x (round x') := by
  have habs : |x'| ≤ 2 * x := by
    have hsum := abs_add_le (x' - x) x
    rw [sub_add_cancel, abs_of_nonneg hx] at hsum
    have hle := mul_le_mul_of_nonneg_right hr hx
    have hclose : |x' - x| ≤ r * x := h
    linarith
  calc |Double.round x' - x| = |(Double.round x' - x') + (x' - x)| := by rw [sub_add_sub_cancel]
    _ ≤ |Double.round x' - x'| + |x' - x| := abs_add_le _ _
    _ ≤ eps * |x'| + r * x := add_le_add (abs_round_sub_le x') h
    _ ≤ eps * (2 * x) + r * x :=
        add_le_add (mul_le_mul_of_nonneg_left habs (by norm_num [eps])) le_rfl
    _ = (r + 2 * eps) * x := by ring

/-- A quotient that stays below a bound by more than the errors does so when it is rounded. -/
theorem Close.round_div_lt {h b : ℚ} (hclose : Close r x x') (hr : 0 ≤ r) (hh : 0 < h) (hb : 0 < b)
    (hgap : x + (r + 2 * eps) * (b * h) ≤ b * h) : Double.round (x' / h) < b := by
  have heps : 0 < eps ∧ eps < 1 := by norm_num [eps]
  have hbh : 0 < b * h := mul_pos hb hh
  have hx : x ≤ b * h := by
    have : 0 ≤ (r + 2 * eps) * (b * h) := mul_nonneg (by linarith) hbh.le
    linarith
  have hx' : x' ≤ b * (1 - 2 * eps) * h := by
    have hle := (abs_le.mp hclose).2
    have hpart := mul_le_mul_of_nonneg_left hx hr
    linarith
  have hquot : x' / h ≤ b * (1 - 2 * eps) := (div_le_iff₀ hh).mpr hx'
  have hround := (abs_le.mp (abs_round_sub_le (x' / h))).2
  rcases le_total 0 (x' / h) with hnonneg | hneg
  · rw [abs_of_nonneg hnonneg] at hround
    have hgrow := mul_le_mul_of_nonneg_right hquot (show 0 ≤ 1 + eps by linarith)
    have hlast : b * (1 - 2 * eps) * (1 + eps) = b - b * (eps + 2 * eps ^ 2) := by ring
    have hpos : 0 < b * (eps + 2 * eps ^ 2) := by
      have := heps.1
      positivity
    linarith
  · rw [abs_of_nonpos hneg] at hround
    have hshrink : x' / h * (1 - eps) ≤ 0 := mul_nonpos_of_nonpos_of_nonneg hneg (by linarith)
    linarith

end Close

theorem le_round_div {n : ℕ} {x h : ℚ} (hn : n < 2 ^ 53) (hh : 0 < h) (hx : n * h ≤ x) :
    n ≤ round (x / h) := le_round hn ((le_div_iff₀ hh).mpr hx)

/-! ### Sums -/

/-- Numbers added up in `double`. -/
def sum (xs : List ℚ) (start : ℚ) : ℚ := xs.foldl (fun t x => round (t + x)) start

/-- Each of the additions adds to the part. -/
theorem close_sum {α : Type*} {f g : α → ℚ} {r : ℚ} (hr : 0 ≤ r) (ps : List α) {x x' : ℚ}
    (hx : 0 ≤ x) (hf : ∀ p ∈ ps, 0 ≤ f p) (hg : ∀ p ∈ ps, Close r (f p) (g p))
    (hbound : r + 2 * ps.length * eps ≤ 1) (h : Close r x x') :
    Close (r + 2 * ps.length * eps) (x + (ps.map f).sum) (sum (ps.map g) x') := by
  induction ps generalizing r x x' with
  | nil => simpa [sum] using h
  | cons p ps ih =>
    have heps : (0 : ℚ) < eps := by norm_num [eps]
    have hlen : (0 : ℚ) ≤ ps.length := Nat.cast_nonneg _
    have hp := hf p List.mem_cons_self
    rw [List.length_cons, Nat.cast_succ] at hbound ⊢
    have hr1 : r ≤ 1 := by nlinarith
    have hstep : Close (r + 2 * eps) (x + f p) (round (x' + g p)) :=
      (h.add (hg p List.mem_cons_self)).round (add_nonneg hx hp) hr1
    have hrest := ih (r := r + 2 * eps) (by positivity) (add_nonneg hx hp)
      (fun q hq => hf q (List.mem_cons_of_mem p hq))
      (fun q hq => (hg q (List.mem_cons_of_mem p hq)).mono (hf q (List.mem_cons_of_mem p hq))
        (by linarith)) (by linarith) hstep
    rw [List.map_cons, List.map_cons, List.sum_cons, ← add_assoc]
    have hpart : r + 2 * eps + 2 * ps.length * eps = r + 2 * (ps.length + 1) * eps := by ring
    rw [hpart] at hrest
    exact hrest

/-- A sum of numbers that are not below a small integer is not below its multiple. -/
theorem le_sum {m : ℕ} (xs : List ℚ) (hxs : ∀ x ∈ xs, (m : ℚ) ≤ x) {k : ℕ} {t : ℚ}
    (hbound : k + xs.length * m < 2 ^ 53) (ht : k ≤ t) :
    ((k + xs.length * m : ℕ) : ℚ) ≤ sum xs t := by
  induction xs generalizing k t with
  | nil => simpa [sum] using ht
  | cons x xs ih =>
    have hx := hxs x List.mem_cons_self
    rw [List.length_cons, Nat.succ_mul] at hbound ⊢
    have hstep : ((k + m : ℕ) : ℚ) ≤ round (t + x) := by
      refine le_round (by omega) ?_
      push_cast
      exact add_le_add ht hx
    have hrest := ih (fun y hy => hxs y (List.mem_cons_of_mem x hy)) (k := k + m) (by omega) hstep
    have hcount : k + (xs.length * m + m) = k + m + xs.length * m := by ring
    rw [hcount]
    exact hrest

end SchoolProjects.Double
