import Mathlib.Algebra.Order.Ring.Nat
import Mathlib.Data.Nat.Bitwise
import Mathlib.Tactic.NormNum
import Mathlib.Tactic.Ring

/-! Numbers cut into fields of `k` bits, and sums of their fields that are formed in
parallel: with a mask that keeps every other field, neighbours are added in one step, and
what comes out are fields of `2 * k` bits with the same sum. -/

namespace SchoolProjects.Fields

variable {k m n x : ℕ}

/-- `n` fields of `2 * k` bits, the lower half of each filled. -/
def mask (k : ℕ) : ℕ → ℕ
  | 0 => 0
  | n + 1 => (2 ^ k - 1) + 2 ^ (2 * k) * mask k n

/-- The sum of the lowest `n` fields of `k` bits. -/
def total (k : ℕ) : ℕ → ℕ → ℕ
  | 0, _ => 0
  | n + 1, x => x % 2 ^ k + total k n (x / 2 ^ k)

/-- Neighbouring fields are added. -/
def fold (k n x : ℕ) : ℕ := (x &&& mask k n) + (x >>> k &&& mask k n)

/-- No field of `k` bits is greater than `m`. -/
def Bounded (k m x : ℕ) : Prop := ∀ i, x / 2 ^ (k * i) % 2 ^ k ≤ m

theorem two_pow_double (k : ℕ) : 2 ^ (2 * k) = 2 ^ k * 2 ^ k := by
  rw [two_mul, pow_add]

theorem half_lt (k : ℕ) : 2 ^ k - 1 < 2 ^ (2 * k) := by
  have hk : 0 < 2 ^ k := Nat.two_pow_pos k
  have : 2 ^ k ≤ 2 ^ k * 2 ^ k := Nat.le_mul_of_pos_left _ hk
  rw [two_pow_double]
  omega

/-! ### Sums -/

theorem total_eq_countP (n x : ℕ) : total 1 n x = (List.range n).countP fun i => x.testBit i := by
  induction n generalizing x with
  | zero => rfl
  | succ n ih =>
    have hbit : ∀ i, (x / 2).testBit i = x.testBit (i + 1) := fun i => (Nat.testBit_succ x i).symm
    rw [total, ih, List.range_succ_eq_map, List.countP_cons, List.countP_map, add_comm]
    congr 1
    · exact List.countP_congr fun i _ => by simp [hbit]
    · rcases Nat.mod_two_eq_zero_or_one x with h | h <;> simp [h, Nat.testBit_zero]

theorem bounded_bits (x : ℕ) : Bounded 1 1 x := fun i => by
  have := Nat.mod_lt (x / 2 ^ (1 * i)) (show 0 < 2 ^ 1 by norm_num)
  omega

theorem Bounded.div (h : Bounded k m x) : Bounded k m (x / 2 ^ k) := fun i => by
  have := h (i + 1)
  rwa [Nat.mul_succ, add_comm, pow_add, ← Nat.div_div_eq_div_mul] at this

theorem Bounded.low (h : Bounded k m x) : x % 2 ^ k ≤ m := by simpa using h 0

theorem total_le (h : Bounded k m x) (n : ℕ) : total k n x ≤ n * m := by
  induction n generalizing x with
  | zero => simp [total]
  | succ n ih =>
    have h0 := h.low
    have hrest := ih h.div
    rw [total, Nat.succ_mul]
    omega

theorem bounded_cons {a b : ℕ} (ha : a < 2 ^ k) (hm : a ≤ m) (hb : Bounded k m b) :
    Bounded k m (a + 2 ^ k * b) := by
  intro i
  cases i with
  | zero => simpa [Nat.mod_eq_of_lt ha] using hm
  | succ i =>
    rw [Nat.mul_succ, add_comm (k * i), pow_add, ← Nat.div_div_eq_div_mul,
      Nat.add_mul_div_left _ _ (Nat.two_pow_pos _), Nat.div_eq_of_lt ha, zero_add]
    exact hb i

/-! ### One step -/

/-- A mask on the lowest field and on the others. -/
theorem and_mask_succ (k n x : ℕ) : x &&& mask k (n + 1) =
    x % 2 ^ k + 2 ^ (2 * k) * (x / 2 ^ (2 * k) &&& mask k n) := by
  have hlow : mask k (n + 1) % 2 ^ (2 * k) = 2 ^ k - 1 := by
    rw [mask, Nat.add_mul_mod_self_left, Nat.mod_eq_of_lt (half_lt k)]
  have hhigh : mask k (n + 1) / 2 ^ (2 * k) = mask k n := by
    rw [mask, Nat.add_mul_div_left _ _ (Nat.two_pow_pos _), Nat.div_eq_of_lt (half_lt k), zero_add]
  calc x &&& mask k (n + 1)
      = (x &&& mask k (n + 1)) % 2 ^ (2 * k) +
          2 ^ (2 * k) * ((x &&& mask k (n + 1)) / 2 ^ (2 * k)) := (Nat.mod_add_div _ _).symm
    _ = (x % 2 ^ (2 * k) &&& 2 ^ k - 1) + 2 ^ (2 * k) * (x / 2 ^ (2 * k) &&& mask k n) := by
        rw [Nat.and_mod_two_pow, Nat.and_div_two_pow, hlow, hhigh]
    _ = x % 2 ^ k + 2 ^ (2 * k) * (x / 2 ^ (2 * k) &&& mask k n) := by
        rw [Nat.and_two_pow_sub_one_eq_mod, two_pow_double, Nat.mod_mul_right_mod]

theorem fold_succ (k n x : ℕ) : fold k (n + 1) x =
    (x % 2 ^ k + x / 2 ^ k % 2 ^ k) + 2 ^ (2 * k) * fold k n (x / 2 ^ (2 * k)) := by
  have hshift : x / 2 ^ k / 2 ^ (2 * k) = x / 2 ^ (2 * k) / 2 ^ k := Nat.div_right_comm _ _ _
  rw [fold, and_mask_succ, and_mask_succ, fold, Nat.shiftRight_eq_div_pow,
    Nat.shiftRight_eq_div_pow, hshift]
  ring

/-- The sum of two fields is a field of twice the width. -/
theorem pair_lt (hk : 1 ≤ k) (x : ℕ) : x % 2 ^ k + x / 2 ^ k % 2 ^ k < 2 ^ (2 * k) := by
  have h0 := Nat.mod_lt x (Nat.two_pow_pos k)
  have h1 := Nat.mod_lt (x / 2 ^ k) (Nat.two_pow_pos k)
  have h2 : 2 ^ 1 ≤ 2 ^ k := Nat.pow_le_pow_right (by norm_num) hk
  have h3 : 2 * 2 ^ k ≤ 2 ^ k * 2 ^ k := Nat.mul_le_mul_right _ (by omega)
  rw [two_pow_double]
  omega

theorem fold_mod (hk : 1 ≤ k) (n x : ℕ) :
    fold k (n + 1) x % 2 ^ (2 * k) = x % 2 ^ k + x / 2 ^ k % 2 ^ k := by
  rw [fold_succ, Nat.add_mul_mod_self_left, Nat.mod_eq_of_lt (pair_lt hk x)]

theorem fold_div (hk : 1 ≤ k) (n x : ℕ) :
    fold k (n + 1) x / 2 ^ (2 * k) = fold k n (x / 2 ^ (2 * k)) := by
  rw [fold_succ, Nat.add_mul_div_left _ _ (Nat.two_pow_pos _), Nat.div_eq_of_lt (pair_lt hk x),
    zero_add]

/-- The step keeps the sum of the fields. -/
theorem total_fold (hk : 1 ≤ k) (n x : ℕ) : total (2 * k) n (fold k n x) = total k (2 * n) x := by
  induction n generalizing x with
  | zero => rfl
  | succ n ih =>
    rw [total, fold_mod hk, fold_div hk, ih, Nat.mul_succ, total, total, two_pow_double,
      ← Nat.div_div_eq_div_mul]
    ring

theorem Bounded.fold (hk : 1 ≤ k) (h : Bounded k m x) (n : ℕ) :
    Bounded (2 * k) (2 * m) (fold k n x) := by
  induction n generalizing x with
  | zero =>
    intro i
    simp [Fields.fold, mask]
  | succ n ih =>
    rw [fold_succ]
    have h0 := h.low
    have h1 := h.div.low
    refine bounded_cons (pair_lt hk x) (by omega) (ih ?_)
    rw [two_pow_double, ← Nat.div_div_eq_div_mul]
    exact h.div.div

theorem fold_lt (hk : 1 ≤ k) (n x : ℕ) : fold k n x < 2 ^ (2 * k * n) := by
  induction n generalizing x with
  | zero => simp [fold, mask]
  | succ n ih =>
    have h := pair_lt hk x
    have hrest := ih (x / 2 ^ (2 * k))
    have hmul : 2 ^ (2 * k) * (fold k n (x / 2 ^ (2 * k)) + 1) ≤
        2 ^ (2 * k) * 2 ^ (2 * k * n) := Nat.mul_le_mul_left _ hrest
    rw [fold_succ, Nat.mul_succ, add_comm (2 * k * n), pow_add]
    rw [Nat.mul_succ] at hmul
    omega

/-! ### The same steps with fewer operations -/

/-- For fields of one bit the upper one is taken away once. -/
theorem sub_and_mask (hx : x < 2 ^ (2 * n)) : x - (x >>> 1 &&& mask 1 n) = fold 1 n x ∧
    (x >>> 1 &&& mask 1 n) ≤ x := by
  induction n generalizing x with
  | zero =>
    obtain rfl : x = 0 := by simpa using hx
    exact ⟨rfl, le_rfl⟩
  | succ n ih =>
    have hx4 : x / 4 < 2 ^ (2 * n) := by
      rw [Nat.mul_succ, pow_add] at hx
      omega
    obtain ⟨hsub, hle⟩ := ih hx4
    have hmask : x >>> 1 &&& mask 1 (n + 1) = x / 2 % 2 + 4 * ((x / 4) >>> 1 &&& mask 1 n) := by
      have hcomm : x >>> 1 / 2 ^ (2 * 1) = (x / 4) >>> 1 := Nat.div_right_comm x 2 4
      rw [and_mask_succ, hcomm]
      rfl
    have hfold : fold 1 (n + 1) x = x % 2 + x / 2 % 2 + 4 * fold 1 n (x / 4) := fold_succ 1 n x
    rw [hmask, hfold]
    omega

/-- Where the sum of two fields is a field, one mask is enough. -/
theorem add_and_mask (hm : 2 * m < 2 ^ k) (h : Bounded k m x) :
    (x + x >>> k) &&& mask k n = fold k n x := by
  induction n generalizing x with
  | zero => simp [fold, mask]
  | succ n ih =>
    have h0 := h.low
    have h1 := h.div.low
    have h2 := h.div.div.low
    have hrest := ih h.div.div
    have hpos : 0 < 2 ^ k := Nat.two_pow_pos k
    rw [and_mask_succ, fold_succ]
    rw [Nat.shiftRight_eq_div_pow] at hrest ⊢
    have hlow : (x + x / 2 ^ k) % 2 ^ k = x % 2 ^ k + x / 2 ^ k % 2 ^ k := by
      rw [Nat.add_mod, Nat.mod_eq_of_lt (by omega)]
    -- nothing is carried from the lower two fields
    have hfirst : (x + x / 2 ^ k) / 2 ^ k = x / 2 ^ k + x / 2 ^ k / 2 ^ k := by
      rw [Nat.add_div hpos, if_neg (by omega), add_zero]
    have hsecond : (x / 2 ^ k + x / 2 ^ k / 2 ^ k) / 2 ^ k =
        x / 2 ^ k / 2 ^ k + x / 2 ^ k / 2 ^ k / 2 ^ k := by
      rw [Nat.add_div hpos, if_neg (by omega), add_zero]
    rw [hlow, two_pow_double, ← Nat.div_div_eq_div_mul, ← Nat.div_div_eq_div_mul, hfirst, hsecond,
      hrest]

/-! ### The sum in the highest byte -/

/-- What is below a byte and above it does not change it. -/
theorem byte_between {low t : ℕ} (hlow : low < 2 ^ 56) (ht : t < 256) (high : ℕ) :
    (low + 2 ^ 56 * t + 2 ^ 64 * high) % 2 ^ 64 / 2 ^ 56 = t := by
  omega

/-- A number of eight bytes. -/
theorem exists_bytes (hx : x < 2 ^ 64) : ∃ a b c d e f g h, a < 256 ∧ b < 256 ∧ c < 256 ∧ d < 256 ∧
    e < 256 ∧ f < 256 ∧ g < 256 ∧ h < 256 ∧
    x = a + 256 * (b + 256 * (c + 256 * (d + 256 * (e + 256 * (f + 256 * (g + 256 * h)))))) :=
  ⟨x % 256, x / 256 % 256, x / 256 / 256 % 256, x / 256 / 256 / 256 % 256,
    x / 256 / 256 / 256 / 256 % 256, x / 256 / 256 / 256 / 256 / 256 % 256,
    x / 256 / 256 / 256 / 256 / 256 / 256 % 256, x / 256 / 256 / 256 / 256 / 256 / 256 / 256,
    by omega, by omega, by omega, by omega, by omega, by omega, by omega, by omega, by omega⟩

/-- A product with a one in each byte has the sum of the bytes in the highest byte. -/
theorem mul_ones_div (hx : x < 2 ^ 64) (ht : total 8 8 x < 256) :
    x * 0x0101010101010101 % 2 ^ 64 / 2 ^ 56 = total 8 8 x := by
  obtain ⟨a, b, c, d, e, f, g, h, ha, hb, hc, hd, he, hf, hg, hh, rfl⟩ := exists_bytes hx
  have hmod : ∀ y z, y < 256 → (y + 256 * z) % 2 ^ 8 = y := fun y z hy => by omega
  have hdiv : ∀ y z, y < 256 → (y + 256 * z) / 2 ^ 8 = z := fun y z hy => by omega
  have htotal : total 8 8 (a + 256 * (b + 256 * (c + 256 * (d + 256 * (e + 256 *
      (f + 256 * (g + 256 * h))))))) = a + b + c + d + e + f + g + h := by
    simp only [total, hmod _ _ ha, hdiv _ _ ha, hmod _ _ hb, hdiv _ _ hb, hmod _ _ hc, hdiv _ _ hc,
      hmod _ _ hd, hdiv _ _ hd, hmod _ _ he, hdiv _ _ he, hmod _ _ hf, hdiv _ _ hf, hmod _ _ hg,
      hdiv _ _ hg, Nat.mod_eq_of_lt (show h < 2 ^ 8 from hh)]
    ring
  rw [htotal] at ht ⊢
  -- the sums that end below the highest byte are bytes too, so nothing is carried into it
  have hlow : a + 256 * (a + b) + 256 ^ 2 * (a + b + c) + 256 ^ 3 * (a + b + c + d) +
      256 ^ 4 * (a + b + c + d + e) + 256 ^ 5 * (a + b + c + d + e + f) +
      256 ^ 6 * (a + b + c + d + e + f + g) < 2 ^ 56 := by
    omega
  rw [← byte_between hlow ht (b + c + d + e + f + g + h + 256 * (c + d + e + f + g + h) +
    256 ^ 2 * (d + e + f + g + h) + 256 ^ 3 * (e + f + g + h) + 256 ^ 4 * (f + g + h) +
    256 ^ 5 * (g + h) + 256 ^ 6 * h)]
  refine congrArg (fun z => z % 2 ^ 64 / 2 ^ 56) ?_
  ring

end SchoolProjects.Fields
