import Mathlib.Tactic
import Mathlib.Data.Nat.Digits.Defs

/-! Numerals with the greatest digit first and no leading zeros. A numeral is determined by
its value, and a numeral in one base becomes one in another when every digit is replaced by
digits of the other base that go on in the same way. -/

namespace SchoolProjects.Numeral

/-- The number that the digits make of `v`. -/
def value (b v : ℕ) (ds : List ℕ) : ℕ := ds.foldl (fun v d => b * v + d) v

/-- The numeral of `n` in base `b`. -/
def digits (b n : ℕ) : List ℕ := if n = 0 then [0] else (Nat.digits b n).reverse

/-- Digits of base `b`, of which the first is zero only where it is the only one. -/
inductive IsNumeral (b : ℕ) : List ℕ → Prop
  | mk {d : ℕ} {ds : List ℕ} (hd : d < b) (hds : ∀ e ∈ ds, e < b) (hzero : d = 0 → ds = []) :
      IsNumeral b (d :: ds)

variable {b B : ℕ}

@[simp] theorem value_nil (b v : ℕ) : value b v [] = v := rfl

@[simp] theorem value_cons (b v d : ℕ) (ds : List ℕ) :
    value b v (d :: ds) = value b (b * v + d) ds := rfl

theorem value_append (b v : ℕ) (ds es : List ℕ) :
    value b v (ds ++ es) = value b (value b v ds) es := List.foldl_append

theorem value_eq_ofDigits (b : ℕ) (ds : List ℕ) : value b 0 ds = Nat.ofDigits b ds.reverse := by
  induction ds using List.reverseRecOn with
  | nil => rfl
  | append_singleton ds d ih =>
    rw [value_append, ih, List.reverse_append, List.reverse_singleton, List.singleton_append,
      Nat.ofDigits_cons]
    simp [add_comm]

theorem value_digits (b n : ℕ) : value b 0 (digits b n) = n := by
  unfold digits
  split_ifs with hn
  · simp [hn]
  · rw [value_eq_ofDigits, List.reverse_reverse, Nat.ofDigits_digits]

theorem isNumeral_digits (hb : 1 < b) (n : ℕ) : IsNumeral b (digits b n) := by
  unfold digits
  split_ifs with hn
  · exact .mk (by omega) (by simp) fun _ => rfl
  · have hne : Nat.digits b n ≠ [] := Nat.digits_ne_nil_iff_ne_zero.2 hn
    have hlast := Nat.getLast_digit_ne_zero b hn
    have hlt : ∀ d ∈ (Nat.digits b n).reverse, d < b :=
      fun d hd => Nat.digits_lt_base hb (List.mem_reverse.1 hd)
    cases hds : (Nat.digits b n).reverse with
    | nil => exact absurd (List.reverse_eq_nil_iff.1 hds) hne
    | cons d ds =>
      rw [hds] at hlt
      have hd : d ≠ 0 := by
        rw [← List.head_reverse (by simpa using hne)] at hlast
        simpa [hds] using hlast
      exact .mk (hlt d (by simp)) (fun e he => hlt e (by simp [he])) fun h0 => absurd h0 hd

theorem IsNumeral.exists_cons {es : List ℕ} (h : IsNumeral b es) :
    ∃ d ds, es = d :: ds ∧ d < b ∧ (∀ e ∈ ds, e < b) ∧ (d = 0 → ds = []) := by
  cases h with
  | mk hd hds hzero => exact ⟨_, _, rfl, hd, hds, hzero⟩

/-- A numeral is that of its value. -/
theorem IsNumeral.eq_digits (hb : 1 < b) {ds : List ℕ} (h : IsNumeral b ds) :
    ds = digits b (value b 0 ds) := by
  obtain ⟨d, ds, rfl, hd, hds, hzero⟩ := h.exists_cons
  rw [value_eq_ofDigits]
  by_cases h0 : d = 0
  · rw [hzero h0, h0]
    simp [digits]
  · have hlt : ∀ e ∈ (d :: ds).reverse, e < b := by
      intro e he
      rcases List.mem_cons.1 (List.mem_reverse.1 he) with rfl | he
      exacts [hd, hds e he]
    have hinv := Nat.digits_ofDigits b hb (d :: ds).reverse hlt (by simpa using h0)
    have hne : Nat.ofDigits b (d :: ds).reverse ≠ 0 := by
      intro hzero
      rw [hzero, Nat.digits_zero] at hinv
      simp at hinv
    rw [digits, if_neg hne, hinv, List.reverse_reverse]

/-- Where the digits `f d` go on as `d` does in base `B`, all together do. -/
theorem value_flatMap {f : ℕ → List ℕ} (hf : ∀ d < B, ∀ v, value b v (f d) = B * v + d)
    {ds : List ℕ} (hds : ∀ d ∈ ds, d < B) (v : ℕ) : value b v (ds.flatMap f) = value B v ds := by
  induction ds generalizing v with
  | nil => rfl
  | cons d ds ih =>
    rw [List.flatMap_cons, value_append, hf d (hds d (by simp)), value_cons]
    exact ih (fun e he => hds e (by simp [he])) _

end SchoolProjects.Numeral
