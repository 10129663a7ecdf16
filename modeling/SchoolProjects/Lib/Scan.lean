import SchoolProjects.Lib.Text

/-! What an extraction from a stream takes for a word, an `int` and a `double`, as
libstdc++ does it in the "C" locale, and how `fixed` prints a `double`. A printed finite
number is read back; what is printed for infinity and for no number is not a number
when it is read. -/

namespace SchoolProjects

open Text

/-- What an extraction makes of the characters: the value it stores, whether they are a
number of the type, and what it leaves. -/
structure Scan (α : Type*) where
  value : α
  ok : Bool
  rest : Text

namespace Scan

/-- A word. -/
def word (t : Text) : Scan Text :=
  ⟨t.takeWhile fun c => !isspace c, true, t.dropWhile fun c => !isspace c⟩

/-- An `int`. Without a digit 0 is stored, and out of range the bound that is closest. -/
def int (t : Text) : Scan ℤ :=
  match number t with
  | none => ⟨0, false, (sign t).2⟩
  | some (z, rest) => ⟨max (-2 ^ 31) (min z (2 ^ 31 - 1)), -2 ^ 31 ≤ z ∧ z < 2 ^ 31, rest⟩

/-- A decimal number, not yet rounded to a `double`. -/
structure Decimal where
  neg : Bool
  magnitude : ℚ
  deriving DecidableEq

/-- The greatest `double`. -/
def DBL_MAX : ℕ := (2 ^ 53 - 1) * 2 ^ 971

/-- The least number that is rounded to infinity. -/
def HUGE_VAL : ℕ := 2 ^ 1024 - 2 ^ 970

/-- The digits before and after an optional decimal point. -/
def mantissa (t : Text) : Text × Text × Text :=
  match t.dropWhile isdigit with
  | 46 :: u => (t.takeWhile isdigit, u.takeWhile isdigit, u.dropWhile isdigit)
  | u => (t.takeWhile isdigit, [], u)

/-- An optional exponent; it has to have a digit. -/
def exponent : Text → Option ℤ × Text
  | [] => (some 0, [])
  | c :: t =>
    if c = 101 ∨ c = 69 then
      let (neg, u) := sign t
      let digits := u.takeWhile isdigit
      (if digits = [] then none else some (if neg then -Text.value digits else Text.value digits),
        u.dropWhile isdigit)
    else (some 0, c :: t)

/-- A `double`. -/
def double (t : Text) : Scan Decimal :=
  let (neg, t) := sign t
  let (whole, fraction, t) := mantissa t
  let digits := whole ++ fraction
  if digits = [] then ⟨⟨false, 0⟩, false, t⟩
  else
    match exponent t with
    | (none, t) => ⟨⟨false, 0⟩, false, t⟩
    | (some e, t) =>
      let magnitude : ℚ := Text.value digits * 10 ^ (e - fraction.length)
      if magnitude < HUGE_VAL then ⟨⟨neg, magnitude⟩, true, t⟩
      else ⟨⟨neg, DBL_MAX⟩, false, t⟩

variable {α : Type*}

/-- The part of a scan that the flags of the stream depend on. -/
def skim (scan : Text → Scan α) (t : Text) : Bool × Text := ((scan t).ok, (scan t).rest)

end Scan

/-! ### Printing -/

/-- What `fixed` prints of a `double`: a finite one to six decimals. -/
inductive Fixed
  | finite (neg : Bool) (millionths : ℕ) (h : millionths ≤ Scan.DBL_MAX * 10 ^ 6)
  | inf (neg : Bool)
  | nan (neg : Bool)

namespace Fixed

def minus (neg : Bool) : Text := if neg then [45] else []

/-- `db << fixed << x`. -/
def print : Fixed → Text
  | finite neg n _ =>
    minus neg ++ (decimal (n / 10 ^ 6) ++ 46 :: pad 6 (decimal (n % 10 ^ 6)))
  | inf neg => minus neg ++ ascii "inf"
  | nan neg => minus neg ++ ascii "nan"

def isfinite : Fixed → Bool
  | finite .. => true
  | _ => false

/-- The decimal number that is printed. -/
def toDecimal : Fixed → Scan.Decimal
  | finite neg n _ => ⟨neg, n / 10 ^ 6⟩
  | inf _ | nan _ => ⟨false, 0⟩

end Fixed

namespace Scan

/-! ### Consumed characters -/

theorem length_sign (t : Text) : (sign t).2.length ≤ t.length := by
  unfold sign
  split
  · exact Nat.le_succ _
  · exact Nat.le_succ _
  · exact le_rfl

theorem length_digits (t : Text) :
    (t.takeWhile isdigit).length + (t.dropWhile isdigit).length = t.length := by
  rw [← List.length_append, List.takeWhile_append_dropWhile]

theorem length_dropWhile_le (p : UInt8 → Bool) (t : Text) : (t.dropWhile p).length ≤ t.length :=
  (List.dropWhile_suffix p).length_le

theorem length_number {t rest : Text} {z : ℤ} (h : number t = some (z, rest)) :
    rest.length < t.length := by
  unfold number at h
  have hsign := length_sign (t.dropWhile isspace)
  have hskip := length_dropWhile_le isspace t
  generalize sign (t.dropWhile isspace) = r at h hsign
  obtain ⟨neg, u⟩ := r
  have hdigits := length_digits u
  dsimp only at h hsign
  by_cases hne : u.takeWhile isdigit = []
  · rw [if_pos hne] at h
    cases h
  · rw [if_neg hne] at h
    obtain ⟨-, rfl⟩ := Prod.mk.inj (Option.some.inj h)
    have := List.length_pos_iff.mpr hne
    omega

theorem length_int {t : Text} (h : (int t).ok = true) : (int t).rest.length < t.length := by
  unfold int at h ⊢
  cases hnumber : number t with
  | none =>
    rw [hnumber] at h
    cases h
  | some r => exact length_number hnumber

theorem length_mantissa (t : Text) : (mantissa t).1.length + (mantissa t).2.1.length +
    (mantissa t).2.2.length ≤ t.length := by
  have hdigits := length_digits t
  unfold mantissa
  split
  · next u hu =>
    have hfraction := length_digits u
    rw [hu, List.length_cons] at hdigits
    dsimp only
    omega
  · simp only [List.length_nil]
    omega

theorem length_exponent (t : Text) : (exponent t).2.length ≤ t.length := by
  unfold exponent
  split
  · exact le_rfl
  · next c u =>
    have hsign := length_sign u
    have hskip := length_dropWhile_le isdigit (sign u).2
    split_ifs
    · simp only [List.length_cons]
      omega
    · exact le_rfl

theorem length_double {t : Text} (h : (double t).ok = true) :
    (double t).rest.length < t.length := by
  have hsign := length_sign t
  unfold double at h ⊢
  generalize sign t = s at h hsign ⊢
  obtain ⟨neg, u⟩ := s
  have hmantissa := length_mantissa u
  dsimp only at h hsign ⊢
  generalize mantissa u = m at h hmantissa ⊢
  obtain ⟨whole, fraction, v⟩ := m
  have hexponent := length_exponent v
  dsimp only at h hmantissa ⊢
  generalize exponent v = e at h hexponent ⊢
  split_ifs at h ⊢ with hne
  have hpos := List.length_pos_iff.mpr hne
  rw [List.length_append] at hpos
  obtain ⟨_ | e, w⟩ := e
  · cases h
  · dsimp only at h hexponent ⊢
    split_ifs at h ⊢
    · dsimp only
      omega

/-! ### Reading back -/

theorem int_format {z : ℤ} (h0 : -2 ^ 31 ≤ z) (h1 : z < 2 ^ 31) {rest : Text} (hr : Stops rest) :
    int (format 0 z ++ rest) = ⟨z, true, rest⟩ := by
  have hclamp : max (-2 ^ 31) (min z (2 ^ 31 - 1)) = z := by omega
  rw [int, number_format 0 z hr]
  dsimp only
  rw [hclamp, decide_eq_true ⟨h0, h1⟩]

theorem value_append (ds es : Text) :
    Text.value (ds ++ es) = Text.value ds * 10 ^ es.length + Text.value es := by
  induction es using List.reverseRecOn with
  | nil => simp [Text.value]
  | append_singleton es c ih =>
    rw [← List.append_assoc, value_append_singleton, ih, value_append_singleton, List.length_append,
      List.length_singleton, pow_succ]
    ring

theorem length_pad_decimal {width n : ℕ} (hw : 0 < width) (hn : n < 10 ^ width) :
    (pad width (decimal n)).length = width := by
  have hle : (format width n).length ≤ max width width := length_format hw hn
  have hneg : ¬ (n : ℤ) < 0 := by omega
  rw [format, if_neg hneg, Int.natAbs_natCast] at hle
  have hpad : (pad width (decimal n)).length =
      width - (decimal n).length + (decimal n).length := by
    rw [pad, List.length_append, List.length_replicate]
  omega

/-- What ends a `double`. -/
def NumberEnds (t : Text) : Prop := ∀ c ∈ t.head?, isdigit c = false ∧ c ≠ 46 ∧ c ≠ 101 ∧ c ≠ 69

theorem sign_minus (neg : Bool) {ds t : Text} (hd : ∀ c ∈ ds, isdigit c = true) (hne : ds ≠ []) :
    sign (Fixed.minus neg ++ (ds ++ t)) = (neg, ds ++ t) := by
  cases neg with
  | true => rfl
  | false =>
    obtain ⟨c, ds, rfl⟩ := List.exists_cons_of_ne_nil hne
    exact sign_of_digit (hd c (by simp))

theorem mantissa_digits {ds es rest : Text} (hd : ∀ c ∈ ds, isdigit c = true)
    (he : ∀ c ∈ es, isdigit c = true) (hr : Stops rest) :
    mantissa (ds ++ 46 :: (es ++ rest)) = (ds, es, rest) := by
  have hpoint : Stops (46 :: (es ++ rest)) := fun c hc => by
    obtain rfl := Option.some.inj hc
    rfl
  obtain ⟨htake, hdrop⟩ := takeWhile_digits hd hpoint
  obtain ⟨htake', hdrop'⟩ := takeWhile_digits he hr
  simp only [mantissa, htake, hdrop, htake', hdrop']

theorem exponent_of_numberEnds {t : Text} (h : NumberEnds t) : exponent t = (some 0, t) := by
  cases t with
  | nil => rfl
  | cons c t =>
    obtain ⟨-, -, he, hE⟩ := h c rfl
    rw [exponent, if_neg (not_or.mpr ⟨he, hE⟩)]

theorem DBL_MAX_lt : DBL_MAX < HUGE_VAL := by
  have h971 : 2 ^ 971 = 2 * 2 ^ 970 := by rw [← pow_succ']
  have h1024 : 2 ^ 1024 = 2 ^ 54 * 2 ^ 970 := by rw [← pow_add]
  have hpos : 0 < 2 ^ 970 := by positivity
  unfold DBL_MAX HUGE_VAL
  rw [h971, h1024]
  generalize 2 ^ 970 = a at hpos
  omega

/-- A finite number is read back as it is printed. -/
theorem double_finite (neg : Bool) {n : ℕ} (h : n ≤ DBL_MAX * 10 ^ 6) {rest : Text}
    (hr : NumberEnds rest) : double ((Fixed.finite neg n h).print ++ rest) =
      ⟨(Fixed.finite neg n h).toDecimal, true, rest⟩ := by
  have hwhole : ∀ c ∈ decimal (n / 10 ^ 6), isdigit c = true := fun c hc =>
    isdigit_of_mem_decimal hc
  have hfraction : ∀ c ∈ pad 6 (decimal (n % 10 ^ 6)), isdigit c = true := fun c hc =>
    isdigit_of_mem_pad hc
  have hlen : (pad 6 (decimal (n % 10 ^ 6))).length = 6 :=
    length_pad_decimal (by norm_num) (Nat.mod_lt _ (by norm_num))
  have hvalue : Text.value (decimal (n / 10 ^ 6) ++ pad 6 (decimal (n % 10 ^ 6))) = n := by
    rw [value_append, hlen, value_pad, value_decimal, value_decimal, Nat.div_add_mod']
  have hmagnitude : (n : ℚ) * 10 ^ ((0 : ℤ) - 6) = n / 10 ^ 6 := by
    norm_num
    ring
  have hlt : (n : ℚ) / 10 ^ 6 < HUGE_VAL := by
    rw [div_lt_iff₀ (by norm_num)]
    have hmax : DBL_MAX * 10 ^ 6 < HUGE_VAL * 10 ^ 6 :=
      Nat.mul_lt_mul_of_pos_right DBL_MAX_lt (by norm_num)
    exact_mod_cast lt_of_le_of_lt h hmax
  have hsign := sign_minus neg (t := 46 :: (pad 6 (decimal (n % 10 ^ 6)) ++ rest)) hwhole
    (decimal_ne_nil _)
  have hmantissa := mantissa_digits hwhole hfraction fun c hc => (hr c hc).1
  have hprint : (Fixed.finite neg n h).print ++ rest = Fixed.minus neg ++
      (decimal (n / 10 ^ 6) ++ 46 :: (pad 6 (decimal (n % 10 ^ 6)) ++ rest)) := by
    simp [Fixed.print]
  rw [hprint, double, hsign]
  dsimp only
  rw [hmantissa]
  dsimp only
  rw [if_neg (by simp [decimal_ne_nil]), exponent_of_numberEnds hr]
  dsimp only
  rw [hvalue, hlen]
  simp only [Nat.cast_ofNat, hmagnitude, if_pos hlt]
  rfl

/-- What is printed for infinity and for no number fails, with characters left. -/
theorem double_not_finite {x : Fixed} (hx : x.isfinite = false) (rest : Text) :
    (double (x.print ++ rest)).ok = false ∧ (double (x.print ++ rest)).rest ≠ [] := by
  rcases x with ⟨neg, n, h⟩ | neg | neg
  · cases hx
  · cases neg <;> exact ⟨rfl, List.cons_ne_nil _ _⟩
  · cases neg <;> exact ⟨rfl, List.cons_ne_nil _ _⟩

/-! ### Tokens -/

/-- A text that does not begin with white space. -/
def Token (t : Text) : Prop := ∃ c u, t = c :: u ∧ isspace c = false

theorem token_decimal (n : ℕ) (t : Text) : Token (decimal n ++ t) := by
  obtain ⟨c, u, hc⟩ := List.exists_cons_of_ne_nil (decimal_ne_nil n)
  have hdigit : isdigit c = true := isdigit_of_mem_decimal (by rw [hc]; simp)
  exact ⟨c, u ++ t, by rw [hc, List.cons_append], (not_isspace_of_isdigit hdigit).1⟩

theorem token_format (z : ℤ) (t : Text) : Token (format 0 z ++ t) := by
  unfold format
  split_ifs with hz
  · exact ⟨45, _, rfl, rfl⟩
  · simpa [pad] using token_decimal z.natAbs t

theorem token_print (x : Fixed) (t : Text) : Token (x.print ++ t) := by
  rcases x with ⟨neg, n, h⟩ | neg | neg
  · cases neg with
    | true => exact ⟨45, _, rfl, rfl⟩
    | false =>
      rw [Fixed.print, Fixed.minus, if_neg Bool.false_ne_true, List.nil_append, List.append_assoc]
      exact token_decimal _ _
  · cases neg <;> exact ⟨_, _, rfl, rfl⟩
  · cases neg <;> exact ⟨_, _, rfl, rfl⟩

/-- White space in front of a token is skipped. -/
theorem Token.dropWhile {t : Text} (h : Token t) {blank : Text}
    (hblank : ∀ c ∈ blank, isspace c = true) : (blank ++ t).dropWhile isspace = t := by
  obtain ⟨c, u, rfl, hc⟩ := h
  rw [List.dropWhile_append_of_pos hblank, List.dropWhile_cons_of_neg (by simp [hc])]

theorem Token.ne_nil {t : Text} (h : Token t) : t ≠ [] := by
  obtain ⟨c, u, rfl, -⟩ := h
  exact List.cons_ne_nil c u

end Scan

end SchoolProjects
