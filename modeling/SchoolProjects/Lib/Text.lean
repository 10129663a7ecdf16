import Mathlib.Tactic
import Mathlib.Data.List.TakeWhile
import Mathlib.Data.Nat.Digits.Defs

/-! Byte strings and numbers in them, as the C and C++ libraries read and print
them in the "C" locale: character classes, `strtol` with the two exceptions of
`std::stoi`, extraction of words from a stream, `%d` and `%0kd`. A printed number
is read back, whatever follows it, as long as that is no digit. -/

namespace SchoolProjects

abbrev Text := List UInt8

namespace Text

/-- The bytes of a string of ASCII characters. -/
def ascii (s : String) : Text := s.toList.map fun c => UInt8.ofNat c.toNat

/-! ### Character classes -/

def isspace (c : UInt8) : Bool := c == 32 || (9 ≤ c && c ≤ 13)

def isdigit (c : UInt8) : Bool := 48 ≤ c && c ≤ 57

def isalpha (c : UInt8) : Bool := (65 ≤ c && c ≤ 90) || (97 ≤ c && c ≤ 122)

/-- The printing characters that are neither letters, digits nor the blank. -/
def ispunct (c : UInt8) : Bool := 33 ≤ c && c ≤ 126 && !isalpha c && !isdigit c

/-! ### Reading numbers -/

/-- The number a run of digits stands for. -/
def value (ds : Text) : ℕ := ds.foldl (fun v c => 10 * v + (c.toNat - 48)) 0

/-- An optional sign; `true` is a minus. -/
def sign : Text → Bool × Text
  | 45 :: t => (true, t)
  | 43 :: t => (false, t)
  | t => (false, t)

/-- `strtol` in base 10 before the check of the range: white space, a sign and
digits, with what follows them. -/
def number (t : Text) : Option (ℤ × Text) :=
  let (neg, t) := sign (t.dropWhile isspace)
  if t.takeWhile isdigit = [] then none
  else
    let v : ℤ := value (t.takeWhile isdigit)
    some (if neg then -v else v, t.dropWhile isdigit)

/-- What `std::stoi` and `std::stoll` throw. -/
inductive Thrown where
  | invalid_argument
  | out_of_range
  deriving DecidableEq

/-- The conversion to a signed type of `bits + 1` bits. -/
def sto (bits : ℕ) (t : Text) : Except Thrown ℤ :=
  match number t with
  | none => .error .invalid_argument
  | some (z, _) => if -2 ^ bits ≤ z ∧ z < 2 ^ bits then .ok z else .error .out_of_range

def stoi : Text → Except Thrown ℤ := sto 31

def stoll : Text → Except Thrown ℤ := sto 63

/-! ### Reading words -/

/-- The next word of a text and what follows it. -/
def word (t : Text) : Option (Text × Text) :=
  if t.all isspace then none
  else
    let t := t.dropWhile isspace
    some (t.takeWhile fun c => !isspace c, t.dropWhile fun c => !isspace c)

/-- `ss >> word` on a stream, `none` once it has failed, into a target that holds
`old`. -/
def extract (ss : Option Text) (old : Text) : Text × Option Text :=
  match ss.bind word with
  | none => (old, none)
  | some (w, rest) => (w, some rest)

/-! ### Printing numbers -/

def decimal (n : ℕ) : Text :=
  if n = 0 then [48] else (Nat.digits 10 n).reverse.map fun d => UInt8.ofNat (48 + d)

/-- Zeros in front up to a width. -/
def pad (width : ℕ) (t : Text) : Text := List.replicate (width - t.length) 48 ++ t

/-- `%0kd`; with `k = 0` it is `%d`. -/
def format (width : ℕ) (z : ℤ) : Text :=
  if z < 0 then 45 :: pad (width - 1) (decimal z.natAbs) else pad width (decimal z.natAbs)

/-! ### Reading lines -/

/-- At most `n` bytes, and none after a newline. -/
def takeLine : ℕ → Text → Text × Text
  | 0, t => ([], t)
  | _ + 1, [] => ([], [])
  | n + 1, c :: t => if c = 10 then ([10], t) else ((takeLine n t).1.cons c, (takeLine n t).2)

/-- `fgets(line, size, input)`: the buffer and what is left. At the end of the file the
buffer stays as it was. -/
def fgets (size : ℕ) (line input : Text) : Text × Text :=
  if input = [] then (line, []) else takeLine (size - 1) input

/-- `%d` of `sscanf`; `none` leaves the `int` as it was, or is a number it cannot
hold. -/
def scanInt (t : Text) : Option (ℤ × Text) :=
  (number t).filter fun r => -2 ^ 31 ≤ r.1 ∧ r.1 < 2 ^ 31

/-! ### Extraction -/

theorem word_eq_none {t : Text} : word t = none ↔ t.all isspace = true := by
  unfold word
  split_ifs with h <;> simp [h]

/-- From a blank text nothing is extracted, so the target is what it was. -/
theorem extract_blank {t : Text} (h : t.all isspace = true) (old : Text) :
    extract (some t) old = (old, none) := by
  simp [extract, word_eq_none.mpr h]

@[simp] theorem extract_failed (old : Text) : extract none old = (old, none) := rfl

/-- A text with a word in it overwrites the target. -/
theorem extract_word {t : Text} (h : ¬ t.all isspace = true) (old old' : Text) :
    extract (some t) old = extract (some t) old' := by
  obtain ⟨w, hw⟩ := Option.ne_none_iff_exists'.mp (mt word_eq_none.mp h)
  simp [extract, hw]

/-! ### Printed numbers are read back -/

theorem value_append_singleton (ds : Text) (c : UInt8) :
    value (ds ++ [c]) = 10 * value ds + (c.toNat - 48) := by
  simp [value]

/-- The byte of a decimal digit. -/
theorem isdigit_ofNat {d : ℕ} (hd : d < 10) :
    isdigit (UInt8.ofNat (48 + d)) = true ∧ (UInt8.ofNat (48 + d)).toNat - 48 = d := by
  interval_cases d <;> decide

theorem value_digits (ds : List ℕ) (hd : ∀ d ∈ ds, d < 10) :
    value (ds.reverse.map fun d => UInt8.ofNat (48 + d)) = Nat.ofDigits 10 ds := by
  induction ds with
  | nil => rfl
  | cons d ds ih =>
    have hrest := ih fun e he => hd e (by simp [he])
    have hdigit := (isdigit_ofNat (hd d (by simp))).2
    rw [List.reverse_cons, List.map_append, List.map_singleton, value_append_singleton, hrest,
      hdigit, Nat.ofDigits_cons]
    ring

theorem value_decimal (n : ℕ) : value (decimal n) = n := by
  unfold decimal
  split_ifs with hn
  · subst hn; rfl
  · rw [value_digits _ fun d hd => Nat.digits_lt_base (by norm_num) hd, Nat.ofDigits_digits]

theorem isdigit_of_mem_decimal {n : ℕ} {c : UInt8} (hc : c ∈ decimal n) : isdigit c = true := by
  unfold decimal at hc
  split_ifs at hc
  · obtain rfl := List.mem_singleton.mp hc
    rfl
  · obtain ⟨d, hd, rfl⟩ := List.mem_map.mp hc
    exact (isdigit_ofNat (Nat.digits_lt_base (by norm_num) (List.mem_reverse.mp hd))).1

theorem decimal_ne_nil (n : ℕ) : decimal n ≠ [] := by
  unfold decimal
  split_ifs with hn
  · simp
  · simpa using Nat.digits_ne_nil_iff_ne_zero.mpr hn

theorem value_pad (width : ℕ) (t : Text) : value (pad width t) = value t := by
  unfold pad
  induction width - t.length with
  | zero => rfl
  | succ k ih =>
    rw [List.replicate_succ]
    exact ih

theorem isdigit_of_mem_pad {width n : ℕ} {c : UInt8} (hc : c ∈ pad width (decimal n)) :
    isdigit c = true := by
  rcases List.mem_append.mp hc with hc | hc
  · rw [List.eq_of_mem_replicate hc]
    rfl
  · exact isdigit_of_mem_decimal hc

/-- No digit at the front. -/
def Stops (t : Text) : Prop := ∀ c ∈ t.head?, isdigit c = false

theorem takeWhile_digits {ds rest : Text} (hd : ∀ c ∈ ds, isdigit c = true) (hr : Stops rest) :
    (ds ++ rest).takeWhile isdigit = ds ∧ (ds ++ rest).dropWhile isdigit = rest := by
  rw [List.takeWhile_append_of_pos hd, List.dropWhile_append_of_pos hd]
  cases rest with
  | nil => simp
  | cons c rest =>
    have hc : isdigit c = false := hr c rfl
    simp [hc]

theorem not_isspace_of_isdigit {c : UInt8} (hc : isdigit c = true) :
    isspace c = false ∧ c ≠ 45 ∧ c ≠ 43 := by
  simp only [isdigit, isspace, Bool.and_eq_true, decide_eq_true_eq, UInt8.le_iff_toNat_le,
    Bool.or_eq_false_iff, beq_eq_false_iff_ne, ne_eq, Bool.and_eq_false_iff, decide_eq_false_iff_not,
    ← UInt8.toNat_inj] at hc ⊢
  simp at hc ⊢
  omega

/-- `sign` takes nothing from the front of a digit. -/
theorem sign_of_digit {c : UInt8} {t : Text} (hc : isdigit c = true) :
    sign (c :: t) = (false, c :: t) := by
  obtain ⟨-, h1, h2⟩ := not_isspace_of_isdigit hc
  unfold sign
  split <;> simp_all

/-- A run of digits with an optional minus in front is read to its end. -/
theorem number_run {ds rest : Text} (hd : ∀ c ∈ ds, isdigit c = true) (hne : ds ≠ [])
    (hr : Stops rest) :
    number (ds ++ rest) = some ((value ds : ℤ), rest) ∧
      number (45 :: ds ++ rest) = some (-(value ds : ℤ), rest) := by
  obtain ⟨htake, hdrop⟩ := takeWhile_digits hd hr
  constructor
  · obtain ⟨c, ds', rfl⟩ := List.exists_cons_of_ne_nil hne
    have hc : isdigit c = true := hd c (by simp)
    have hsign : sign (((c :: ds') ++ rest).dropWhile isspace) = (false, (c :: ds') ++ rest) := by
      rw [List.cons_append, List.dropWhile_cons_of_neg (by simp [not_isspace_of_isdigit hc])]
      exact sign_of_digit hc
    unfold number
    rw [hsign]
    simp only [htake, hdrop, if_neg hne]
    rfl
  · have hsign : sign ((45 :: ds ++ rest).dropWhile isspace) = (true, ds ++ rest) := rfl
    unfold number
    rw [hsign]
    simp only [htake, hdrop, if_neg hne]
    rfl

/-- Reading a printed number. -/
theorem number_format (width : ℕ) (z : ℤ) {rest : Text} (hr : Stops rest) :
    number (format width z ++ rest) = some (z, rest) := by
  have hne : ∀ k n, pad k (decimal n) ≠ [] := fun k n => by simp [pad, decimal_ne_nil]
  unfold format
  split_ifs with hz
  · rw [(number_run (fun _ hc => isdigit_of_mem_pad hc) (hne _ _) hr).2, value_pad, value_decimal]
    congr 2
    omega
  · rw [(number_run (fun _ hc => isdigit_of_mem_pad hc) (hne _ _) hr).1, value_pad, value_decimal]
    congr 2
    omega

/-- White space in front of a number. -/
theorem number_blank {c : UInt8} (hc : isspace c = true) (t : Text) :
    number (c :: t) = number t := by
  unfold number
  rw [List.dropWhile_cons_of_pos hc]

theorem isdigit_of_mem_format {width n : ℕ} {c : UInt8} (hc : c ∈ format width n) :
    isdigit c = true := by
  have hn : ¬ (n : ℤ) < 0 := by omega
  rw [format, if_neg hn] at hc
  exact isdigit_of_mem_pad hc

theorem format_ne_nil (width n : ℕ) : format width n ≠ [] := by
  have hn : ¬ (n : ℤ) < 0 := by omega
  rw [format, if_neg hn]
  simp [pad, decimal_ne_nil]

theorem length_decimal {n k : ℕ} (hk : 0 < k) (hn : n < 10 ^ k) : (decimal n).length ≤ k := by
  unfold decimal
  split_ifs
  · exact hk
  · simpa using (Nat.digits_length_le_iff (by norm_num) n).mpr hn

/-- A number below `10 ^ k` takes `k` digits, or the width if that is more. -/
theorem length_format {width n k : ℕ} (hk : 0 < k) (hn : n < 10 ^ k) :
    (format width n).length ≤ max width k := by
  have hlen := length_decimal hk hn
  have hneg : ¬ (n : ℤ) < 0 := by omega
  rw [format, if_neg hneg, pad, List.length_append, List.length_replicate, Int.natAbs_natCast]
  omega

/-- A minus in front of the digits of a number that is not natural. -/
theorem format_neg (width : ℕ) {z : ℤ} (hz : z < 0) :
    format width z = 45 :: format (width - 1) (z.natAbs : ℤ) := by
  have hneg : ¬ (z.natAbs : ℤ) < 0 := by omega
  rw [format, if_pos hz, format, if_neg hneg, Int.natAbs_natCast]

/-- What `sscanf` reads is of type `int`. -/
theorem scanInt_range {t rest : Text} {z : ℤ} (h : scanInt t = some (z, rest)) :
    -2 ^ 31 ≤ z ∧ z < 2 ^ 31 := by
  simpa using (Option.mem_filter_iff.mp h).2

/-- `sscanf` reads a printed `int`. -/
theorem scanInt_format_int (width : ℕ) {z : ℤ} (h0 : -2 ^ 31 ≤ z) (h1 : z < 2 ^ 31) {rest : Text}
    (hr : Stops rest) : scanInt (format width z ++ rest) = some (z, rest) := by
  rw [scanInt, number_format width z hr]
  exact Option.filter_some_pos (by simpa using ⟨h0, h1⟩)

/-- `sscanf` reads a printed number that an `int` can hold. -/
theorem scanInt_format (width : ℕ) {n : ℕ} (hn : n < 2 ^ 31) {rest : Text} (hr : Stops rest) :
    scanInt (format width n ++ rest) = some ((n : ℤ), rest) :=
  scanInt_format_int width (by omega) (by exact_mod_cast hn) hr

/-- A line that fits the buffer is read up to its newline. -/
theorem fgets_line {size : ℕ} {body : Text} (hbody : ∀ c ∈ body, c ≠ 10)
    (hlen : body.length + 1 < size) (line rest : Text) :
    fgets size line (body ++ 10 :: rest) = (body ++ [10], rest) := by
  have htake : ∀ n, body.length < n → takeLine n (body ++ 10 :: rest) = (body ++ [10], rest) := by
    clear hlen
    induction body with
    | nil =>
      intro n hn
      obtain ⟨n, rfl⟩ := Nat.exists_eq_succ_of_ne_zero (by omega : n ≠ 0)
      rfl
    | cons c body ih =>
      intro n hn
      obtain ⟨n, rfl⟩ := Nat.exists_eq_succ_of_ne_zero (by omega : n ≠ 0)
      have ih := ih (fun d hd => hbody d (by simp [hd])) n (by simpa using hn)
      simp [takeLine, hbody c (by simp), ih]
  rw [fgets, if_neg (by simp), htake _ (by omega)]

/-! ### Numbers without a sign -/

/-- After white space there is a run of digits of value `v`, and then no digit. -/
def LeadsWith (t : Text) (v : ℕ) : Prop :=
  ∃ ws ds rest, t = ws ++ (ds ++ rest) ∧ (∀ c ∈ ws, isspace c = true) ∧ ds ≠ [] ∧
    (∀ c ∈ ds, isdigit c = true) ∧ Stops rest ∧ value ds = v

theorem stops_dropWhile (t : Text) : Stops (t.dropWhile isdigit) := by
  induction t with
  | nil => simp [Stops]
  | cons c t ih =>
    by_cases hc : isdigit c = true
    · rwa [List.dropWhile_cons_of_pos hc]
    · rw [List.dropWhile_cons_of_neg hc]
      simpa [Stops] using hc

theorem sign_of_unsigned {t : Text} (ht : ∀ c ∈ t, c ≠ 45 ∧ c ≠ 43) : sign t = (false, t) := by
  cases t with
  | nil => rfl
  | cons c t =>
    obtain ⟨h1, h2⟩ := ht c (by simp)
    unfold sign
    split <;> simp_all

/-- Without signs in the text `strtol` reads the leading run of digits. -/
theorem number_unsigned {t : Text} (ht : ∀ c ∈ t, c ≠ 45 ∧ c ≠ 43) (z : ℤ) :
    (∃ rest, number t = some (z, rest)) ↔ ∃ v : ℕ, z = v ∧ LeadsWith t v := by
  have hsign : sign (t.dropWhile isspace) = (false, t.dropWhile isspace) :=
    sign_of_unsigned fun c hc => ht c ((List.dropWhile_suffix _).subset hc)
  unfold number
  rw [hsign]
  constructor
  · rintro ⟨rest, h⟩
    simp only [Bool.false_eq_true, if_false] at h
    split_ifs at h with hds
    obtain ⟨rfl, -⟩ := Prod.mk.inj (Option.some.inj h)
    refine ⟨_, rfl, t.takeWhile isspace, (t.dropWhile isspace).takeWhile isdigit,
      (t.dropWhile isspace).dropWhile isdigit, ?_, ?_, hds, ?_, stops_dropWhile _, rfl⟩
    · rw [List.takeWhile_append_dropWhile, List.takeWhile_append_dropWhile]
    · exact fun c hc => List.mem_takeWhile_imp hc
    · exact fun c hc => List.mem_takeWhile_imp hc
  · rintro ⟨v, rfl, ws, ds, rest, rfl, hws, hne, hds, hr, rfl⟩
    obtain ⟨c, ds', rfl⟩ := List.exists_cons_of_ne_nil hne
    have hc := (not_isspace_of_isdigit (hds c (by simp))).1
    have hdrop : (ws ++ ((c :: ds') ++ rest)).dropWhile isspace = (c :: ds') ++ rest := by
      rw [List.dropWhile_append_of_pos hws, List.cons_append,
        List.dropWhile_cons_of_neg (by simp [hc])]
    obtain ⟨htake, hdrop'⟩ := takeWhile_digits hds hr
    rw [hdrop]
    simp only [htake, hdrop', if_neg hne]
    exact ⟨rest, rfl⟩

/-- The conversion of a text without signs. -/
theorem sto_unsigned {t : Text} (ht : ∀ c ∈ t, c ≠ 45 ∧ c ≠ 43) (bits : ℕ) (z : ℤ) :
    sto bits t = .ok z ↔ ∃ v : ℕ, z = v ∧ LeadsWith t v ∧ v < 2 ^ bits := by
  have hn := number_unsigned ht
  unfold sto
  constructor
  · intro h
    split at h
    · cases h
    · next z' rest hnum =>
      split_ifs at h with hrange
      obtain rfl := Except.ok.inj h
      obtain ⟨v, rfl, hv⟩ := (hn z').mp ⟨rest, hnum⟩
      exact ⟨v, rfl, hv, by exact_mod_cast hrange.2⟩
  · rintro ⟨v, rfl, hv, hlt⟩
    obtain ⟨rest, hnum⟩ := (hn v).mpr ⟨v, rfl, hv⟩
    have hrange : -2 ^ bits ≤ (v : ℤ) ∧ (v : ℤ) < 2 ^ bits := by
      have h0 : (0 : ℤ) ≤ 2 ^ bits := by positivity
      exact ⟨by omega, by exact_mod_cast hlt⟩
    rw [hnum]
    simp [hrange]

end Text

end SchoolProjects
