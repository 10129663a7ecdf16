import SchoolProjects.Lib.CString
import SchoolProjects.Lib.MachineInt
import SchoolProjects.Lib.Numeral

/-! The binary numeral of a file mode (`main2.c` of the third homework), which is put together
from the octal numeral that `sprintf` prints. A result `none` is a read outside the table or
a write past the end of a buffer. -/

namespace SchoolProjects.FileModes

open Text CString

/-- The character of a digit. -/
def digit (d : ℕ) : UInt8 := UInt8.ofNat (48 + d)

/-- The numeral of `n` in base `b` as a text; `%o` with `b = 8`. -/
def numeral (b n : ℕ) : Text := (Numeral.digits b n).map digit

def conversion : List Text :=
  ["000", "001", "010", "011", "100", "101", "110", "111"].map ascii

/-- `strcat(binary, conversion[temp])`. -/
def strcatDigit (binary : Text) (c : UInt8) : Option Text := do
  let tempHold ← conversion[c.toNat - 48]?
  fits 100 (binary ++ tempHold)

/-- The output of `convertToBinary`. -/
def convertToBinary (val : ℤ) : Option Text := do
  let value ← fits 20 (numeral 8 (uint32 val))
  let first ← value[0]?
  let temp := first.toNat - 48
  let tempHold ← conversion[temp]?
  let (binary, i) :=
    if temp ≤ 3 then (if temp ≤ 1 then tempHold.drop 2 else tempHold.drop 1, 1) else ([], 0)
  let binary ← (value.drop i).foldlM strcatDigit binary
  return binary ++ ascii "\n"

/-- The bits of an octal digit. -/
def bits (d : ℕ) : List ℕ := [d / 4, d / 2 % 2, d % 2]

theorem value_bits : ∀ d < 8, ∀ v, Numeral.value 2 v (bits d) = 8 * v + d := by
  intro d hd v
  simp only [bits, Numeral.value_cons, Numeral.value_nil]
  omega

theorem bits_lt {d e : ℕ} (hd : d < 8) (he : e ∈ bits d) : e < 2 := by
  simp only [bits, List.mem_cons, List.not_mem_nil, or_false] at he
  omega

theorem toNat_digit {d : ℕ} (hd : d < 8) : (digit d).toNat - 48 = d := by
  interval_cases d <;> rfl

/-- The table has the bits of the digits. -/
theorem conversion_get {d : ℕ} (hd : d < 8) : conversion[d]? = some ((bits d).map digit) := by
  interval_cases d <;> rfl

theorem strcatDigit_digit {d : ℕ} (hd : d < 8) {binary : Text} (hlen : binary.length + 3 < 100) :
    strcatDigit binary (digit d) = some (binary ++ (bits d).map digit) := by
  rw [strcatDigit, toNat_digit hd, conversion_get hd, Option.bind_eq_bind, Option.bind_some, fits,
    if_pos (by simpa [bits] using hlen)]

/-- The loop over the digits. -/
theorem foldlM_strcatDigit {ds : List ℕ} (hds : ∀ d ∈ ds, d < 8) (binary : Text)
    (hlen : binary.length + 3 * ds.length < 100) :
    (ds.map digit).foldlM strcatDigit binary = some (binary ++ (ds.flatMap bits).map digit) := by
  induction ds generalizing binary with
  | nil => simp
  | cons d ds ih =>
    have hd : d < 8 := hds d (by simp)
    simp only [List.length_cons] at hlen
    rw [List.map_cons, List.foldlM_cons, strcatDigit_digit hd (by omega), Option.bind_eq_bind,
      Option.bind_some, ih (fun e he => hds e (by simp [he])) _ (by simp [bits]; omega)]
    simp

/-- The bits of the first digit without leading zeros. -/
def leadingBits (d : ℕ) : List ℕ := if d ≤ 1 then [d] else if d ≤ 3 then [1, d % 2] else bits d

theorem value_leadingBits {d : ℕ} (hd : d < 8) : Numeral.value 2 0 (leadingBits d) = d := by
  interval_cases d <;> rfl

theorem leadingBits_of_pos {d : ℕ} (h0 : 0 < d) (hd : d < 8) :
    ∃ es, leadingBits d = 1 :: es ∧ ∀ e ∈ es, e < 2 := by
  interval_cases d <;> exact ⟨_, rfl, by decide⟩

theorem isNumeral_bits {d : ℕ} {ds : List ℕ} (hd : d < 8) (hds : ∀ e ∈ ds, e < 8)
    (hzero : d = 0 → ds = []) : Numeral.IsNumeral 2 (leadingBits d ++ ds.flatMap bits) := by
  rcases Nat.eq_zero_or_pos d with h0 | hpos
  · rw [hzero h0, h0]
    exact .mk (by norm_num) (by simp) fun _ => rfl
  · obtain ⟨es, hes, hlt⟩ := leadingBits_of_pos hpos hd
    rw [hes]
    refine .mk (by norm_num) (fun e he => ?_) fun h => absurd h one_ne_zero
    rcases List.mem_append.1 he with he | he
    · exact hlt e he
    · obtain ⟨f, hf, hef⟩ := List.mem_flatMap.1 he
      exact bits_lt (hds f hf) hef

/-- The bits of an octal numeral are the binary numeral of the same number. -/
theorem leadingBits_append {d : ℕ} {ds : List ℕ} (hd : d < 8) (hds : ∀ e ∈ ds, e < 8)
    (hzero : d = 0 → ds = []) : leadingBits d ++ ds.flatMap bits =
      Numeral.digits 2 (Numeral.value 8 0 (d :: ds)) := by
  have hvalue : Numeral.value 2 0 (leadingBits d ++ ds.flatMap bits) =
      Numeral.value 8 0 (d :: ds) := by
    rw [Numeral.value_append, value_leadingBits hd, Numeral.value_flatMap value_bits hds]
    simp
  rw [(isNumeral_bits hd hds hzero).eq_digits (by norm_num), hvalue]

theorem length_digits_uint32 (val : ℤ) : (Numeral.digits 8 (uint32 val)).length ≤ 11 := by
  have hlt : uint32 val < 2 ^ 32 := by
    unfold uint32
    omega
  unfold Numeral.digits
  split_ifs
  · norm_num
  · rw [List.length_reverse, Nat.digits_length_le_iff (by norm_num)]
    exact hlt.trans (by norm_num)

/-- What the first branches copy is the first digit without leading zeros. -/
theorem drop_bits {d : ℕ} (h : d ≤ 3) :
    (if d ≤ 1 then ((bits d).map digit).drop 2 else ((bits d).map digit).drop 1) =
      (leadingBits d).map digit := by
  interval_cases d <;> rfl

theorem convertToBinary_of_digits {val : ℤ} {d : ℕ} {ds : List ℕ}
    (h : Numeral.digits 8 (uint32 val) = d :: ds) (hd : d < 8) (hds : ∀ e ∈ ds, e < 8) :
    convertToBinary val = some ((leadingBits d ++ ds.flatMap bits).map digit ++ ascii "\n") := by
  have hlen := length_digits_uint32 val
  rw [h, List.length_cons] at hlen
  have hfits : fits 20 (numeral 8 (uint32 val)) = some (digit d :: ds.map digit) := by
    rw [numeral, h, fits, if_pos (by simp; omega), List.map_cons]
  simp only [convertToBinary, hfits, Option.bind_eq_bind, Option.bind_some,
    List.getElem?_cons_zero, toNat_digit hd, conversion_get hd]
  by_cases h3 : d ≤ 3
  · have hlead : ((leadingBits d).map digit).length ≤ 2 := by
      rw [List.length_map]
      interval_cases d <;> decide
    rw [if_pos h3, drop_bits h3]
    simp only [List.drop_one, List.tail_cons]
    rw [foldlM_strcatDigit hds _ (by omega)]
    simp
  · have hall : ∀ e ∈ d :: ds, e < 8 := by simpa using ⟨hd, hds⟩
    have hlead : leadingBits d = bits d := by
      rw [leadingBits, if_neg (by omega), if_neg h3]
    rw [if_neg h3]
    simp only [List.drop_zero]
    rw [← List.map_cons, foldlM_strcatDigit hall [] (by simp; omega), hlead]
    simp

/-- The output is the binary numeral of the value as an `unsigned int`. -/
theorem convertToBinary_eq (val : ℤ) :
    convertToBinary val = some (numeral 2 (uint32 val) ++ ascii "\n") := by
  have hnum := Numeral.isNumeral_digits (by norm_num : 1 < 8) (uint32 val)
  obtain ⟨d, ds, h, hd, hds, hzero⟩ := hnum.exists_cons
  rw [convertToBinary_of_digits h hd hds, leadingBits_append hd hds hzero, ← h,
    Numeral.value_digits, numeral]

end SchoolProjects.FileModes
