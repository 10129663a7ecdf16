import SchoolProjects.Lib.Text

/-! Hexadecimal numbers: bytes and offsets as `printf` writes them, and the digits that
`strtol` reads. -/

namespace SchoolProjects.Hex

open Text

/-! ### Printing -/

def digit (n : ℕ) : UInt8 := UInt8.ofNat (if n < 10 then 48 + n else 87 + n)

/-- `%02x` of a byte. -/
def hex (b : UInt8) : Text := [digit (b.toNat / 16), digit (b.toNat % 16)]

/-- `%x`. -/
def hexadecimal (n : ℕ) : Text :=
  if n = 0 then [48] else (Nat.digits 16 n).reverse.map digit

/-! ### Reading -/

/-- The value of a digit, in small or large letters. -/
def digitValue (c : UInt8) : Option ℕ :=
  if 48 ≤ c ∧ c ≤ 57 then some (c.toNat - 48)
  else if 97 ≤ c ∧ c ≤ 102 then some (c.toNat - 87)
  else if 65 ≤ c ∧ c ≤ 70 then some (c.toNat - 55)
  else none

theorem digitValue_digit : ∀ n < 16, digitValue (digit n) = some n := by decide

/-- The printed digits are small letters. -/
theorem digit_small : ∀ n < 16,
    48 ≤ digit n ∧ digit n ≤ 57 ∨ 97 ≤ digit n ∧ digit n ≤ 102 := by decide

end SchoolProjects.Hex
