import Mathlib.Tactic

/-! The key expansion of AES. Bytes are the elements of the field of 256 elements, modulo
`x ^ 8 + x ^ 4 + x ^ 3 + x + 1`, and a word is four bytes, the first of them in the lowest
place. -/

namespace SchoolProjects.Aes

/-! ### Bytes -/

/-- The product with `x`, for a number below 256. -/
def xtime (b : ℕ) : ℕ := 2 * b ^^^ b / 128 * 0x11b

/-- The product with the lowest bits of `b`, from the highest of them on. -/
def mulBits (a b : ℕ) : ℕ → ℕ → ℕ
  | 0, acc => acc
  | i + 1, acc => mulBits a b i (xtime acc ^^^ b / 2 ^ i % 2 * a)

def mul (a b : ℕ) : ℕ := mulBits a b 8 0

/-- `a ^ 254`, the inverse where there is one. -/
def inv (a : ℕ) : ℕ :=
  let a2 := mul a a
  let a4 := mul a2 a2
  let a8 := mul a4 a4
  let a16 := mul a8 a8
  let a32 := mul a16 a16
  let a64 := mul a32 a32
  let a128 := mul a64 a64
  mul a2 (mul a4 (mul a8 (mul a16 (mul a32 (mul a64 a128)))))

def rotl (b k : ℕ) : ℕ := b * 2 ^ k % 256 + b / 2 ^ (8 - k)

/-- The substitution of a byte: an affine map after the inverse. -/
def subByte (b : UInt8) : UInt8 :=
  let c := inv b.toNat
  UInt8.ofNat (c ^^^ rotl c 1 ^^^ rotl c 2 ^^^ rotl c 3 ^^^ rotl c 4 ^^^ 0x63)

example : mul 0x53 (inv 0x53) = 1 ∧ subByte 0x53 = 0xed := by decide +kernel

/-! ### Words -/

/-- The byte in place `n`. -/
def byte (w : UInt32) (n : ℕ) : UInt8 := ⟨(w.toBitVec >>> (8 * n)).setWidth 8⟩

/-- The word of four bytes. -/
def ofBytes (b : ℕ → UInt8) : UInt32 :=
  ⟨(b 3).toBitVec ++ ((b 2).toBitVec ++ ((b 1).toBitVec ++ (b 0).toBitVec))⟩

def subWord (w : UInt32) : UInt32 := ofBytes fun n => subByte (byte w n)

def rotWord (w : UInt32) : UInt32 := ofBytes fun n => byte w ((n + 1) % 4)

/-- The constant of a round, a power of `x` in the first byte. -/
def rcon (i : ℕ) : UInt32 := (UInt8.ofNat (xtime^[i - 1] 1)).toUInt32

/-- The word in place `i` that the words before it ask for, for a key of `nk` words. -/
def next (nk : ℕ) (w : ℕ → UInt32) (i : ℕ) : UInt32 :=
  w (i - nk) ^^^
    if i % nk = 0 then subWord (rotWord (w (i - 1))) ^^^ rcon (i / nk)
    else if 6 < nk ∧ i % nk = 4 then subWord (w (i - 1))
    else w (i - 1)

/-- The words up to `n` are the expansion of the first `nk`. -/
def Expansion (nk n : ℕ) (w : ℕ → UInt32) : Prop := ∀ i, nk ≤ i → i < n → w i = next nk w i

/-! ### The bytes of words -/

theorem byte_ofBytes (b : ℕ → UInt8) {n : ℕ} (hn : n < 4) : byte (ofBytes b) n = b n := by
  apply UInt8.toBitVec_inj.mp
  apply BitVec.eq_of_getLsbD_eq
  intro i hi
  simp only [byte, ofBytes, BitVec.getLsbD_setWidth, BitVec.getLsbD_ushiftRight,
    BitVec.getLsbD_append, hi, decide_true, Bool.true_and]
  obtain rfl | rfl | rfl | rfl : n = 0 ∨ n = 1 ∨ n = 2 ∨ n = 3 := by omega
  · rw [if_pos (by omega), if_pos (by omega), if_pos (by omega), Nat.mul_zero, Nat.zero_add]
  · rw [if_pos (by omega), if_pos (by omega), if_neg (by omega)]
    exact congrArg _ (by omega)
  · rw [if_pos (by omega), if_neg (by omega)]
    exact congrArg _ (by omega)
  · rw [if_neg (by omega)]
    exact congrArg _ (by omega)

/-- Words with the same bytes. -/
theorem word_ext {v w : UInt32} (h : ∀ n < 4, byte v n = byte w n) : v = w := by
  apply UInt32.toBitVec_inj.mp
  apply BitVec.eq_of_getLsbD_eq
  intro i hi
  have hbyte := congrArg (fun b : UInt8 => b.toBitVec.getLsbD (i % 8)) (h (i / 8) (by omega))
  simp only [byte, BitVec.getLsbD_setWidth, BitVec.getLsbD_ushiftRight, Nat.div_add_mod,
    Nat.mod_lt i (show 0 < 8 by decide), decide_true, Bool.true_and] at hbyte
  exact hbyte

/-- A byte as a word. -/
theorem byte_toUInt32 (b : UInt8) {n : ℕ} (hn : n < 4) :
    byte b.toUInt32 n = if n = 0 then b else 0 := by
  apply UInt8.toBitVec_inj.mp
  apply BitVec.eq_of_getLsbD_eq
  intro i hi
  simp only [byte, UInt8.toBitVec_toUInt32, BitVec.getLsbD_setWidth, BitVec.getLsbD_ushiftRight,
    hi, show 8 * n + i < 32 by omega, decide_true, Bool.true_and]
  split_ifs with h
  · rw [h, Nat.mul_zero, Nat.zero_add]
  · rw [BitVec.getLsbD_of_ge _ _ (by omega)]
    exact (BitVec.getLsbD_zero).symm

theorem byte_xor (v w : UInt32) (n : ℕ) : byte (v ^^^ w) n = byte v n ^^^ byte w n := by
  apply UInt8.toBitVec_inj.mp
  simp [byte, BitVec.ushiftRight_xor_distrib]

end SchoolProjects.Aes
