import SchoolProjects.Lib.Aes
import SchoolProjects.Lib.Fields

/-! The words of the key finder (`util.h`, `aes.h` and the tables of `aes.c`): bytes of a
word, the number of its bits, and the two operations of the key expansion. `key_core` puts a
byte in place -1, that is, it shifts by -8, which C does not define; `shl` is what the
machine does for a shift of an `int` to the left. Where it takes the count modulo 32 the two
operations are those of AES, and `popcount` counts the bits of every word of 64 bits. -/

namespace SchoolProjects.KeyFinder

open Aes Fields

def sbox : List UInt8 := [
  0x63, 0x7c, 0x77, 0x7b, 0xf2, 0x6b, 0x6f, 0xc5, 0x30, 0x01, 0x67, 0x2b, 0xfe, 0xd7, 0xab, 0x76,
  0xca, 0x82, 0xc9, 0x7d, 0xfa, 0x59, 0x47, 0xf0, 0xad, 0xd4, 0xa2, 0xaf, 0x9c, 0xa4, 0x72, 0xc0,
  0xb7, 0xfd, 0x93, 0x26, 0x36, 0x3f, 0xf7, 0xcc, 0x34, 0xa5, 0xe5, 0xf1, 0x71, 0xd8, 0x31, 0x15,
  0x04, 0xc7, 0x23, 0xc3, 0x18, 0x96, 0x05, 0x9a, 0x07, 0x12, 0x80, 0xe2, 0xeb, 0x27, 0xb2, 0x75,
  0x09, 0x83, 0x2c, 0x1a, 0x1b, 0x6e, 0x5a, 0xa0, 0x52, 0x3b, 0xd6, 0xb3, 0x29, 0xe3, 0x2f, 0x84,
  0x53, 0xd1, 0x00, 0xed, 0x20, 0xfc, 0xb1, 0x5b, 0x6a, 0xcb, 0xbe, 0x39, 0x4a, 0x4c, 0x58, 0xcf,
  0xd0, 0xef, 0xaa, 0xfb, 0x43, 0x4d, 0x33, 0x85, 0x45, 0xf9, 0x02, 0x7f, 0x50, 0x3c, 0x9f, 0xa8,
  0x51, 0xa3, 0x40, 0x8f, 0x92, 0x9d, 0x38, 0xf5, 0xbc, 0xb6, 0xda, 0x21, 0x10, 0xff, 0xf3, 0xd2,
  0xcd, 0x0c, 0x13, 0xec, 0x5f, 0x97, 0x44, 0x17, 0xc4, 0xa7, 0x7e, 0x3d, 0x64, 0x5d, 0x19, 0x73,
  0x60, 0x81, 0x4f, 0xdc, 0x22, 0x2a, 0x90, 0x88, 0x46, 0xee, 0xb8, 0x14, 0xde, 0x5e, 0x0b, 0xdb,
  0xe0, 0x32, 0x3a, 0x0a, 0x49, 0x06, 0x24, 0x5c, 0xc2, 0xd3, 0xac, 0x62, 0x91, 0x95, 0xe4, 0x79,
  0xe7, 0xc8, 0x37, 0x6d, 0x8d, 0xd5, 0x4e, 0xa9, 0x6c, 0x56, 0xf4, 0xea, 0x65, 0x7a, 0xae, 0x08,
  0xba, 0x78, 0x25, 0x2e, 0x1c, 0xa6, 0xb4, 0xc6, 0xe8, 0xdd, 0x74, 0x1f, 0x4b, 0xbd, 0x8b, 0x8a,
  0x70, 0x3e, 0xb5, 0x66, 0x48, 0x03, 0xf6, 0x0e, 0x61, 0x35, 0x57, 0xb9, 0x86, 0xc1, 0x1d, 0x9e,
  0xe1, 0xf8, 0x98, 0x11, 0x69, 0xd9, 0x8e, 0x94, 0x9b, 0x1e, 0x87, 0xe9, 0xce, 0x55, 0x28, 0xdf,
  0x8c, 0xa1, 0x89, 0x0d, 0xbf, 0xe6, 0x42, 0x68, 0x41, 0x99, 0x2d, 0x0f, 0xb0, 0x54, 0xbb, 0x16]

def rcon : List UInt8 := [
  0x8d, 0x01, 0x02, 0x04, 0x08, 0x10, 0x20, 0x40, 0x80, 0x1b, 0x36, 0x6c, 0xd8, 0xab, 0x4d, 0x9a,
  0x2f, 0x5e, 0xbc, 0x63, 0xc6, 0x97, 0x35, 0x6a, 0xd4, 0xb3, 0x7d, 0xfa, 0xef, 0xc5, 0x91, 0x39,
  0x72, 0xe4, 0xd3, 0xbd, 0x61, 0xc2, 0x9f, 0x25, 0x4a, 0x94, 0x33, 0x66, 0xcc, 0x83, 0x1d, 0x3a,
  0x74, 0xe8, 0xcb, 0x8d, 0x01, 0x02, 0x04, 0x08, 0x10, 0x20, 0x40, 0x80, 0x1b, 0x36, 0x6c, 0xd8,
  0xab, 0x4d, 0x9a, 0x2f, 0x5e, 0xbc, 0x63, 0xc6, 0x97, 0x35, 0x6a, 0xd4, 0xb3, 0x7d, 0xfa, 0xef,
  0xc5, 0x91, 0x39, 0x72, 0xe4, 0xd3, 0xbd, 0x61, 0xc2, 0x9f, 0x25, 0x4a, 0x94, 0x33, 0x66, 0xcc,
  0x83, 0x1d, 0x3a, 0x74, 0xe8, 0xcb, 0x8d, 0x01, 0x02, 0x04, 0x08, 0x10, 0x20, 0x40, 0x80, 0x1b,
  0x36, 0x6c, 0xd8, 0xab, 0x4d, 0x9a, 0x2f, 0x5e, 0xbc, 0x63, 0xc6, 0x97, 0x35, 0x6a, 0xd4, 0xb3,
  0x7d, 0xfa, 0xef, 0xc5, 0x91, 0x39, 0x72, 0xe4, 0xd3, 0xbd, 0x61, 0xc2, 0x9f, 0x25, 0x4a, 0x94,
  0x33, 0x66, 0xcc, 0x83, 0x1d, 0x3a, 0x74, 0xe8, 0xcb, 0x8d, 0x01, 0x02, 0x04, 0x08, 0x10, 0x20,
  0x40, 0x80, 0x1b, 0x36, 0x6c, 0xd8, 0xab, 0x4d, 0x9a, 0x2f, 0x5e, 0xbc, 0x63, 0xc6, 0x97, 0x35,
  0x6a, 0xd4, 0xb3, 0x7d, 0xfa, 0xef, 0xc5, 0x91, 0x39, 0x72, 0xe4, 0xd3, 0xbd, 0x61, 0xc2, 0x9f,
  0x25, 0x4a, 0x94, 0x33, 0x66, 0xcc, 0x83, 0x1d, 0x3a, 0x74, 0xe8, 0xcb, 0x8d, 0x01, 0x02, 0x04,
  0x08, 0x10, 0x20, 0x40, 0x80, 0x1b, 0x36, 0x6c, 0xd8, 0xab, 0x4d, 0x9a, 0x2f, 0x5e, 0xbc, 0x63,
  0xc6, 0x97, 0x35, 0x6a, 0xd4, 0xb3, 0x7d, 0xfa, 0xef, 0xc5, 0x91, 0x39, 0x72, 0xe4, 0xd3, 0xbd,
  0x61, 0xc2, 0x9f, 0x25, 0x4a, 0x94, 0x33, 0x66, 0xcc, 0x83, 0x1d, 0x3a, 0x74, 0xe8, 0xcb]

def get_byte (vector : UInt32) (n : ℕ) : UInt8 := byte vector n

/-- `(vector & ~(0xFF << (8*n))) | (val << (8*n))`. -/
def set_byte (shl : UInt32 → ℤ → UInt32) (vector : UInt32) (n : ℤ) (val : UInt8) : UInt32 :=
  (vector &&& ~~~(shl 0xff (8 * n))) ||| shl val.toUInt32 (8 * n)

def key_core (shl : UInt32 → ℤ → UInt32) (k : UInt32) (i : ℕ) : UInt32 :=
  let t := (List.range 4).foldl (fun t (j : ℕ) =>
    set_byte shl t (((j : ℤ) - 1).tmod 4) (sbox.getD (get_byte k j).toNat 0)) 0
  set_byte shl t 0 (get_byte t 0 ^^^ rcon.getD i 0)

def sbox_bytes (shl : UInt32 → ℤ → UInt32) (k : UInt32) : UInt32 :=
  (List.range 4).foldl (fun r (j : ℕ) =>
    set_byte shl r j (sbox.getD (get_byte k j).toNat 0)) 0

def m1 : UInt64 := 0x5555555555555555

def m2 : UInt64 := 0x3333333333333333

def m4 : UInt64 := 0x0f0f0f0f0f0f0f0f

def h01 : UInt64 := 0x0101010101010101

def popcount (x : UInt64) : ℤ :=
  let x := x - ((x >>> 1) &&& m1)
  let x := (x &&& m2) + ((x >>> 2) &&& m2)
  let x := (x + (x >>> 4)) &&& m4
  ((x * h01) >>> 56).toNat

/-- A shift with a count modulo 32. -/
def shl32 (x : UInt32) (z : ℤ) : UInt32 := ⟨x.toBitVec <<< (z % 32).toNat⟩

/-- The machine takes the count of a shift modulo 32. -/
def Masks (shl : UInt32 → ℤ → UInt32) : Prop := ∀ x z, shl x z = shl32 x z

theorem shl32_masks : Masks shl32 := fun _ _ => rfl

/-! ### The number of bits -/

theorem toNat_m1 : m1.toNat = mask 1 32 := by decide

theorem toNat_m2 : m2.toNat = mask 2 16 := by decide

theorem toNat_m4 : m4.toNat = mask 4 8 := by decide

section Popcount

variable {x : UInt64}

theorem toNat_first (x : UInt64) : (x - ((x >>> 1) &&& m1)).toNat = fold 1 32 x.toNat := by
  have hmask : ((x >>> 1) &&& m1).toNat = x.toNat >>> 1 &&& mask 1 32 := by
    rw [UInt64.toNat_and, toNat_m1, UInt64.toNat_shiftRight]
    rfl
  obtain ⟨hsub, hle⟩ := sub_and_mask (n := 32) (x := x.toNat) x.toNat_lt
  rw [UInt64.toNat_sub_of_le _ _ (UInt64.le_iff_toNat_le.mpr (hmask ▸ hle)), hmask, hsub]

theorem toNat_second (x : UInt64) :
    ((x &&& m2) + ((x >>> 2) &&& m2)).toNat = fold 2 16 x.toNat := by
  have hfold : (x &&& m2).toNat + ((x >>> 2) &&& m2).toNat = fold 2 16 x.toNat := by
    rw [UInt64.toNat_and, UInt64.toNat_and, toNat_m2, UInt64.toNat_shiftRight]
    rfl
  rw [UInt64.toNat_add, hfold, Nat.mod_eq_of_lt]
  exact fold_lt (by decide) 16 x.toNat

theorem toNat_third (h : Bounded 4 4 x.toNat) :
    ((x + (x >>> 4)) &&& m4).toNat = fold 4 8 x.toNat := by
  have hshift : (x >>> 4).toNat = x.toNat >>> 4 := UInt64.toNat_shiftRight x 4
  have htop : x.toNat / 2 ^ 60 ≤ 4 := by
    have h15 := h 15
    have hlt := x.toNat_lt
    rwa [Nat.mod_eq_of_lt (by omega)] at h15
  have hsum : (x + (x >>> 4)).toNat = x.toNat + x.toNat >>> 4 := by
    have hdiv : x.toNat >>> 4 = x.toNat / 16 := Nat.shiftRight_eq_div_pow _ _
    rw [UInt64.toNat_add, hshift, hdiv]
    omega
  rw [UInt64.toNat_and, toNat_m4, hsum]
  exact add_and_mask (by decide) h

theorem toNat_last (ht : total 8 8 x.toNat < 256) : ((x * h01) >>> 56).toNat = total 8 8 x.toNat := by
  rw [← mul_ones_div x.toNat_lt ht, UInt64.toNat_shiftRight, UInt64.toNat_mul,
    Nat.shiftRight_eq_div_pow]
  rfl

/-- Every word of 64 bits is counted. -/
theorem popcount_eq (x : UInt64) :
    popcount x = (List.range 64).countP fun i => x.toNat.testBit i := by
  obtain ⟨y, hy⟩ : ∃ y, y = x - ((x >>> 1) &&& m1) := ⟨_, rfl⟩
  obtain ⟨z, hz⟩ : ∃ z, z = (y &&& m2) + ((y >>> 2) &&& m2) := ⟨_, rfl⟩
  obtain ⟨w, hw⟩ : ∃ w, w = (z + (z >>> 4)) &&& m4 := ⟨_, rfl⟩
  have hpop : popcount x = ((w * h01) >>> 56).toNat := by
    rw [hw, hz, hy]
    rfl
  have h1 : y.toNat = fold 1 32 x.toNat := by rw [hy, toNat_first]
  have h2 : z.toNat = fold 2 16 (fold 1 32 x.toNat) := by rw [hz, toNat_second, h1]
  have hbound : Bounded 4 4 z.toNat := by
    rw [h2]
    exact ((bounded_bits x.toNat).fold le_rfl 32).fold (by decide) 16
  have htotal : total 8 8 w.toNat = total 1 64 x.toNat := by
    rw [hw, toNat_third hbound, h2]
    have h4 := total_fold (show 1 ≤ 4 by decide) 8 (fold 2 16 (fold 1 32 x.toNat))
    have h2 := total_fold (show 1 ≤ 2 by decide) 16 (fold 1 32 x.toNat)
    exact h4.trans (h2.trans (total_fold le_rfl 32 x.toNat))
  have hle : total 1 64 x.toNat ≤ 64 * 1 := total_le (bounded_bits _) 64
  rw [hpop, toNat_last (by omega), htotal, total_eq_countP]

end Popcount

/-- The number of bits in which two words differ. -/
def hamming (v w : UInt32) : ℕ := (List.range 32).countP fun i => (v ^^^ w).toNat.testBit i

/-- The words of 32 bits that the program counts. -/
theorem popcount_xor (v w : UInt32) : popcount (v ^^^ w).toUInt64 = hamming v w := by
  rw [popcount_eq, UInt32.toNat_toUInt64, hamming]
  generalize v ^^^ w = d
  have hhigh : ((List.range 32).countP fun i => d.toNat.testBit (32 + i)) = 0 := by
    refine List.countP_eq_zero.mpr fun i _ => ?_
    have hle : 2 ^ 32 ≤ 2 ^ (32 + i) := Nat.pow_le_pow_right (by decide) (Nat.le_add_right 32 i)
    simp [Nat.testBit_lt_two_pow (d.toNat_lt.trans_le hle)]
  rw [show 64 = 32 + 32 from rfl, List.range_add, List.countP_append, List.countP_map]
  exact congrArg _ (congrArg _ hhigh)

theorem hamming_eq_zero {v w : UInt32} : hamming v w = 0 ↔ v = w := by
  constructor
  · intro h
    have hbits := List.countP_eq_zero.mp h
    have hzero : v ^^^ w = 0 := by
      apply UInt32.toNat_inj.mp
      apply Nat.eq_of_testBit_eq
      intro i
      rcases lt_or_ge i 32 with hi | hi
      · simpa using hbits i (List.mem_range.mpr hi)
      · have hle : 2 ^ 32 ≤ 2 ^ i := Nat.pow_le_pow_right (by decide) hi
        rw [Nat.testBit_lt_two_pow ((v ^^^ w).toNat_lt.trans_le hle)]
        simp
    exact UInt32.xor_eq_zero_iff.mp hzero
  · rintro rfl
    simp [hamming]

/-! ### The operations of the key expansion -/

section Core

variable {shl : UInt32 → ℤ → UInt32}

/-- A byte is put into its place, counted modulo 4. -/
theorem byte_set_byte (hshl : Masks shl) (w : UInt32) (n : ℤ) (val : UInt8) {m : ℕ} (hm : m < 4) :
    byte (set_byte shl w n val) m = if n % 4 = m then val else byte w m := by
  obtain ⟨q, hq, hn⟩ : ∃ q < 4, (n % 4).toNat = q := ⟨_, by omega, rfl⟩
  have hshift : (8 * n % 32).toNat = 8 * q := by omega
  have hiff : n % 4 = m ↔ q = m := by omega
  have hff : ∀ i < 32, (UInt32.toBitVec 255).getLsbD i = decide (i < 8) := by decide
  have hval : ∀ i < 32, val.toUInt32.toBitVec.getLsbD i = val.toBitVec.getLsbD i := fun i hi => by
    rw [UInt8.toBitVec_toUInt32, BitVec.getLsbD_setWidth, decide_eq_true hi, Bool.true_and]
  apply UInt8.toBitVec_inj.mp
  apply BitVec.eq_of_getLsbD_eq
  intro i hi
  have hlt : 8 * m + i < 32 := by omega
  rw [set_byte, hshl, hshl, shl32, shl32, hshift]
  simp only [byte, hiff, UInt32.toBitVec_or, UInt32.toBitVec_and, UInt32.toBitVec_not,
    BitVec.getLsbD_setWidth, BitVec.getLsbD_ushiftRight, BitVec.getLsbD_or, BitVec.getLsbD_and,
    BitVec.getLsbD_not, BitVec.getLsbD_shiftLeft, hlt, hff _ (show 8 * m + i - 8 * q < 32 by omega),
    hval _ (show 8 * m + i - 8 * q < 32 by omega)]
  rcases lt_trichotomy m q with h | rfl | h
  · have hbelow : 8 * m + i < 8 * q := by omega
    simp [hi, hbelow, h.ne']
  · simp [hi]
  · have habove : ¬ 8 * m + i < 8 * q := by omega
    have hfar : 8 ≤ 8 * m + i - 8 * q := by omega
    have hnone := BitVec.getLsbD_of_ge val.toBitVec _ hfar
    simp [hi, habove, h.ne, hnone, not_lt.mpr hfar]

/-- The table is the substitution of AES. -/
theorem sbox_eq (b : UInt8) : sbox.getD b.toNat 0 = subByte b := by
  have h : ∀ n : Fin 256, sbox.getD n 0 = subByte (UInt8.ofNat n) := by decide +kernel
  have hb := h ⟨b.toNat, b.toNat_lt⟩
  rwa [UInt8.ofNat_toNat] at hb

/-- The constants that are used are those of AES. -/
theorem rcon_eq : ∀ i < 11, 0 < i → rcon.getD i 0 = UInt8.ofNat (xtime^[i - 1] 1) := by decide

theorem sbox_bytes_eq (hshl : Masks shl) (k : UInt32) : sbox_bytes shl k = subWord k := by
  apply word_ext
  intro m hm
  rw [subWord, byte_ofBytes _ hm]
  simp only [sbox_bytes, List.range_succ, List.range_zero, List.nil_append, List.cons_append,
    List.foldl_cons, List.foldl_nil, byte_set_byte hshl _ _ _ hm, sbox_eq, get_byte]
  obtain rfl | rfl | rfl | rfl : m = 0 ∨ m = 1 ∨ m = 2 ∨ m = 3 := by omega
  · rfl
  · rfl
  · rfl
  · rfl

theorem key_core_eq (hshl : Masks shl) (k : UInt32) {i : ℕ} (h0 : 0 < i) (hi : i < 11) :
    key_core shl k i = subWord (rotWord k) ^^^ Aes.rcon i := by
  apply word_ext
  intro m hm
  rw [byte_xor, subWord, byte_ofBytes _ hm, rotWord, byte_ofBytes _ hm]
  have hrcon : ∀ n < 4, byte (Aes.rcon i) n = if n = 0 then UInt8.ofNat (xtime^[i - 1] 1) else 0 :=
    fun n hn => byte_toUInt32 _ hn
  simp only [key_core, List.range_succ, List.range_zero, List.nil_append, List.cons_append,
    List.foldl_cons, List.foldl_nil, byte_set_byte hshl _ _ _ hm, sbox_eq, get_byte,
    byte_set_byte hshl _ _ _ (show 0 < 4 by decide), rcon_eq i hi h0, hrcon m hm]
  obtain rfl | rfl | rfl | rfl : m = 0 ∨ m = 1 ∨ m = 2 ∨ m = 3 := by omega
  · simp
  · simp
  · simp
  · simp

end Core

end SchoolProjects.KeyFinder
