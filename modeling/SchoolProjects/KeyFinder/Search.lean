import SchoolProjects.KeyFinder.Words
import SchoolProjects.Lib.Hex
import SchoolProjects.Lib.MachineInt

/-! The search of `aeskeyfind.c`, without verbose output and without the progress on
`stderr`. At each byte of the image the counts of the next 176 bytes, which `entropy` keeps
in static variables and moves along, decide whether the words there are compared with a key
schedule; rows are compared until more than the threshold of bits are wrong. What is printed
is what a comparison with the whole key expansion of AES asks for, at every byte on its own.
Offsets are passed to `entropy` as `int`, so a larger image ends in an overflow. A result
`none` is that, or a read outside the image. -/

namespace SchoolProjects.KeyFinder

open Aes Hex Text

/-! ### Entropy -/

/-- `bmap[z]`. -/
def load (bmap : Text) (z : ℤ) : Option UInt8 := if z < 0 then none else bmap[z.toNat]?

/-- The static variables of `entropy`. -/
structure Statics where
  new_call : Bool
  byte_freq : UInt8 → ℤ

def Statics.start : Statics := ⟨true, fun _ => 0⟩

/-- `byte_freq[b] += d`. -/
def add (byte_freq : UInt8 → ℤ) (b : UInt8) (d : ℤ) : UInt8 → ℤ :=
  Function.update byte_freq b (byte_freq b + d)

/-- The first `n` bytes are counted. -/
def fill (bmap : Text) (n : ℕ) (byte_freq : UInt8 → ℤ) : Option (UInt8 → ℤ) :=
  (List.range n).foldlM (fun freq j => (bmap[j]?).map fun b => add freq b 1) byte_freq

/-- The counts after the first lines of `entropy`. -/
def started (bmap : Text) (s : Statics) : Option (UInt8 → ℤ) :=
  if s.new_call then fill bmap 176 s.byte_freq else some s.byte_freq

/-- `i + 176` is a number of type `int`. -/
def entropy (bmap : Text) (i : ℤ) (s : Statics) : Option (Bool × Statics) := do
  let freq ← started bmap s
  let test := (List.range 256).any fun b => decide (8 < freq (UInt8.ofNat b))
  let first ← load bmap i
  let freq := add freq first (-1)
  if 2 ^ 31 ≤ i + 176 then none
  else do
    let last ← load bmap (i + 176)
    return (test, ⟨false, add freq last 1⟩)

/-! ### Comparison -/

/-- `map[k]` where `map` points to `bmap[i]`, the first byte in the lowest place. -/
def map (bmap : Text) (i k : ℕ) : Option UInt32 := do
  let b0 ← bmap[i + 4 * k]?
  let b1 ← bmap[i + 4 * k + 1]?
  let b2 ← bmap[i + 4 * k + 2]?
  let b3 ← bmap[i + 4 * k + 3]?
  return ofBytes fun n => [b0, b1, b2, b3].getD n 0

section Compare

variable (shl : UInt32 → ℤ → UInt32) (gThreshold : ℤ) (bmap : Text) (i : ℕ)

/-- The word whose bits are counted for a key of 256 bits. -/
def xor_256 (row column : ℕ) : Option UInt32 :=
  if column = 0 then do
    return key_core shl (← map bmap i (8 * row - 1)) row ^^^ (← map bmap i (8 * (row - 1))) ^^^
      (← map bmap i (8 * row))
  else if column = 4 then do
    return sbox_bytes shl (← map bmap i (8 * row + 3)) ^^^ (← map bmap i (8 * (row - 1) + 4)) ^^^
      (← map bmap i (8 * row + 4))
  else do
    return (← map bmap i (8 * row + column - 1)) ^^^ (← map bmap i (8 * (row - 1) + column)) ^^^
      (← map bmap i (8 * row + column))

/-- The same for a key of 128 bits. -/
def xor_128 (row column : ℕ) : Option UInt32 :=
  if column = 0 then do
    return key_core shl (← map bmap i (4 * row - 1)) row ^^^ (← map bmap i (4 * (row - 1))) ^^^
      (← map bmap i (4 * row))
  else do
    return (← map bmap i (4 * row + column - 1)) ^^^ (← map bmap i (4 * (row - 1) + column)) ^^^
      (← map bmap i (4 * row + column))

/-- The loop over the columns of one row. -/
def sumRow (xor : ℕ → Option UInt32) (columns : List ℕ) (count : ℤ) : Option ℤ :=
  columns.foldlM (fun count column => (xor column).map fun w => count + popcount w.toUInt64) count

/-- The loop over the rows, which ends when the count is above the threshold. -/
def sumRows (xor : ℕ → ℕ → Option UInt32) (columns : ℕ → List ℕ) : List ℕ → ℤ → Option ℤ
  | [], count => some count
  | row :: rows, count => do
    let count ← sumRow (xor row) (columns row) count
    if gThreshold < count then return count else sumRows xor columns rows count

/-- Row 7 ends before column 4. -/
def columns_256 (row : ℕ) : List ℕ :=
  (List.range 8).takeWhile fun column => ¬ (row = 7 ∧ column = 4)

def xor_count_256 : Option ℤ :=
  sumRows gThreshold (xor_256 shl bmap i) columns_256 (List.range' 1 7) 0

def xor_count_128 : Option ℤ :=
  sumRows gThreshold (xor_128 shl bmap i) (fun _ => List.range 4) (List.range' 1 10) 0

/-! ### Output -/

def print_word (word : UInt32) : Text := (List.range 4).flatMap fun n => hex (get_byte word n)

def print_key (num_bits : ℕ) : Option Text := do
  let words ← (List.range (num_bits / 32)).mapM (map bmap i)
  return words.flatMap print_word ++ [10]

/-! ### The search -/

/-- What is printed for a key of 256 bits. -/
def key_256 : Option Text := do
  let xor_count_256 ← xor_count_256 shl gThreshold bmap i
  if xor_count_256 ≤ gThreshold then print_key bmap i 256 else some []

/-- What is printed for a key of 128 bits. -/
def key_128 : Option Text := do
  let xor_count_128 ← xor_count_128 shl gThreshold bmap i
  if xor_count_128 < gThreshold then print_key bmap i 128 else some []

/-- The body of the loop of `find_keys`. -/
def find_key (s : Statics × Text) : Option (Statics × Text) := do
  let (test, statics) ← entropy bmap (int32 i) s.1
  if test then return (statics, s.2)
  else do
    let key_256 ← key_256 shl gThreshold bmap i
    let key_128 ← key_128 shl gThreshold bmap i
    return (statics, s.2 ++ (key_256 ++ key_128))

end Compare

def find_keys (shl : UInt32 → ℤ → UInt32) (gThreshold : ℤ) (bmap : Text) (last : ℕ) :
    Option Text :=
  ((List.range last).foldlM (fun s i => find_key shl gThreshold bmap i s)
    (Statics.start, [])).map Prod.snd

/-- `main` with the bytes of the image, whose number `map_file` gives as an `unsigned int`:
what is printed to `stdout`. -/
def main (shl : UInt32 → ℤ → UInt32) (gThreshold : ℤ) (image : Text) : Option Text :=
  let len := image.length % 2 ^ 32
  if len < 240 then some [] else find_keys shl gThreshold image (len - 240)

/-! ### What is looked for -/

/-- The bytes at an offset that `entropy` looks at. -/
def window (bmap : Text) (i : ℕ) : Text := (bmap.drop i).take 176

/-- Some byte is there more than eight times. -/
def Repeats (bmap : Text) (i : ℕ) : Prop := ∃ b ∈ window bmap i, 8 < (window bmap i).count b

instance (bmap : Text) (i : ℕ) : Decidable (Repeats bmap i) :=
  inferInstanceAs (Decidable (∃ b ∈ window bmap i, 8 < (window bmap i).count b))

/-- The words at an offset. -/
def words (bmap : Text) (i k : ℕ) : UInt32 := ofBytes fun n => bmap.getD (i + 4 * k + n) 0

/-- The number of the bits in which words up to `n` are not those that the key expansion
asks for. -/
def violations (nk n : ℕ) (w : ℕ → UInt32) : ℕ :=
  ((List.range' nk (n - nk)).map fun i => hamming (w i) (next nk w i)).sum

/-- The `n` bytes at an offset as a line. -/
def line (bmap : Text) (i n : ℕ) : Text := ((bmap.drop i).take n).flatMap hex ++ [10]

/-- The keys at an offset. -/
def found (gThreshold : ℤ) (bmap : Text) (i : ℕ) : Text :=
  if Repeats bmap i then []
  else
    (if violations 8 60 (words bmap i) ≤ gThreshold then line bmap i 32 else []) ++
      if violations 4 44 (words bmap i) < gThreshold then line bmap i 16 else []

/-! ### Sliding the window -/

section Window

variable {bmap : Text} {i : ℕ} {s : Statics}

theorem add_apply (freq : UInt8 → ℤ) (b c : UInt8) (d : ℤ) :
    add freq b d c = freq c + if b = c then d else 0 := by
  by_cases h : c = b
  · subst h
    simp [add]
  · simp [add, h, Ne.symm h]

theorem fill_eq (freq : UInt8 → ℤ) {n : ℕ} (hn : n ≤ bmap.length) :
    ∃ freq', fill bmap n freq = some freq' ∧ ∀ b, freq' b = freq b + (bmap.take n).count b := by
  induction n with
  | zero => exact ⟨freq, rfl, by simp⟩
  | succ n ih =>
    obtain ⟨freq', hfill, hcount⟩ := ih (by omega)
    have hget : bmap[n]? = some bmap[n] := List.getElem?_eq_getElem (by omega)
    refine ⟨add freq' bmap[n] 1, ?_, fun b => ?_⟩
    · unfold fill at hfill ⊢
      rw [List.range_succ, List.foldlM_append, hfill]
      simp [hget]
    · rw [add_apply, hcount, List.take_add_one, hget, List.count_append]
      simp only [Option.toList_some, List.count_singleton, beq_iff_eq]
      split_ifs <;> push_cast <;> ring

/-- The counts are those of the window. -/
def Counts (bmap : Text) (i : ℕ) (s : Statics) : Prop :=
  (s.new_call = true ∧ i = 0 ∧ s.byte_freq = fun _ => 0) ∨
    (s.new_call = false ∧ ∀ b, s.byte_freq b = (window bmap i).count b)

/-- The next window has lost its first byte and got the byte behind it. -/
theorem count_window_succ (hi : i + 176 < bmap.length) (b : UInt8) :
    (window bmap (i + 1)).count b + (if bmap[i] = b then 1 else 0) =
      (window bmap i).count b + if bmap[i + 176] = b then 1 else 0 := by
  have hfirst : window bmap i = bmap[i] :: (bmap.drop (i + 1)).take 175 := by
    rw [window, List.drop_eq_getElem_cons (by omega)]
    rfl
  have hlast : window bmap (i + 1) = (bmap.drop (i + 1)).take 175 ++ [bmap[i + 176]] := by
    have hget : (bmap.drop (i + 1))[175]? = some bmap[i + 176] := by
      rw [List.getElem?_drop, List.getElem?_eq_getElem (by omega)]
    rw [window, List.take_add_one, hget]
    rfl
  rw [hfirst, hlast, List.count_append, List.count_singleton, List.count_cons]
  simp only [beq_iff_eq]
  omega

theorem load_eq (hi : i < bmap.length) : load bmap i = some bmap[i] := by
  have h : ¬ (i : ℤ) < 0 := by omega
  rw [load, if_neg h, Int.toNat_natCast, List.getElem?_eq_getElem hi]

theorem started_eq (hs : Counts bmap i s) (hlen : 176 ≤ bmap.length) :
    ∃ freq, started bmap s = some freq ∧ ∀ b, freq b = (window bmap i).count b := by
  rcases hs with ⟨hnew, rfl, hzero⟩ | ⟨hnew, hcount⟩
  · obtain ⟨freq, hfill, hcount⟩ := fill_eq (fun _ => 0) hlen
    exact ⟨freq, by rw [started, if_pos hnew, hzero, hfill], by simpa [window] using hcount⟩
  · exact ⟨s.byte_freq, by rw [started, hnew]; rfl, hcount⟩

/-- A call of `entropy` in order: the answer for its window, and the counts for the next. -/
theorem entropy_eq (hs : Counts bmap i s) (hi : i + 176 < bmap.length) (hint : i + 176 < 2 ^ 31) :
    ∃ s', entropy bmap i s = some (decide (Repeats bmap i), s') ∧ Counts bmap (i + 1) s' := by
  obtain ⟨freq, hfreq, hcount⟩ := started_eq hs (by omega)
  have htest : ((List.range 256).any fun b => decide (8 < freq (UInt8.ofNat b))) =
      decide (Repeats bmap i) := by
    rw [Bool.eq_iff_iff, List.any_eq_true, decide_eq_true_iff]
    constructor
    · rintro ⟨n, -, hn⟩
      rw [decide_eq_true_iff, hcount] at hn
      have hn : 8 < (window bmap i).count (UInt8.ofNat n) := by exact_mod_cast hn
      exact ⟨_, List.count_pos_iff.mp (by omega), hn⟩
    · rintro ⟨b, -, hb⟩
      refine ⟨b.toNat, List.mem_range.mpr b.toNat_lt, ?_⟩
      rw [decide_eq_true_iff, hcount, UInt8.ofNat_toNat]
      exact_mod_cast hb
  have hlast : load bmap (i + 176) = some bmap[i + 176] := by
    exact_mod_cast load_eq hi
  have hover : ¬ (2 : ℤ) ^ 31 ≤ i + 176 := by exact_mod_cast not_le.mpr hint
  refine ⟨⟨false, add (add freq bmap[i] (-1)) bmap[i + 176] 1⟩, ?_, Or.inr ⟨rfl, fun b => ?_⟩⟩
  · simp only [entropy, hfreq, htest, load_eq (show i < bmap.length by omega), hlast,
      if_neg hover, Option.bind_eq_bind, Option.bind_some]
    rfl
  · have hwindow := count_window_succ hi b
    change add (add freq bmap[i] (-1)) bmap[i + 176] 1 b = _
    rw [add_apply, add_apply, hcount]
    split_ifs at hwindow ⊢ <;> omega

end Window

/-! ### Comparing words -/

section Words

variable {shl : UInt32 → ℤ → UInt32} {bmap : Text} {i k : ℕ}

theorem map_eq (h : i + 4 * k + 4 ≤ bmap.length) : map bmap i k = some (words bmap i k) := by
  have hget : ∀ n < 4, bmap[i + 4 * k + n]? = some (bmap.getD (i + 4 * k + n) 0) := fun n hn => by
    rw [List.getD_eq_getElem?_getD, List.getElem?_eq_getElem (by omega)]
    rfl
  have h0 := hget 0 (by decide)
  rw [Nat.add_zero] at h0
  simp only [map, h0, hget 1 (by decide), hget 2 (by decide), hget 3 (by decide),
    Option.bind_eq_bind, Option.bind_some]
  refine congrArg some (word_ext fun n hn => ?_)
  rw [words, byte_ofBytes _ hn, byte_ofBytes _ hn]
  obtain rfl | rfl | rfl | rfl : n = 0 ∨ n = 1 ∨ n = 2 ∨ n = 3 := by omega
  · rfl
  · rfl
  · rfl
  · rfl

/-- Two words and a third whose difference from the first is asked for. -/
theorem xor_third (a b c : UInt32) : a ^^^ b ^^^ c = c ^^^ (b ^^^ a) := by
  rw [UInt32.xor_comm a b, UInt32.xor_comm]

theorem mem_columns_256 {row column : ℕ} (h : column ∈ columns_256 row) :
    column < 8 ∧ (row = 7 → column < 4) := by
  have hlt : column < 8 := List.mem_range.mp (List.takeWhile_sublist _ |>.subset h)
  refine ⟨hlt, ?_⟩
  rintro rfl
  have hrow : columns_256 7 = List.range 4 := by decide
  exact List.mem_range.mp (hrow ▸ h)

/-- The word that is counted is the difference from the key expansion. -/
theorem xor_256_eq (hshl : Masks shl) (hlen : i + 240 ≤ bmap.length) {row column : ℕ}
    (hrow : 0 < row ∧ row < 8) (hcol : column ∈ columns_256 row) :
    xor_256 shl bmap i row column =
      some (words bmap i (8 * row + column) ^^^ next 8 (words bmap i) (8 * row + column)) := by
  obtain ⟨h8, h7⟩ := mem_columns_256 hcol
  have hmap : ∀ k < 60, map bmap i k = some (words bmap i k) := fun k hk => map_eq (by omega)
  have hmod : (8 * row + column) % 8 = column := by omega
  have hdiv : (8 * row + column) / 8 = row := by omega
  have hback : 8 * row + column - 8 = 8 * (row - 1) + column := by omega
  rw [next, hmod, hdiv, hback, xor_256]
  split_ifs with h0 h4 h6 h6
  · rw [hmap (8 * row - 1) (by omega), hmap (8 * (row - 1)) (by omega), hmap (8 * row) (by omega)]
    simp only [Option.bind_eq_bind, Option.bind_some, Option.pure_def, h0, add_zero]
    rw [key_core_eq hshl _ hrow.1 (by omega), xor_third]
  · rw [hmap (8 * row + 3) (by omega), hmap (8 * (row - 1) + 4) (by omega),
      hmap (8 * row + 4) (by omega)]
    simp only [Option.bind_eq_bind, Option.bind_some, Option.pure_def, h4]
    rw [sbox_bytes_eq hshl, xor_third]
    rfl
  · exact absurd ⟨by decide, h4⟩ h6
  · omega
  · rw [hmap (8 * row + column - 1) (by omega), hmap (8 * (row - 1) + column) (by omega),
      hmap (8 * row + column) (by omega)]
    simp only [Option.bind_eq_bind, Option.bind_some, Option.pure_def]
    rw [xor_third]

theorem xor_128_eq (hshl : Masks shl) (hlen : i + 176 ≤ bmap.length) {row column : ℕ}
    (hrow : 0 < row ∧ row < 11) (hcol : column < 4) :
    xor_128 shl bmap i row column =
      some (words bmap i (4 * row + column) ^^^ next 4 (words bmap i) (4 * row + column)) := by
  have hmap : ∀ k < 44, map bmap i k = some (words bmap i k) := fun k hk => map_eq (by omega)
  have hmod : (4 * row + column) % 4 = column := by omega
  have hdiv : (4 * row + column) / 4 = row := by omega
  have hback : 4 * row + column - 4 = 4 * (row - 1) + column := by omega
  have hsmall : ¬ (6 < 4 ∧ column = 4) := by omega
  rw [next, hmod, hdiv, hback, xor_128, if_neg hsmall]
  split_ifs with h0
  · rw [hmap (4 * row - 1) (by omega), hmap (4 * (row - 1)) (by omega), hmap (4 * row) (by omega)]
    simp only [Option.bind_eq_bind, Option.bind_some, Option.pure_def, h0, add_zero]
    rw [key_core_eq hshl _ hrow.1 hrow.2, xor_third]
  · rw [hmap (4 * row + column - 1) (by omega), hmap (4 * (row - 1) + column) (by omega),
      hmap (4 * row + column) (by omega)]
    simp only [Option.bind_eq_bind, Option.bind_some, Option.pure_def]
    rw [xor_third]

/-! ### Counting until the threshold -/

theorem sumRow_eq {xor : ℕ → Option UInt32} {columns : List ℕ} {v w : ℕ → UInt32}
    (h : ∀ column ∈ columns, xor column = some (v column ^^^ w column)) (count : ℤ) :
    sumRow xor columns count =
      some (count + (columns.map fun column => hamming (v column) (w column)).sum) := by
  induction columns generalizing count with
  | nil => simp [sumRow]
  | cons column columns ih =>
    have hfirst := h column List.mem_cons_self
    have hrest := ih (fun c hc => h c (List.mem_cons_of_mem column hc))
      (count + hamming (v column) (w column))
    unfold sumRow at hrest ⊢
    rw [List.foldlM_cons, hfirst]
    simp only [Option.map_some, Option.bind_eq_bind, Option.bind_some, popcount_xor, hrest]
    rw [List.map_cons, List.sum_cons]
    push_cast
    rw [add_assoc]

/-- The loop that ends early is as good as the whole sum. -/
theorem sumRows_eq (gThreshold : ℤ) {xor : ℕ → ℕ → Option UInt32} {columns : ℕ → List ℕ}
    {total : ℕ → ℕ} {rows : List ℕ} (h : ∀ row ∈ rows, ∀ count,
      sumRow (xor row) (columns row) count = some (count + total row)) (count : ℤ) :
    ∃ c, sumRows gThreshold xor columns rows count = some c ∧
      (c ≤ gThreshold ↔ count + (rows.map total).sum ≤ gThreshold) ∧
      (c < gThreshold ↔ count + (rows.map total).sum < gThreshold) := by
  induction rows generalizing count with
  | nil => exact ⟨count, rfl, by simp, by simp⟩
  | cons row rows ih =>
    have hrow := h row List.mem_cons_self count
    obtain ⟨c, hc, hle, hlt⟩ := ih (fun r hr => h r (List.mem_cons_of_mem row hr))
      (count + total row)
    simp only [sumRows, hrow, Option.bind_eq_bind, Option.bind_some, List.map_cons, List.sum_cons,
      Nat.cast_add]
    by_cases hover : gThreshold < count + total row
    · exact ⟨count + total row, by rw [if_pos hover]; rfl, by omega, by omega⟩
    · exact ⟨c, by rw [if_neg hover, hc], by rw [hle, add_assoc], by rw [hlt, add_assoc]⟩

/-- A sum row by row. -/
theorem sum_rows (rows : List ℕ) (columns : ℕ → List ℕ) (h : ℕ → ℕ) (nk : ℕ) :
    (rows.map fun row => ((columns row).map fun column => h (nk * row + column)).sum).sum =
      ((rows.flatMap fun row => (columns row).map fun column => nk * row + column).map h).sum := by
  induction rows with
  | nil => rfl
  | cons row rows ih =>
    rw [List.map_cons, List.sum_cons, ih, List.flatMap_cons, List.map_append, List.sum_append,
      List.map_map]
    rfl

theorem xor_count_256_eq (hshl : Masks shl) (gThreshold : ℤ) (hlen : i + 240 ≤ bmap.length) :
    ∃ c, xor_count_256 shl gThreshold bmap i = some c ∧
      (c ≤ gThreshold ↔ violations 8 60 (words bmap i) ≤ gThreshold) := by
  have hrows : ∀ row ∈ List.range' 1 7, ∀ count, sumRow (xor_256 shl bmap i row) (columns_256 row)
      count = some (count + ((columns_256 row).map fun column => hamming (words bmap i
        (8 * row + column)) (next 8 (words bmap i) (8 * row + column))).sum) := by
    intro row hrow count
    have hbound := List.mem_range'_1.mp hrow
    exact sumRow_eq (fun column hcol => xor_256_eq hshl hlen (by omega) hcol) count
  obtain ⟨c, hc, hle, -⟩ := sumRows_eq gThreshold hrows 0
  refine ⟨c, hc, ?_⟩
  have hall : ((List.range' 1 7).flatMap fun row =>
      (columns_256 row).map fun column => 8 * row + column) = List.range' 8 (60 - 8) := by decide
  rw [hle, zero_add, sum_rows _ _ (fun k => hamming (words bmap i k) (next 8 (words bmap i) k)),
    hall, violations]

theorem xor_count_128_eq (hshl : Masks shl) (gThreshold : ℤ) (hlen : i + 176 ≤ bmap.length) :
    ∃ c, xor_count_128 shl gThreshold bmap i = some c ∧
      (c < gThreshold ↔ violations 4 44 (words bmap i) < gThreshold) := by
  have hrows : ∀ row ∈ List.range' 1 10, ∀ count, sumRow (xor_128 shl bmap i row) (List.range 4)
      count = some (count + ((List.range 4).map fun column => hamming (words bmap i
        (4 * row + column)) (next 4 (words bmap i) (4 * row + column))).sum) := by
    intro row hrow count
    have hbound := List.mem_range'_1.mp hrow
    exact sumRow_eq (fun column hcol => xor_128_eq hshl hlen (by omega)
      (List.mem_range.mp hcol)) count
  obtain ⟨c, hc, -, hlt⟩ := sumRows_eq gThreshold hrows 0
  refine ⟨c, hc, ?_⟩
  have hall : ((List.range' 1 10).flatMap fun row =>
      (List.range 4).map fun column => 4 * row + column) = List.range' 4 (44 - 4) := by decide
  rw [hlt, zero_add, sum_rows _ (fun _ => List.range 4)
    (fun k => hamming (words bmap i k) (next 4 (words bmap i) k)), hall, violations]

end Words

/-! ### What is printed -/

section Print

variable {bmap : Text} {i : ℕ}

/-- A word is printed as its bytes in order. -/
theorem print_words (n : ℕ) (hlen : i + 4 * n ≤ bmap.length) :
    ((List.range n).map (words bmap i)).flatMap print_word =
      ((bmap.drop i).take (4 * n)).flatMap hex := by
  induction n with
  | zero => rfl
  | succ n ih =>
    have hbyte : ∀ m < 4, (bmap.drop i)[4 * n + m]? = some (byte (words bmap i n) m) := by
      intro m hm
      rw [words, byte_ofBytes _ hm, List.getElem?_drop, ← add_assoc,
        List.getElem?_eq_getElem (by omega), List.getD_eq_getElem?_getD,
        List.getElem?_eq_getElem (by omega)]
      rfl
    have h0 := hbyte 0 (by decide)
    rw [add_zero] at h0
    rw [List.range_succ, List.map_append, List.flatMap_append, ih (by omega), Nat.mul_succ,
      show 4 * n + 4 = 4 * n + 1 + 1 + 1 + 1 from rfl]
    simp only [List.take_add_one, h0, hbyte 1 (by decide), hbyte 2 (by decide),
      hbyte 3 (by decide), add_assoc, Nat.reduceAdd, List.flatMap_append, List.append_assoc]
    rfl

theorem print_key_eq (n : ℕ) (hlen : i + 4 * n ≤ bmap.length) :
    print_key bmap i (32 * n) = some (line bmap i (4 * n)) := by
  have hwords : (List.range (32 * n / 32)).mapM (map bmap i) =
      some ((List.range n).map (words bmap i)) := by
    rw [Nat.mul_div_cancel_left n (by decide)]
    induction n with
    | zero => rfl
    | succ n ih =>
      rw [List.range_succ, List.mapM_append, ih (by omega), List.map_append]
      simp [map_eq (show i + 4 * n + 4 ≤ bmap.length by omega)]
  simp only [print_key, hwords, Option.bind_eq_bind, Option.bind_some, print_words n hlen]
  rfl

/-- One round of the search. -/
theorem find_key_eq {shl : UInt32 → ℤ → UInt32} (hshl : Masks shl) (gThreshold : ℤ)
    {s : Statics × Text} (hs : Counts bmap i s.1) (hlen : i + 240 < bmap.length)
    (hint : i + 176 < 2 ^ 31) :
    ∃ s', find_key shl gThreshold bmap i s = some (s', s.2 ++ found gThreshold bmap i) ∧
      Counts bmap (i + 1) s' := by
  obtain ⟨s', hentropy, hcounts⟩ := entropy_eq hs (by omega) hint
  obtain ⟨c, hc, hle⟩ := xor_count_256_eq hshl gThreshold hlen.le
  obtain ⟨d, hd, hlt⟩ := xor_count_128_eq hshl gThreshold
    (show i + 176 ≤ bmap.length by omega)
  have hkey_256 : key_256 shl gThreshold bmap i = some (if violations 8 60 (words bmap i) ≤
      gThreshold then line bmap i 32 else []) := by
    simp only [key_256, hc, Option.bind_eq_bind, Option.bind_some, hle]
    split_ifs
    · exact print_key_eq 8 (by omega)
    · rfl
  have hkey_128 : key_128 shl gThreshold bmap i = some (if violations 4 44 (words bmap i) <
      gThreshold then line bmap i 16 else []) := by
    simp only [key_128, hd, Option.bind_eq_bind, Option.bind_some, hlt]
    split_ifs
    · exact print_key_eq 4 (by omega)
    · rfl
  have hrange : int32 (i : ℤ) = i := int32_of_range (by omega) (by omega)
  refine ⟨s', ?_, hcounts⟩
  simp only [find_key, hrange, hentropy, hkey_256, hkey_128, Option.bind_eq_bind,
    Option.bind_some, decide_eq_true_eq, Option.pure_def]
  rw [found]
  by_cases hrep : Repeats bmap i
  · rw [if_pos hrep, if_pos hrep, List.append_nil]
  · rw [if_neg hrep, if_neg hrep]

end Print

/-! ### The program -/

section Main

variable {shl : UInt32 → ℤ → UInt32} {gThreshold : ℤ} {bmap : Text}

/-- The rounds at offsets that are in order. -/
theorem rounds_eq (hshl : Masks shl) (gThreshold : ℤ) {n : ℕ} (hlen : n + 240 ≤ bmap.length)
    (hint : n + 176 ≤ 2 ^ 31) :
    ∃ s, (List.range n).foldlM (fun s i => find_key shl gThreshold bmap i s) (Statics.start, []) =
      some (s, (List.range n).flatMap (found gThreshold bmap)) ∧ Counts bmap n s := by
  induction n with
  | zero => exact ⟨_, rfl, Or.inl ⟨rfl, rfl, rfl⟩⟩
  | succ n ih =>
    obtain ⟨s, hrounds, hs⟩ := ih (by omega) (by omega)
    obtain ⟨s', hround, hs'⟩ := find_key_eq hshl gThreshold
      (s := (s, (List.range n).flatMap (found gThreshold bmap))) hs (by omega) (by omega)
    refine ⟨s', ?_, hs'⟩
    rw [List.range_succ, List.foldlM_append, hrounds, List.flatMap_append]
    simp [hround]

/-- The round at the first offset that is too large for `entropy`. -/
theorem find_key_overflow (s : Statics × Text) :
    find_key shl gThreshold bmap (2 ^ 31 - 176) s = none := by
  have hrange : int32 ((2 ^ 31 - 176 : ℕ) : ℤ) = 2 ^ 31 - 176 := by decide
  have hentropy : entropy bmap (2 ^ 31 - 176) s.1 = none := by
    have hover : (2 : ℤ) ^ 31 ≤ 2 ^ 31 - 176 + 176 := by norm_num
    unfold entropy
    cases started bmap s.1 with
    | none => rfl
    | some freq =>
      cases load bmap (2 ^ 31 - 176) with
      | none => rfl
      | some b => simp only [Option.bind_eq_bind, Option.bind_some, if_pos hover]
  rw [find_key, hrange, hentropy]
  rfl

/-- The search up to `last`. -/
theorem find_keys_eq (hshl : Masks shl) {last : ℕ} (hlen : last + 240 ≤ bmap.length) :
    find_keys shl gThreshold bmap last =
      if 2 ^ 31 - 176 < last then none
      else some ((List.range last).flatMap (found gThreshold bmap)) := by
  unfold find_keys
  split_ifs with hlast
  · obtain ⟨rest, rfl⟩ : ∃ rest, last = 2 ^ 31 - 176 + 1 + rest := ⟨last - (2 ^ 31 - 175), by omega⟩
    obtain ⟨s, hrounds, -⟩ := rounds_eq hshl gThreshold
      (show 2 ^ 31 - 176 + 240 ≤ bmap.length by omega) (by norm_num)
    rw [List.range_add, List.foldlM_append, List.range_succ, List.foldlM_append, hrounds]
    simp only [Option.bind_eq_bind, Option.bind_some, List.foldlM_cons, find_key_overflow]
    rfl
  · obtain ⟨s, hrounds, -⟩ := rounds_eq hshl gThreshold hlen (by omega)
    rw [hrounds]
    rfl

/-- Nothing is searched in an image that is too small. -/
theorem main_eq_find_keys (image : Text) : main shl gThreshold image =
    find_keys shl gThreshold image (image.length % 2 ^ 32 - 240) := by
  dsimp only [main]
  by_cases hsmall : image.length % 2 ^ 32 < 240
  · rw [if_pos hsmall, show image.length % 2 ^ 32 - 240 = 0 by omega]
    rfl
  · rw [if_neg hsmall]

/-- The schedule of the key 0, 1, ..., 31, and one byte. -/
def scheduled : Text := [
  0x00, 0x01, 0x02, 0x03, 0x04, 0x05, 0x06, 0x07, 0x08, 0x09, 0x0a, 0x0b, 0x0c, 0x0d, 0x0e, 0x0f,
  0x10, 0x11, 0x12, 0x13, 0x14, 0x15, 0x16, 0x17, 0x18, 0x19, 0x1a, 0x1b, 0x1c, 0x1d, 0x1e, 0x1f,
  0xa5, 0x73, 0xc2, 0x9f, 0xa1, 0x76, 0xc4, 0x98, 0xa9, 0x7f, 0xce, 0x93, 0xa5, 0x72, 0xc0, 0x9c,
  0x16, 0x51, 0xa8, 0xcd, 0x02, 0x44, 0xbe, 0xda, 0x1a, 0x5d, 0xa4, 0xc1, 0x06, 0x40, 0xba, 0xde,
  0xae, 0x87, 0xdf, 0xf0, 0x0f, 0xf1, 0x1b, 0x68, 0xa6, 0x8e, 0xd5, 0xfb, 0x03, 0xfc, 0x15, 0x67,
  0x6d, 0xe1, 0xf1, 0x48, 0x6f, 0xa5, 0x4f, 0x92, 0x75, 0xf8, 0xeb, 0x53, 0x73, 0xb8, 0x51, 0x8d,
  0xc6, 0x56, 0x82, 0x7f, 0xc9, 0xa7, 0x99, 0x17, 0x6f, 0x29, 0x4c, 0xec, 0x6c, 0xd5, 0x59, 0x8b,
  0x3d, 0xe2, 0x3a, 0x75, 0x52, 0x47, 0x75, 0xe7, 0x27, 0xbf, 0x9e, 0xb4, 0x54, 0x07, 0xcf, 0x39,
  0x0b, 0xdc, 0x90, 0x5f, 0xc2, 0x7b, 0x09, 0x48, 0xad, 0x52, 0x45, 0xa4, 0xc1, 0x87, 0x1c, 0x2f,
  0x45, 0xf5, 0xa6, 0x60, 0x17, 0xb2, 0xd3, 0x87, 0x30, 0x0d, 0x4d, 0x33, 0x64, 0x0a, 0x82, 0x0a,
  0x7c, 0xcf, 0xf7, 0x1c, 0xbe, 0xb4, 0xfe, 0x54, 0x13, 0xe6, 0xbb, 0xf0, 0xd2, 0x61, 0xa7, 0xdf,
  0xf0, 0x1a, 0xfa, 0xfe, 0xe7, 0xa8, 0x29, 0x79, 0xd7, 0xa5, 0x64, 0x4a, 0xb3, 0xaf, 0xe6, 0x40,
  0x25, 0x41, 0xfe, 0x71, 0x9b, 0xf5, 0x00, 0x25, 0x88, 0x13, 0xbb, 0xd5, 0x5a, 0x72, 0x1c, 0x0a,
  0x4e, 0x5a, 0x66, 0x99, 0xa9, 0xf2, 0x4f, 0xe0, 0x7e, 0x57, 0x2b, 0xaa, 0xcd, 0xf8, 0xcd, 0xea,
  0x24, 0xfc, 0x79, 0xcc, 0xbf, 0x09, 0x79, 0xe9, 0x37, 0x1a, 0xc2, 0x3c, 0x6d, 0x68, 0xde, 0x36, 0]

/-- Words that violate nothing are the expansion of their key. -/
theorem violations_eq_zero {nk n : ℕ} {w : ℕ → UInt32} :
    violations nk n w = 0 ↔ Expansion nk n w := by
  rw [violations, List.sum_eq_zero_iff, List.forall_mem_map]
  simp only [hamming_eq_zero, List.mem_range'_1]
  exact ⟨fun h i hnk hn => h i ⟨hnk, by omega⟩, fun h i hi => h i hi.1 (by omega)⟩

instance (nk n : ℕ) (w : ℕ → UInt32) : Decidable (Expansion nk n w) :=
  decidable_of_iff _ violations_eq_zero

end Main

end SchoolProjects.KeyFinder
