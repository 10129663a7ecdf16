import SchoolProjects.Lib.Stream
import SchoolProjects.Vision.Comments

/-! Sphere images (`image.h` and `image.cc` of the fourth homework): reading the pixels
with or without a threshold, the centre of the brightest pixels, and the centre and the
radius of the sphere. The normal vector, which is computed in floating point, is left
out. Memory is not bounded, and the one quotient of two numbers of type `int` that is no
`int` is reduced like a sum. -/

namespace SchoolProjects.Vision

open Text

/-- How `ReadImage` fails without a result. -/
inductive Fault where
  | division_by_zero
  /-- An exception, or a number that `sscanf` does not set. -/
  | undefined
  deriving DecidableEq

namespace Fault

variable {α : Type*}

def known : Option α → Except Fault α
  | none => .error .undefined
  | some a => .ok a

theorem known_bind {α β : Type} (a : α) (f : α → Except Fault β) :
    (known (some a) >>= f) = f a := rfl

/-- `a / b` of numbers of type `int`. -/
def divide (a b : ℤ) : Except Fault ℤ :=
  if b = 0 then .error .division_by_zero else .ok (int32 (a.tdiv b))

end Fault

open Fault

/-- `class Image`. -/
structure SphereImage where
  num_rows : ℕ
  num_columns : ℕ
  num_gray_levels : ℕ
  pixels : ℕ → ℕ → ℤ
  centerX : ℤ
  centerY : ℤ
  radius : ℚ
  brightest : ℤ
  brightestX : ℤ
  brightestY : ℤ

namespace SphereImage

/-- `Image()`. -/
def new : SphereImage := ⟨0, 0, 0, fun _ _ => 0, 0, 0, 0, 0, 0, 0⟩

/-- `AllocateSpaceAndSetSize`; the new array holds whatever `memory` does. -/
def AllocateSpaceAndSetSize (memory : ℕ → ℕ → ℤ) (im : SphereImage) (num_rows num_columns : ℕ) :
    Option SphereImage :=
  if 2 ^ 63 ≤ 8 * num_rows ∨ (0 < num_rows ∧ 2 ^ 63 ≤ 4 * num_columns) then none
  else some { im with num_rows := num_rows, num_columns := num_columns, pixels := memory }

def SetNumberGrayLevels (im : SphereImage) (gray_levels : ℕ) : SphereImage :=
  { im with num_gray_levels := gray_levels }

/-- `none` is a call of `abort`. -/
def SetPixel (im : SphereImage) (i j : ℕ) (gray_level : ℤ) (ignore : Bool) :
    Option SphereImage :=
  if im.num_rows ≤ i ∨ im.num_columns ≤ j then (if ignore then some im else none)
  else some { im with
    pixels := Function.update im.pixels i (Function.update (im.pixels i) j gray_level) }

def setBrightest (im : SphereImage) (val : ℤ) : SphereImage := { im with brightest := val }

/-! ### Centres -/

/-- The sums of the row and column numbers of some pixels, and how many they are. -/
structure Tally where
  totalX : ℤ := 0
  totalY : ℤ := 0
  count : ℤ := 0

def Tally.add (t : Tally) (p : Pixel) : Tally :=
  ⟨int32 (t.totalX + p.1), int32 (t.totalY + p.2), int32 (t.count + 1)⟩

/-- The loop of `calculateCenterOfBrightest`. -/
def tallyBrightest (im : SphereImage) : Tally :=
  (Image.scan im.num_rows im.num_columns).foldl
    (fun t p => if im.pixels p.1 p.2 = im.brightest then t.add p else t) {}

def calculateCenterOfBrightest (im : SphereImage) : Except Fault SphereImage := do
  let t := im.tallyBrightest
  let brightestX ← divide t.totalX t.count
  let brightestY ← divide t.totalY t.count
  return { im with brightestX := brightestX, brightestY := brightestY }

/-- A tally with the least and the greatest row and column numbers. -/
structure Extent extends Tally where
  minX : ℤ := 99999
  maxX : ℤ := 0
  minY : ℤ := 99999
  maxY : ℤ := 0

def Extent.add (e : Extent) (p : Pixel) : Extent where
  toTally := e.toTally.add p
  minX := if (p.1 : ℤ) < e.minX then p.1 else e.minX
  maxX := if e.maxX < p.1 then p.1 else e.maxX
  minY := if (p.2 : ℤ) < e.minY then p.2 else e.minY
  maxY := if e.maxY < p.2 then p.2 else e.maxY

/-- The loop of `findCenterAndRadius`. -/
def extent (im : SphereImage) : Extent :=
  (Image.scan im.num_rows im.num_columns).foldl
    (fun e p => if im.pixels p.1 p.2 = 255 then e.add p else e) {}

def findCenterAndRadius (im : SphereImage) : Except Fault SphereImage := do
  let e := im.extent
  let centerX ← divide e.totalX e.count
  let centerY ← divide e.totalY e.count
  let diameterX := e.maxX - e.minX
  let diameterY := e.maxY - e.minY
  return { im with
    centerX := centerX, centerY := centerY, radius := (diameterX + diameterY : ℤ) / 4 }

/-- The centre and the radius from the file `data`. The three variables are not
initialised and hold what `junk` does. -/
def readCenter (junk : ℤ × ℤ × ℤ) (data : Istream) (im : SphereImage) : SphereImage :=
  let (centerX, data) := data.extract Scan.int junk.1
  let (centerY, data) := data.extract Scan.int junk.2.1
  let (radius, _) := data.extract Scan.int junk.2.2
  { im with centerX := centerX, centerY := centerY, radius := radius }

/-! ### Reading -/

/-- The next byte, or `EOF`. -/
def fgetc : Text → ℤ × Text
  | [] => (-1, [])
  | c :: input => (c.toNat, input)

/-- What the pixel loop makes of a byte. -/
def level (pgNum threshold byte : ℤ) : ℤ :=
  if pgNum = 1 then (if byte < threshold then 0 else 255) else byte

/-- The pixel loop of `ReadImage`, with the brightest byte so far; `false` is a short
file. -/
def readPixels (pgNum threshold : ℤ) :
    List Pixel → Text → ℤ → SphereImage → Option (Bool × ℤ × SphereImage)
  | [], _, brightest, im => some (true, brightest, im)
  | p :: ps, input, brightest, im =>
    let (byte, input) := fgetc input
    let brightest := if brightest < byte then byte else brightest
    let byte := level pgNum threshold byte
    if byte = -1 then some (false, brightest, im)
    else (im.SetPixel p.1 p.2 byte false).bind fun im =>
      readPixels pgNum threshold ps input brightest im

/-- `ReadImage` from the pixels on. -/
def readBody (pgNum threshold : ℤ) (junk : ℤ × ℤ × ℤ) (data : Istream)
    (num_rows num_columns : ℤ) (input : Text) (im : SphereImage) :
    Except Fault (Bool × SphereImage) := do
  let (ok, brightest, im) ← known
    (readPixels pgNum threshold (Image.scan num_rows.toNat num_columns.toNat) input 0 im)
  if !ok then return (false, im)
  let im ← (im.setBrightest brightest).calculateCenterOfBrightest
  if pgNum = 1 then
    let im ← im.findCenterAndRadius
    return (true, im)
  else if pgNum = 2 then return (true, im.readCenter junk data)
  else return (true, im)

/-- `ReadImage` for the bytes of the file, where `data` is the stream of the file with
the centre and the radius. -/
def ReadImage (memory : ℕ → ℕ → ℤ) (an_image : SphereImage) (pgNum threshold : ℤ)
    (junk : ℤ × ℤ × ℤ) (data : Istream) (file : Text) : Except Fault (Bool × SphereImage) :=
  if file.take 3 ≠ ascii "P5\n" then .ok (false, an_image)
  else do
    let (line, input) ←
      known (GrayImage.skipComments (file.length + 1) (file.take 3) (file.drop 3))
    let (num_columns, rest) ← known (scanInt line)
    let (num_rows, _) ← known (scanInt rest)
    let im ← known (an_image.AllocateSpaceAndSetSize memory
      (GrayImage.size_t num_rows) (GrayImage.size_t num_columns))
    let (line, input) := fgets 1024 line input
    let (levels, _) ← known (scanInt line)
    readBody pgNum threshold junk data num_rows num_columns input
      (im.SetNumberGrayLevels (GrayImage.size_t levels))

/-! ### From the header to the pixels -/

section Header

variable {file bytes : Text} {rows cols levels : ℤ}

theorem readImage_eq (h : GrayImage.header file = some (rows, cols, levels, bytes))
    (memory : ℕ → ℕ → ℤ) (an_image : SphereImage) (pgNum threshold : ℤ) (junk : ℤ × ℤ × ℤ)
    (data : Istream) : ReadImage memory an_image pgNum threshold junk data file =
      (known (an_image.AllocateSpaceAndSetSize memory
        (GrayImage.size_t rows) (GrayImage.size_t cols))).bind fun im =>
          readBody pgNum threshold junk data rows cols bytes
            (im.SetNumberGrayLevels (GrayImage.size_t levels)) := by
  obtain ⟨hmagic, line, input, rest, rest', line', rest'', hskip, hc, hr, hfgets, hl⟩ :=
    GrayImage.header_cases h
  rw [ReadImage, if_neg (not_not.mpr hmagic), hskip]
  simp only [known_bind, hc, hr, hfgets, hl]
  rfl

/-- The image whose pixels are read. -/
def sized (memory : ℕ → ℕ → ℤ) (im : SphereImage) (rows cols levels : ℕ) : SphereImage :=
  { im with num_rows := rows, num_columns := cols, num_gray_levels := levels, pixels := memory }

/-- A size that is not negative can be allocated. -/
theorem readImage_sized {rows cols : ℕ}
    (h : GrayImage.header file = some ((rows : ℤ), (cols : ℤ), levels, bytes))
    (memory : ℕ → ℕ → ℤ) (an_image : SphereImage) (pgNum threshold : ℤ) (junk : ℤ × ℤ × ℤ)
    (data : Istream) : ReadImage memory an_image pgNum threshold junk data file =
      readBody pgNum threshold junk data rows cols bytes
        (an_image.sized memory rows cols (GrayImage.size_t levels)) := by
  obtain ⟨hrows, hcols, -⟩ := GrayImage.header_range h
  rw [readImage_eq h, GrayImage.size_t_natCast (by omega), GrayImage.size_t_natCast (by omega),
    AllocateSpaceAndSetSize, if_neg (by omega)]
  rfl

/-- No array has a negative number of rows. -/
theorem readImage_negative (h : GrayImage.header file = some (rows, cols, levels, bytes))
    (hrows : rows < 0) (memory : ℕ → ℕ → ℤ) (an_image : SphereImage) (pgNum threshold : ℤ)
    (junk : ℤ × ℤ × ℤ) (data : Istream) :
    ReadImage memory an_image pgNum threshold junk data file = .error .undefined := by
  obtain ⟨hrange, -, -⟩ := GrayImage.header_range h
  have hsize : 2 ^ 63 ≤ 8 * GrayImage.size_t rows := by
    unfold GrayImage.size_t
    omega
  rw [readImage_eq h, AllocateSpaceAndSetSize, if_pos (Or.inl hsize)]
  rfl

end Header

/-! ### The pixel loop -/

section Pixels

variable {pgNum threshold : ℤ} {ps : List Pixel} {input : Text} {im im' : SphereImage}

theorem level_byte (pgNum threshold : ℤ) (c : UInt8) : level pgNum threshold c.toNat ≠ -1 := by
  unfold level
  split_ifs <;> omega

theorem level_threshold (threshold byte : ℤ) : level 1 threshold byte ≠ -1 := by
  unfold level
  split_ifs <;> omega

/-- With a threshold the end of the file is a pixel like any other. -/
theorem readPixels_threshold {brightest b : ℤ} :
    readPixels 1 threshold ps input brightest im ≠ some (false, b, im') := by
  induction ps generalizing input brightest im with
  | nil => exact nofun
  | cons p ps ih =>
    rw [readPixels]
    simp only [if_neg (level_threshold _ _)]
    intro h
    obtain ⟨im₁, -, h⟩ := Option.bind_eq_some_iff.mp h
    exact ih h

/-- A pixel is set. -/
def put (im : SphereImage) (p : Pixel) (v : ℤ) : SphereImage :=
  { im with pixels := Function.update im.pixels p.1 (Function.update (im.pixels p.1) p.2 v) }

theorem pixels_put (im : SphereImage) (p q : Pixel) (v : ℤ) :
    (im.put p v).pixels q.1 q.2 = if q = p then v else im.pixels q.1 q.2 :=
  update_update_apply im.pixels p q v

theorem setPixel_eq {p : Pixel} (hp : p.1 < im.num_rows ∧ p.2 < im.num_columns) (v : ℤ) :
    im.SetPixel p.1 p.2 v false = some (im.put p v) :=
  if_neg (by omega)

/-- Without a threshold a short file is noticed. -/
theorem readPixels_short (threshold : ℤ) (im : SphereImage) (hpg : pgNum ≠ 1)
    (hps : ∀ p ∈ ps, p.1 < im.num_rows ∧ p.2 < im.num_columns) (hlen : input.length < ps.length)
    (brightest : ℤ) :
    ∃ b im', readPixels pgNum threshold ps input brightest im = some (false, b, im') := by
  induction ps generalizing input brightest im with
  | nil => simp at hlen
  | cons p ps ih =>
    cases input with
    | nil =>
      have hEOF : level pgNum threshold (-1) = -1 := if_neg hpg
      refine ⟨if brightest < -1 then -1 else brightest, im, ?_⟩
      simp only [readPixels, fgetc, hEOF, if_pos]
      rfl
    | cons c input =>
      simp only [readPixels, fgetc, if_neg (level_byte pgNum threshold c),
        setPixel_eq (hps p (by simp)), Option.bind_some]
      exact ih (im.put p _) (fun q hq => hps q (by simp [hq])) (by simpa using hlen) _

/-- The greatest byte of a text and `b`. -/
def brighter (b : ℤ) (input : Text) : ℤ :=
  input.foldl (fun b c => if b < (c.toNat : ℤ) then (c.toNat : ℤ) else b) b

/-- The pixels of a file that is long enough. -/
theorem readPixels_complete (pgNum threshold : ℤ) (im : SphereImage) (hnd : ps.Nodup)
    (hps : ∀ p ∈ ps, p.1 < im.num_rows ∧ p.2 < im.num_columns)
    (hlen : ps.length ≤ input.length) (b : ℤ) :
    ∃ im', readPixels pgNum threshold ps input b im =
        some (true, brighter b (input.take ps.length), im') ∧
      im'.num_rows = im.num_rows ∧ im'.num_columns = im.num_columns ∧
      (∀ q ∉ ps, im'.pixels q.1 q.2 = im.pixels q.1 q.2) ∧
      (ps.map fun p => im'.pixels p.1 p.2) =
        (input.take ps.length).map fun c => level pgNum threshold c.toNat := by
  induction ps generalizing input b im with
  | nil => exact ⟨im, rfl, rfl, rfl, fun _ _ => rfl, rfl⟩
  | cons p ps ih =>
    obtain ⟨hp, hnd'⟩ := List.nodup_cons.mp hnd
    cases input with
    | nil => simp at hlen
    | cons c input =>
      obtain ⟨im', hread, hrows, hcols, hframe, hpixels⟩ :=
        ih (im.put p (level pgNum threshold c.toNat)) hnd'
          (fun q hq => hps q (by simp [hq])) (Nat.le_of_succ_le_succ hlen)
          (if b < (c.toNat : ℤ) then (c.toNat : ℤ) else b)
      refine ⟨im', ?_, hrows, hcols, fun q hq => ?_, ?_⟩
      · simp only [readPixels, fgetc, if_neg (level_byte pgNum threshold c),
          setPixel_eq (hps p (by simp)), Option.bind_some]
        exact hread
      · obtain ⟨hqp, hqps⟩ := List.ne_and_not_mem_of_not_mem_cons hq
        rw [hframe q hqps, pixels_put, if_neg hqp]
      · rw [List.map_cons, List.length_cons, List.take_succ_cons, List.map_cons, hpixels,
          hframe p hp, pixels_put, if_pos rfl]

end Pixels

/-! ### What `ReadImage` makes of the pixels -/

section Body

/-- The two divisions of a centre fail together. -/
theorem divide_two {α : Type} (a b c : ℤ) (f : ℤ → ℤ → α) :
    (do let x ← divide a c; let y ← divide b c; return f x y) =
      if c = 0 then .error .division_by_zero
      else .ok (f (int32 (a.tdiv c)) (int32 (b.tdiv c))) := by
  unfold divide
  split_ifs <;> rfl

theorem calculateCenterOfBrightest_eq (im : SphereImage) : im.calculateCenterOfBrightest =
    if im.tallyBrightest.count = 0 then .error .division_by_zero
    else .ok { im with
      brightestX := int32 (im.tallyBrightest.totalX.tdiv im.tallyBrightest.count)
      brightestY := int32 (im.tallyBrightest.totalY.tdiv im.tallyBrightest.count) } :=
  divide_two _ _ _ _

theorem findCenterAndRadius_eq (im : SphereImage) : im.findCenterAndRadius =
    if im.extent.count = 0 then .error .division_by_zero
    else .ok { im with
      centerX := int32 (im.extent.totalX.tdiv im.extent.count)
      centerY := int32 (im.extent.totalY.tdiv im.extent.count)
      radius := (im.extent.maxX - im.extent.minX + (im.extent.maxY - im.extent.minY) : ℤ) / 4 } :=
  divide_two _ _ _ _

variable {pgNum threshold rows cols b : ℤ} {junk : ℤ × ℤ × ℤ} {data : Istream} {input : Text}
  {im im₁ : SphereImage}

theorem readBody_short
    (h : readPixels pgNum threshold (Image.scan rows.toNat cols.toNat) input 0 im =
      some (false, b, im₁)) :
    readBody pgNum threshold junk data rows cols input im = .ok (false, im₁) := by
  rw [readBody, h]
  rfl

/-- Once the pixels are read, the counts of the two loops decide. -/
theorem readBody_cases (junk : ℤ × ℤ × ℤ) (data : Istream)
    (h : readPixels pgNum threshold (Image.scan rows.toNat cols.toNat) input 0 im =
      some (true, b, im₁)) :
    (((im₁.setBrightest b).tallyBrightest.count = 0 ∨ pgNum = 1 ∧ im₁.extent.count = 0) ∧
      readBody pgNum threshold junk data rows cols input im = .error .division_by_zero) ∨
    ((im₁.setBrightest b).tallyBrightest.count ≠ 0 ∧ (pgNum = 1 → im₁.extent.count ≠ 0) ∧
      ∃ im', readBody pgNum threshold junk data rows cols input im = .ok (true, im')) := by
  rw [readBody, h, known_bind]
  simp only [Bool.not_true, Bool.false_eq_true, if_false]
  rw [calculateCenterOfBrightest_eq]
  by_cases hcount : (im₁.setBrightest b).tallyBrightest.count = 0
  · rw [if_pos hcount]
    exact Or.inl ⟨Or.inl hcount, rfl⟩
  rw [if_neg hcount]
  by_cases hpg : pgNum = 1
  · -- the extent does not depend on the brightest pixels
    have hsame : ∀ x y, SphereImage.extent
        { im₁.setBrightest b with brightestX := x, brightestY := y } = im₁.extent := fun _ _ => rfl
    simp only [if_pos hpg, findCenterAndRadius_eq, hsame, bind, Except.bind]
    by_cases hextent : im₁.extent.count = 0
    · exact Or.inl ⟨Or.inr ⟨hpg, hextent⟩, by simp only [if_pos hextent]⟩
    · refine Or.inr ⟨hcount, fun _ => hextent, ?_⟩
      simp only [if_neg hextent]
      exact ⟨_, rfl⟩
  · refine Or.inr ⟨hcount, fun h => absurd h hpg, ?_⟩
    simp only [if_neg hpg, bind, Except.bind]
    split_ifs <;> exact ⟨_, rfl⟩

end Body

/-! ### Short files -/

section Short

variable {file bytes : Text} {rows cols levels : ℤ}

/-- With a threshold no file is rejected for its pixels. -/
theorem readImage_threshold (h : GrayImage.header file = some (rows, cols, levels, bytes))
    (memory : ℕ → ℕ → ℤ) (an_image im' : SphereImage) (threshold : ℤ) (junk : ℤ × ℤ × ℤ)
    (data : Istream) :
    ReadImage memory an_image 1 threshold junk data file ≠ .ok (false, im') := by
  rw [readImage_eq h]
  cases an_image.AllocateSpaceAndSetSize memory (GrayImage.size_t rows)
    (GrayImage.size_t cols) with
  | none => exact nofun
  | some im =>
    change readBody 1 threshold junk data rows cols bytes _ ≠ _
    cases hread : readPixels 1 threshold (Image.scan rows.toNat cols.toNat) bytes 0
      (im.SetNumberGrayLevels (GrayImage.size_t levels)) with
    | none =>
      rw [readBody, hread]
      exact nofun
    | some r =>
      obtain ⟨ok, b, im₁⟩ := r
      cases ok with
      | false => exact absurd hread readPixels_threshold
      | true =>
        rcases readBody_cases junk data hread with
          ⟨-, hbody⟩ | ⟨-, -, im₂, hbody⟩ <;> simp [hbody]

/-- A short file is rejected if and only if no threshold is asked for, and the size in the
header is not that of two negative numbers. -/
theorem short_file_rejected_iff (h : GrayImage.header file = some (rows, cols, levels, bytes))
    (hshort : (bytes.length : ℤ) < rows * cols) (memory : ℕ → ℕ → ℤ) (an_image : SphereImage)
    (pgNum threshold : ℤ) (junk : ℤ × ℤ × ℤ) (data : Istream) :
    (∃ im', ReadImage memory an_image pgNum threshold junk data file = .ok (false, im')) ↔
      pgNum ≠ 1 ∧ 0 < rows := by
  constructor
  · rintro ⟨im', hread⟩
    constructor
    · rintro rfl
      exact readImage_threshold h memory an_image im' threshold junk data hread
    · by_contra hrows
      rcases lt_or_eq_of_le (not_lt.mp hrows) with hneg | rfl
      · rw [readImage_negative h hneg] at hread
        cases hread
      · simp at hshort
        omega
  · rintro ⟨hpg, hrows⟩
    have hcols : 0 < cols := pos_of_mul_pos_right (by omega) hrows.le
    lift rows to ℕ using hrows.le
    lift cols to ℕ using hcols.le
    have hlen : bytes.length < (Image.scan rows cols).length := by
      rw [Image.length_scan]
      exact_mod_cast hshort
    obtain ⟨b, im', hpixels⟩ := readPixels_short threshold
      (an_image.sized memory rows cols (GrayImage.size_t levels)) hpg
      (fun p hp => Image.mem_scan.mp hp) hlen 0
    exact ⟨im', (readImage_sized h memory an_image pgNum threshold junk data).trans
      (readBody_short hpixels)⟩

end Short

/-- Two pixels are announced, and one is there. -/
def shortFile : Text := ascii "P5\n2 1\n255\n" ++ [255]

theorem header_shortFile : GrayImage.header shortFile = some (1, 2, 255, [255]) := by
  decide +kernel

theorem short_file_rejected :
    ∃ im', ReadImage (fun _ _ => 0) new 2 0 (0, 0, 0) (Istream.ofText []) shortFile =
      .ok (false, im') :=
  (short_file_rejected_iff header_shortFile (by decide) _ _ _ _ _ _).mpr (by decide)

/-- With a threshold the missing pixel is stored as 0 or 255. -/
theorem short_file_accepted : ¬ ∀ (memory : ℕ → ℕ → ℤ) (an_image : SphereImage)
    (pgNum threshold : ℤ) (junk : ℤ × ℤ × ℤ) (data : Istream) (file bytes : Text)
    (rows cols levels : ℤ), GrayImage.header file = some (rows, cols, levels, bytes) →
      (bytes.length : ℤ) < rows * cols →
        ∃ im', ReadImage memory an_image pgNum threshold junk data file = .ok (false, im') := by
  intro h
  obtain ⟨im', hread⟩ := h (fun _ _ => 0) new 1 100 (0, 0, 0) (Istream.ofText []) shortFile [255]
    1 2 255 header_shortFile (by decide)
  exact readImage_threshold header_shortFile _ _ _ _ _ _ hread

/-! ### The divisors -/

section Count

/-- The count of a loop over pixels. -/
theorem count_foldl {σ : Type*} (count : σ → ℤ) {add : σ → Pixel → σ}
    (hadd : ∀ s p, count (add s p) = int32 (count s + 1)) (P : Pixel → Prop) [DecidablePred P]
    (ps : List Pixel) {s : σ} {k : ℤ} (hs : count s = int32 k) :
    count (ps.foldl (fun s p => if P p then add s p else s) s) = int32 (k + ps.countP P) := by
  induction ps generalizing s k with
  | nil => simpa using hs
  | cons p ps ih =>
    rw [List.foldl_cons, List.countP_cons]
    by_cases hp : P p
    · have hstep : count (add s p) = int32 (k + 1) := by rw [hadd, hs, int32_add_int32]
      rw [if_pos hp, ih hstep]
      simp only [hp, decide_true, if_true]
      congr 1
      push_cast
      ring
    · rw [if_neg hp, ih hs]
      simp [hp]

variable {im : SphereImage} {px : Text} {pgNum threshold : ℤ}

/-- The stored pixels come from the bytes `px`. -/
def Holds (im : SphereImage) (pgNum threshold : ℤ) (px : Text) : Prop :=
  (Image.scan im.num_rows im.num_columns).map (fun p => im.pixels p.1 p.2) =
    px.map fun c => level pgNum threshold c.toNat

theorem Holds.countP (h : im.Holds pgNum threshold px) (v : ℤ) :
    (Image.scan im.num_rows im.num_columns).countP (fun p => im.pixels p.1 p.2 = v) =
      px.countP fun c => level pgNum threshold c.toNat = v := by
  have hcount := congrArg (List.countP fun z => decide (z = v)) h
  rw [List.countP_map, List.countP_map] at hcount
  exact hcount

theorem Holds.tallyBrightest (h : im.Holds pgNum threshold px) : im.tallyBrightest.count =
    int32 (px.countP fun c => level pgNum threshold c.toNat = im.brightest) := by
  rw [← h.countP, SphereImage.tallyBrightest,
    count_foldl Tally.count (fun _ _ => rfl) _ _ (k := 0) rfl, zero_add]

theorem Holds.extent (h : im.Holds pgNum threshold px) : im.extent.count =
    int32 (px.countP fun c => level pgNum threshold c.toNat = 255) := by
  rw [← h.countP, SphereImage.extent,
    count_foldl (fun e : Extent => e.count) (fun _ _ => rfl) _ _ (k := 0) rfl, zero_add]

end Count

section Divisors

variable {px : Text} {pgNum threshold : ℤ}

theorem brighter_spec (b : ℤ) (px : Text) : b ≤ brighter b px ∧
    (∀ c ∈ px, (c.toNat : ℤ) ≤ brighter b px) ∧
    (brighter b px = b ∨ ∃ c ∈ px, brighter b px = c.toNat) := by
  induction px generalizing b with
  | nil => exact ⟨le_rfl, by simp, Or.inl rfl⟩
  | cons c px ih =>
    have hcons : brighter b (c :: px) =
        brighter (if b < (c.toNat : ℤ) then (c.toNat : ℤ) else b) px := rfl
    rw [hcons]
    obtain ⟨hle, hmem, hcases⟩ := ih (if b < (c.toNat : ℤ) then (c.toNat : ℤ) else b)
    refine ⟨?_, ?_, ?_⟩
    · split_ifs at hle ⊢ <;> omega
    · rintro d (_ | ⟨_, hd⟩)
      · split_ifs at hle ⊢ <;> omega
      · exact hmem d hd
    · rcases hcases with h | ⟨d, hd, h⟩
      · rw [h]
        split_ifs
        · exact Or.inr ⟨c, by simp, rfl⟩
        · exact Or.inl rfl
      · exact Or.inr ⟨d, by simp [hd], h⟩

/-- The brightest byte of a picture with pixels. -/
theorem brighter_eq (hpx : px ≠ []) :
    ∃ c ∈ px, (∀ d ∈ px, d ≤ c) ∧ brighter 0 px = c.toNat := by
  obtain ⟨-, hmem, hcases⟩ := brighter_spec 0 px
  have hgreatest : ∀ c ∈ px, brighter 0 px = c.toNat → ∀ d ∈ px, d ≤ c := by
    intro c _ hc d hd
    have := hmem d hd
    rw [UInt8.le_iff_toNat_le]
    omega
  rcases hcases with hzero | ⟨c, hc, heq⟩
  · -- nothing is brighter than 0, the first pixel neither
    obtain ⟨c, rest, rfl⟩ := List.exists_cons_of_ne_nil hpx
    have hc : c ∈ c :: rest := by simp
    have heq : brighter 0 (c :: rest) = c.toNat := by
      have := hmem c hc
      omega
    exact ⟨c, hc, hgreatest c hc heq, heq⟩
  · exact ⟨c, hc, hgreatest c hc heq, heq⟩

/-- The divisors of a picture with the bytes `px` are not zero. -/
def CountsNonzero (pgNum threshold : ℤ) (px : Text) : Prop :=
  if pgNum = 1 then
    255 ∈ px ∧ ¬ 2 ^ 32 ∣ px.countP fun c => threshold ≤ (c.toNat : ℤ)
  else ∃ c ∈ px, (∀ d ∈ px, d ≤ c) ∧ ¬ 2 ^ 32 ∣ px.count c

theorem int32_count {n : ℕ} : int32 n ≠ 0 ↔ ¬ 2 ^ 32 ∣ n := by
  rw [Ne, int32_eq_zero, not_iff_not]
  exact_mod_cast Iff.rfl

/-- Without a threshold the brightest pixels are counted. -/
theorem counts_raw (hpg : pgNum ≠ 1) (hpx : px ≠ []) :
    int32 (px.countP fun c => level pgNum threshold c.toNat = brighter 0 px) ≠ 0 ↔
      CountsNonzero pgNum threshold px := by
  obtain ⟨c, hc, hgreatest, hbright⟩ := brighter_eq hpx
  have hcount : (px.countP fun d => level pgNum threshold d.toNat = brighter 0 px) =
      px.count c := by
    refine List.countP_congr fun d _ => ?_
    rw [hbright, level, if_neg hpg]
    simp [← UInt8.toNat_inj]
  rw [CountsNonzero, if_neg hpg, hcount, int32_count]
  constructor
  · exact fun h => ⟨c, hc, hgreatest, h⟩
  · rintro ⟨d, hd, hgreatest', h⟩
    rwa [UInt8.le_antisymm (hgreatest' c hc) (hgreatest d hd)]

theorem level_eq_255 (threshold : ℤ) (c : UInt8) :
    level 1 threshold c.toNat = 255 ↔ threshold ≤ c.toNat := by
  unfold level
  rw [if_pos rfl]
  split_ifs <;> omega

/-- With a threshold two counts must not be zero: that of the pixels that are as bright
as the brightest byte, and that of the pixels that are 255. -/
theorem counts_threshold (hpx : px ≠ []) :
    int32 (px.countP fun c => level 1 threshold c.toNat = brighter 0 px) ≠ 0 ∧
      int32 (px.countP fun c => level 1 threshold c.toNat = 255) ≠ 0 ↔
        CountsNonzero 1 threshold px := by
  obtain ⟨c, hc, hgreatest, hbright⟩ := brighter_eq hpx
  have hbyte : ∀ d ∈ px, d.toNat ≤ c.toNat := fun d hd => UInt8.le_iff_toNat_le.mp (hgreatest d hd)
  have hexists : ∀ P : UInt8 → Bool, ¬ 2 ^ 32 ∣ px.countP P → ∃ d ∈ px, P d = true := by
    intro P hP
    by_contra hnone
    push Not at hnone
    rw [List.countP_eq_zero.mpr hnone] at hP
    exact hP (dvd_zero _)
  rw [CountsNonzero, if_pos rfl]
  simp only [level_eq_255, int32_count, hbright]
  constructor
  · rintro ⟨hbrightest, hwhite⟩
    refine ⟨?_, hwhite⟩
    obtain ⟨d, hd, hdlevel⟩ := hexists _ hbrightest
    obtain ⟨e, he, hwhite⟩ := hexists _ hwhite
    have hdlevel := of_decide_eq_true hdlevel
    have hwhite := of_decide_eq_true hwhite
    rw [level, if_pos rfl] at hdlevel
    split_ifs at hdlevel with hdark
    · -- a brightest byte of 0 leaves no pixel for the threshold
      have := hbyte e he
      omega
    · have hc255 : c = 255 := UInt8.toNat_inj.mp (by
        change c.toNat = 255
        omega)
      rwa [← hc255]
  · rintro ⟨hmem, hwhite⟩
    have hc255 : c.toNat = 255 := by
      have h1 := hbyte 255 hmem
      have h2 := c.toNat_lt
      change 255 ≤ c.toNat at h1
      omega
    refine ⟨?_, hwhite⟩
    rw [hc255]
    simpa only [Nat.cast_ofNat, level_eq_255] using hwhite

end Divisors

/-- A complete file with a pixel is read without a division by zero if and only if the
counts are not multiples of `2 ^ 32`: with a threshold some byte must be 255. -/
theorem no_division_by_zero_iff (f : P5File) (hpos : 0 < f.rows * f.cols)
    (memory : ℕ → ℕ → ℤ) (an_image : SphereImage) (pgNum threshold : ℤ) (junk : ℤ × ℤ × ℤ)
    (data : Istream) :
    ReadImage memory an_image pgNum threshold junk data f.text ≠ .error .division_by_zero ↔
      CountsNonzero pgNum threshold (f.bytes.take (f.rows * f.cols)) := by
  have hscan : (Image.scan f.rows f.cols).Nodup := Image.nodup_scan f.rows f.cols
  obtain ⟨im, hread, hrows, hcols, -, hpixels⟩ := readPixels_complete pgNum threshold
    (an_image.sized memory f.rows f.cols (GrayImage.size_t f.levels)) hscan
    (fun p hp => Image.mem_scan.mp hp) ((Image.length_scan _ _).trans_le f.complete) 0
  rw [Image.length_scan] at hread hpixels
  set px := f.bytes.take (f.rows * f.cols) with hpx
  have hne : px ≠ [] := by
    rw [hpx]
    have := f.complete
    exact List.ne_nil_of_length_pos (by rw [List.length_take]; omega)
  have hholds : im.Holds pgNum threshold px := by
    rw [Holds, hrows, hcols]
    exact hpixels
  have hholds' : (im.setBrightest (brighter 0 px)).Holds pgNum threshold px := hholds
  have hread' : readPixels pgNum threshold
      (Image.scan (f.rows : ℤ).toNat (f.cols : ℤ).toNat) f.bytes 0
        (an_image.sized memory f.rows f.cols (GrayImage.size_t f.levels)) =
      some (true, brighter 0 px, im) := hread
  have hcases := readBody_cases junk data hread'
  rw [hholds'.tallyBrightest, hholds.extent] at hcases
  change (int32 (px.countP fun c => level pgNum threshold c.toNat = brighter 0 px) = 0 ∨ _) ∧ _ ∨
    int32 (px.countP fun c => level pgNum threshold c.toNat = brighter 0 px) ≠ 0 ∧ _ at hcases
  rw [readImage_sized f.header_eq]
  have hcounts : CountsNonzero pgNum threshold px ↔
      int32 (px.countP fun c => level pgNum threshold c.toNat = brighter 0 px) ≠ 0 ∧
        (pgNum = 1 → int32 (px.countP fun c => level pgNum threshold c.toNat = 255) ≠ 0) := by
    by_cases hpg : pgNum = 1
    · subst hpg
      rw [← counts_threshold hne]
      simp
    · rw [← counts_raw hpg hne]
      simp [hpg]
  rw [hcounts]
  rcases hcases with ⟨hzero, hbody⟩ | ⟨hbright, hwhite, im', hbody⟩
  · rw [hbody]
    refine iff_of_false (fun h => h rfl) ?_
    rintro ⟨hbright, hwhite⟩
    rcases hzero with hzero | ⟨hpg, hzero⟩
    · exact hbright hzero
    · exact hwhite hpg hzero
  · rw [hbody]
    exact iff_of_true nofun ⟨hbright, hwhite⟩

theorem no_division_by_zero_raw : ReadImage (fun _ _ => 0) new 2 0 (0, 0, 0)
    (Istream.ofText []) P5File.twoColumns.text ≠ .error .division_by_zero :=
  (no_division_by_zero_iff P5File.twoColumns (by decide) _ _ _ _ _ _).mpr
    ⟨60, by decide, by decide +kernel, by decide +kernel⟩

/-- One pixel of 7 that passes the threshold is stored as 255, and no stored pixel is 7. -/
theorem threshold_divides_by_zero : ¬ ∀ (f : P5File), 0 < f.rows * f.cols →
    ∀ (memory : ℕ → ℕ → ℤ) (an_image : SphereImage) (pgNum threshold : ℤ) (junk : ℤ × ℤ × ℤ)
      (data : Istream), ReadImage memory an_image pgNum threshold junk data f.text ≠
        .error .division_by_zero := by
  intro h
  apply h P5File.onePixel (by decide) (fun _ _ => 0) new 1 5 (0, 0, 0) (Istream.ofText [])
  rfl

end SphereImage

end SchoolProjects.Vision
