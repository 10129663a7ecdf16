import SchoolProjects.Lib.MachineInt
import SchoolProjects.Lib.Text
import SchoolProjects.Vision.HandOff
import SchoolProjects.Vision.Provisional

/-! Images in files (`ReadImage` and `WriteImage` of `image.cc`): a header of text
lines, and after it one byte for each pixel. What is written is read back, whatever
the pixels look like as text. Memory is not bounded, so an allocation fails only for
a size no array can have. A result `none` is an exception, or a number that `sscanf`
does not set. -/

namespace SchoolProjects.Vision

open Text

/-- `class Image` with the number of gray levels. -/
structure GrayImage extends Image where
  num_gray_levels : ℕ

namespace GrayImage

/-- `Image()`. -/
def new : GrayImage := ⟨⟨0, 0, fun _ _ => 0, fun _ => none, fun _ _ => 0, 0, .empty⟩, 0⟩

/-- Conversion to `size_t`. -/
def size_t (z : ℤ) : ℕ := (z % 2 ^ 64).toNat

/-- `AllocateSpaceAndSetSize`, after `DeallocateSpace` where there is something to
release. The new arrays hold whatever `memory` does; `objects` and `labelChart` are
kept. `new` throws for an array of more than `2 ^ 63` bytes. -/
def AllocateSpaceAndSetSize (memory : ℕ → ℕ → ℤ) (im : GrayImage) (num_rows num_columns : ℕ) :
    Option GrayImage :=
  if 2 ^ 63 ≤ 8 * num_rows ∨ (0 < num_rows ∧ 2 ^ 63 ≤ 4 * num_columns) then none
  else some { im with
    num_rows := num_rows, num_columns := num_columns,
    pixels := memory, labels := memory, labelCount := 0 }

def SetNumberGrayLevels (im : GrayImage) (gray_levels : ℕ) : GrayImage :=
  { im with num_gray_levels := gray_levels }

/-- `do fgets(line, sizeof line, input); while(*line == '#');`. At the end of the file
the line stays, so a comment there is read for ever. -/
def skipComments : ℕ → Text → Text → Option (Text × Text)
  | 0, _, _ => none
  | fuel + 1, line, input =>
    let (line, input) := fgets 1024 line input
    if line.head? = some 35 then skipComments fuel line input else some (line, input)

/-- `ReadImage` for the bytes of the file. -/
def ReadImage (memory : ℕ → ℕ → ℤ) (an_image : GrayImage) (p2Flag : Bool) (file : Text)
    (int : ℤ → ℤ := int32) : Option (Bool × GrayImage) :=
  if file.take 3 ≠ ascii "P5\n" then some (false, an_image)
  else do
    let (line, input) ← skipComments (file.length + 1) (file.take 3) (file.drop 3)
    let (num_columns, rest) ← scanInt line
    let (num_rows, _) ← scanInt rest
    let im ← an_image.AllocateSpaceAndSetSize memory (size_t num_rows) (size_t num_columns)
    let (line, input) := fgets 1024 line input
    let (levels, _) ← scanInt line
    let im := im.SetNumberGrayLevels (size_t levels)
    let (ok, image) ← Image.readPixels p2Flag
      (Image.scan num_rows.toNat num_columns.toNat) input im.toImage int
    return (ok, { im with toImage := image })

/-- The bytes `WriteImage` writes. -/
def WriteImage (an_image : GrayImage) (threshold : ℤ) (p1Flag p2Flag : Bool) : Text :=
  let num_rows := int32 an_image.num_rows
  let num_columns := int32 an_image.num_columns
  let colors := int32 an_image.num_gray_levels
  ascii "P5\n" ++ ascii "#\n" ++
    (format 0 num_columns ++ ascii " " ++ format 0 num_rows ++ ascii "\n" ++
      format 3 colors ++ ascii "\n") ++
    Image.WriteImage { an_image.toImage with
      num_rows := num_rows.toNat, num_columns := num_columns.toNat } threshold p1Flag p2Flag

/-! ### Headers -/

/-- Rows, columns, gray levels and pixels of a file whose header `ReadImage` accepts. -/
def header (file : Text) : Option (ℤ × ℤ × ℤ × Text) :=
  if file.take 3 ≠ ascii "P5\n" then none
  else do
    let (line, input) ← skipComments (file.length + 1) (file.take 3) (file.drop 3)
    let (num_columns, rest) ← scanInt line
    let (num_rows, _) ← scanInt rest
    let (line, input) := fgets 1024 line input
    let (levels, _) ← scanInt line
    return (num_rows, num_columns, levels, input)

/-- A header that is accepted, line by line. -/
theorem header_cases {file bytes : Text} {rows cols levels : ℤ}
    (h : header file = some (rows, cols, levels, bytes)) : file.take 3 = ascii "P5\n" ∧
      ∃ line input rest rest' line' rest'',
        skipComments (file.length + 1) (file.take 3) (file.drop 3) = some (line, input) ∧
        scanInt line = some (cols, rest) ∧ scanInt rest = some (rows, rest') ∧
        fgets 1024 line input = (line', bytes) ∧ scanInt line' = some (levels, rest'') := by
  unfold header at h
  by_cases hmagic : file.take 3 ≠ ascii "P5\n"
  · rw [if_pos hmagic] at h
    cases h
  rw [if_neg hmagic] at h
  obtain ⟨⟨line, input⟩, hskip, h⟩ := Option.bind_eq_some_iff.mp h
  obtain ⟨⟨c, rest⟩, hc, h⟩ := Option.bind_eq_some_iff.mp h
  obtain ⟨⟨r, rest'⟩, hr, h⟩ := Option.bind_eq_some_iff.mp h
  rcases hfgets : fgets 1024 line input with ⟨line', input'⟩
  simp only [hfgets] at h
  obtain ⟨⟨l, rest''⟩, hl, h⟩ := Option.bind_eq_some_iff.mp h
  obtain ⟨rfl, rfl, rfl, rfl⟩ : r = rows ∧ c = cols ∧ l = levels ∧ input' = bytes := by
    simpa using h
  exact ⟨not_not.mp hmagic, line, input, rest, rest', line', rest'', hskip, hc, hr, hfgets, hl⟩

section Read

variable {file bytes : Text} {rows cols : ℕ} {levels : ℤ}

theorem size_t_natCast {n : ℕ} (hn : n < 2 ^ 64) : size_t n = n := by
  unfold size_t
  omega

theorem scanInt_lt {t rest : Text} {n : ℕ} (h : scanInt t = some ((n : ℤ), rest)) :
    n < 2 ^ 31 := by
  have hrange := (scanInt_range h).2
  omega

/-- The image whose pixels are read. -/
def sized (memory : ℕ → ℕ → ℤ) (im : GrayImage) (rows cols : ℕ) : Image :=
  { im.toImage with
    num_rows := rows, num_columns := cols, pixels := memory, labels := memory, labelCount := 0 }

/-- `ReadImage` from the header on. -/
theorem readImage_eq (h : header file = some ((rows : ℤ), (cols : ℤ), levels, bytes))
    (memory : ℕ → ℕ → ℤ) (im : GrayImage) (p2Flag : Bool) {int : ℤ → ℤ} :
    ReadImage memory im p2Flag file int =
      (Image.readPixels p2Flag (Image.scan rows cols) bytes (im.sized memory rows cols) int).map
        fun r => (r.1, ⟨r.2, size_t levels⟩) := by
  obtain ⟨hmagic, line, input, rest, rest', line', rest'', hskip, hc, hr, hfgets, hl⟩ :=
    header_cases h
  have hcols := scanInt_lt hc
  have hrows := scanInt_lt hr
  have halloc : im.AllocateSpaceAndSetSize memory (size_t rows) (size_t cols) =
      some ⟨im.sized memory rows cols, im.num_gray_levels⟩ := by
    rw [size_t_natCast (by omega), size_t_natCast (by omega)]
    exact if_neg (by omega)
  rw [ReadImage, if_neg (not_not.mpr hmagic), hskip]
  simp only [Option.bind_eq_bind, Option.bind_some, hc, hr, halloc, hfgets, hl]
  cases hread : Image.readPixels p2Flag (Image.scan rows cols) bytes
    (im.sized memory rows cols) int with
  | none => simp [SetNumberGrayLevels, hread]
  | some r => simp [SetNumberGrayLevels, hread]

end Read

/-! ### What is written is read -/

section Write

variable {im target : GrayImage} {rows cols : ℕ} {bytes : Text} {int : ℤ → ℤ}

/-- The state of the pixel loop of `ReadImage` without labels, as far as the picture
goes. -/
structure Stored (rows cols : ℕ) (bytes : Text) (done : List Pixel) (im : Image) : Prop where
  num_rows : im.num_rows = rows
  num_columns : im.num_columns = cols
  pixels : ∀ p ∈ done, im.pixels p.1 p.2 = (Image.pixelByte cols bytes p).toNat

theorem Stored.step {done rest : List Pixel} {p : Pixel} {im : Image}
    (hscan : Image.scan rows cols = done ++ p :: rest) {byte : UInt8}
    (hbyte : bytes[done.length]? = some byte) (h : Stored rows cols bytes done im) :
    ∃ im', im.readPixel false p byte int = some im' ∧ Stored rows cols bytes (done ++ [p]) im' := by
  obtain ⟨hi, hj⟩ := Image.pixel_mem hscan
  have hset := Image.SetPixel_eq (byte.toNat : ℤ) (h.num_rows.symm ▸ hi) (h.num_columns.symm ▸ hj)
  have hpix := Image.pixels_step hscan hbyte h.pixels
  simp only [Image.readPixel, hset, Option.bind_some, Bool.false_eq_true, if_false,
    Option.map_some]
  split_ifs
  · exact ⟨_, rfl, h.num_rows, h.num_columns, hpix⟩
  · exact ⟨_, rfl, h.num_rows, h.num_columns, hpix⟩

/-- The pixels of a file that is long enough, read with or without labels. -/
theorem readPixels_stored (memory : ℕ → ℕ → ℤ) (p2Flag : Bool)
    (hsane : p2Flag = true → target.labelChart.Sane) (hlen : rows * cols ≤ bytes.length) :
    ∃ im', Image.readPixels p2Flag (Image.scan rows cols) bytes (target.sized memory rows cols)
      int = some (true, im') ∧ Stored rows cols bytes (Image.scan rows cols) im' := by
  cases p2Flag with
  | true =>
    have hsized : (target.sized memory rows cols).labelChart.Sane := hsane rfl
    obtain ⟨im', hread, h⟩ := Image.readPixels_follows rfl rfl rfl hsized hlen
    exact ⟨im', hread, h.num_rows, h.num_columns, h.pixels⟩
  | false =>
    apply Image.readPixels_loop (Stored rows cols bytes)
    · exact ⟨rfl, rfl, by simp⟩
    · rwa [Image.length_scan]
    · exact fun done p rest im byte hscan hbyte h => h.step hscan hbyte

/-- The first line after the magic number is a comment, the second gives the size. -/
theorem skipComments_size {fuel : ℕ} {body : Text} (hbody : ∀ c ∈ body, c ≠ 10)
    (hlen : body.length + 1 < 1024) (hhead : (body ++ [10]).head? ≠ some 35) (line rest : Text) :
    skipComments (fuel + 2) line ([35] ++ 10 :: (body ++ 10 :: rest)) =
      some (body ++ [10], rest) := by
  have hcomment : ∀ c ∈ ([35] : Text), c ≠ 10 := fun c hc => by
    rw [List.mem_singleton.mp hc]
    decide
  rw [skipComments, fgets_line hcomment (by norm_num)]
  simp only [List.cons_append, List.head?_cons, if_true]
  rw [skipComments, fgets_line hbody hlen]
  simp only [if_neg hhead]

theorem digit_ne {c : UInt8} (hc : isdigit c = true) : c ≠ 10 ∧ c ≠ 35 := by
  constructor <;> rintro rfl <;> simp [isdigit] at hc

theorem stops_newline (rest : Text) : Stops (10 :: rest) := fun c hc => by
  obtain rfl := Option.some.inj hc
  rfl

/-- The line with the columns and rows, without its newline. -/
def sizeLine (cols rows : ℕ) : Text := format 0 cols ++ 32 :: format 0 rows

theorem sizeLine_ne (cols rows : ℕ) {c : UInt8} (hc : c ∈ sizeLine cols rows) : c ≠ 10 := by
  rcases List.mem_append.mp hc with hc | hc
  · exact (digit_ne (isdigit_of_mem_format hc)).1
  · rcases List.mem_cons.mp hc with rfl | hc
    · decide
    · exact (digit_ne (isdigit_of_mem_format hc)).1

theorem length_sizeLine (hcols : cols < 2 ^ 31) (hrows : rows < 2 ^ 31) :
    (sizeLine cols rows).length + 1 < 1024 := by
  have h1 : (format 0 cols).length ≤ max 0 10 := length_format (by norm_num) (by omega)
  have h2 : (format 0 rows).length ≤ max 0 10 := length_format (by norm_num) (by omega)
  simp only [sizeLine, List.length_append, List.length_cons]
  omega

/-- The line with the size does not look like a comment. -/
theorem head_sizeLine (cols rows : ℕ) : (sizeLine cols rows ++ [10]).head? ≠ some 35 := by
  obtain ⟨c, t, hc⟩ := List.exists_cons_of_ne_nil (format_ne_nil 0 cols)
  have hdigit : isdigit c = true := isdigit_of_mem_format (by rw [hc]; simp)
  simpa [sizeLine, hc] using (digit_ne hdigit).2

theorem scan_sizeLine (hcols : cols < 2 ^ 31) (hrows : rows < 2 ^ 31) :
    scanInt (sizeLine cols rows ++ [10]) = some ((cols : ℤ), 32 :: (format 0 rows ++ [10])) ∧
      scanInt (32 :: (format 0 rows ++ [10])) = some ((rows : ℤ), [10]) := by
  constructor
  · rw [sizeLine, List.append_assoc, List.cons_append]
    apply scanInt_format 0 hcols
    intro c hc
    obtain rfl := Option.some.inj hc
    rfl
  · rw [scanInt, number_blank rfl]
    exact scanInt_format 0 hrows (stops_newline [])

/-- The text of a file that is written. -/
theorem writeImage_text (hrows : im.num_rows < 2 ^ 31) (hcols : im.num_columns < 2 ^ 31)
    {colors : ℤ} (hcolors : int32 im.num_gray_levels = colors) (threshold : ℤ)
    (p1Flag p2Flag : Bool) :
    im.WriteImage threshold p1Flag p2Flag =
      ascii "P5\n" ++ ([35] ++ 10 :: (sizeLine im.num_columns im.num_rows ++
        10 :: (format 3 colors ++
          10 :: Image.WriteImage im.toImage threshold p1Flag p2Flag))) := by
  have hint : ∀ n : ℕ, n < 2 ^ 31 → int32 n = n := fun n hn =>
    int32_of_range (by omega) (by exact_mod_cast hn)
  unfold WriteImage sizeLine
  simp only [hint _ hrows, hint _ hcols, hcolors, Int.toNat_natCast, List.append_assoc]
  rfl

/-- The line with the gray levels: nothing in it ends the line, and it is short. -/
theorem levelsLine {z : ℤ} (h0 : -2 ^ 31 ≤ z) (h1 : z < 2 ^ 31) :
    (∀ c ∈ format 3 z, c ≠ 10) ∧ (format 3 z).length + 1 < 1024 := by
  have hdigits : ∀ (width n : ℕ), ∀ c ∈ format width (n : ℤ), c ≠ 10 := fun width n c hc =>
    (digit_ne (isdigit_of_mem_format hc)).1
  rcases le_or_gt 0 z with hz | hz
  · obtain ⟨n, rfl⟩ := Int.eq_ofNat_of_zero_le hz
    have hlen : (format 3 n).length ≤ max 3 10 := length_format (by norm_num) (by omega)
    exact ⟨hdigits 3 n, by omega⟩
  · have hlen : (format (3 - 1) (z.natAbs : ℤ)).length ≤ max (3 - 1) 10 :=
      length_format (by norm_num) (by omega)
    rw [format_neg 3 hz]
    refine ⟨fun c hc => ?_, by rw [List.length_cons]; omega⟩
    rcases List.mem_cons.mp hc with rfl | hc
    · decide
    · exact hdigits _ _ c hc

/-- The header of a file that was written. -/
theorem header_written (hrows : im.num_rows < 2 ^ 31) (hcols : im.num_columns < 2 ^ 31)
    {colors : ℤ} (hcolors : int32 im.num_gray_levels = colors) (threshold : ℤ)
    (p1Flag p2Flag : Bool) :
    header (im.WriteImage threshold p1Flag p2Flag) =
      some ((im.num_rows : ℤ), (im.num_columns : ℤ), colors,
        Image.WriteImage im.toImage threshold p1Flag p2Flag) := by
  obtain ⟨-, hlow, hhigh⟩ := int32_eq_iff.mp hcolors
  obtain ⟨hcolors_ne, hcolors_len⟩ := levelsLine hlow hhigh
  have hscan_levels : scanInt (format 3 colors ++ [10]) = some (colors, [10]) :=
    scanInt_format_int 3 hlow hhigh (stops_newline [])
  obtain ⟨hscan_cols, hscan_rows⟩ := scan_sizeLine hcols hrows
  have htext := writeImage_text hrows hcols hcolors threshold p1Flag p2Flag
  set file := im.WriteImage threshold p1Flag p2Flag with hfile
  have hmagic : file.take 3 = ascii "P5\n" := by
    rw [htext]
    rfl
  have hdrop : file.drop 3 = [35] ++ 10 :: (sizeLine im.num_columns im.num_rows ++
      10 :: (format 3 colors ++
        10 :: Image.WriteImage im.toImage threshold p1Flag p2Flag)) := by
    rw [htext]
    rfl
  have hfuel : file.length + 1 = (file.length - 1) + 2 := by
    have : 1 ≤ file.length := by
      rw [htext]
      simp only [List.length_append, List.length_cons]
      omega
    omega
  unfold header
  rw [hfuel, hmagic, hdrop, if_neg (not_not.mpr rfl), skipComments_size
    (fun c hc => sizeLine_ne _ _ hc) (length_sizeLine hcols hrows) (head_sizeLine _ _)]
  simp only [Option.bind_eq_bind, Option.bind_some, hscan_cols, hscan_rows,
    fgets_line hcolors_ne hcolors_len, hscan_levels]
  rfl

theorem header_writeImage (hrows : im.num_rows < 2 ^ 31) (hcols : im.num_columns < 2 ^ 31)
    (hlevels : im.num_gray_levels < 2 ^ 31) (threshold : ℤ) (p1Flag p2Flag : Bool) :
    header (im.WriteImage threshold p1Flag p2Flag) =
      some ((im.num_rows : ℤ), (im.num_columns : ℤ), (im.num_gray_levels : ℤ),
        Image.WriteImage im.toImage threshold p1Flag p2Flag) :=
  header_written hrows hcols (int32_of_range (by omega) (by exact_mod_cast hlevels)) threshold
    p1Flag p2Flag

/-- A picture of bytes, written and read back, keeps its size, its gray levels and its
pixels. -/
theorem readImage_writeImage (memory : ℕ → ℕ → ℤ) (im target : GrayImage) (threshold : ℤ)
    (p2Flag : Bool) (hrows : im.num_rows < 2 ^ 31) (hcols : im.num_columns < 2 ^ 31)
    (hlevels : im.num_gray_levels < 2 ^ 31)
    (hpixels : ∀ i j, i < im.num_rows → j < im.num_columns →
      0 ≤ im.pixels i j ∧ im.pixels i j ≤ 255)
    (hsane : p2Flag = true → target.labelChart.Sane) :
    ∃ im', ReadImage memory target p2Flag (im.WriteImage threshold false false) =
        some (true, im') ∧
      im'.num_rows = im.num_rows ∧ im'.num_columns = im.num_columns ∧
      im'.num_gray_levels = im.num_gray_levels ∧
      ∀ i j, i < im.num_rows → j < im.num_columns → im'.pixels i j = im.pixels i j := by
  have hlen : im.num_rows * im.num_columns ≤
      (Image.WriteImage im.toImage threshold false false).length := by
    rw [Image.WriteImage, List.length_map, Image.length_scan]
  obtain ⟨im', hread, h⟩ := readPixels_stored memory p2Flag hsane hlen
  refine ⟨⟨im', im.num_gray_levels⟩, ?_, h.num_rows, h.num_columns, rfl, fun i j hi hj => ?_⟩
  · rw [readImage_eq (header_writeImage hrows hcols hlevels threshold false false), hread,
      size_t_natCast (by omega)]
    rfl
  · have hbyte : Image.pixelByte im.num_columns
        (Image.WriteImage im.toImage threshold false false) (i, j) =
          Image.fputc (im.pixels i j) := by
      simp [Image.pixelByte, Image.WriteImage, Image.scan_getElem? (p := (i, j)) hi hj]
    obtain ⟨h0, h255⟩ := hpixels i j hi hj
    rw [h.pixels (i, j) (Image.mem_scan.mpr ⟨hi, hj⟩), hbyte, Image.toNat_fputc]
    omega

/-- Three pixels that look like text: a newline, the sign of a comment, and `0xFF`. -/
def sample : GrayImage :=
  { new with
    num_rows := 1, num_columns := 3, num_gray_levels := 7
    pixels := fun _ j => [10, 35, 255].getD j 0 }

theorem readImage_writeImage_sample : ∃ im',
    ReadImage (fun _ _ => 0) new true (sample.WriteImage 0 false false) = some (true, im') ∧
      im'.num_rows = 1 ∧ im'.num_columns = 3 ∧ im'.num_gray_levels = 7 ∧
      ∀ i j, i < 1 → j < 3 → im'.pixels i j = sample.pixels i j :=
  readImage_writeImage _ sample new 0 true (by decide +kernel) (by decide +kernel)
    (by decide +kernel) (fun i j _ hj => by
      have hj : j < 3 := hj
      interval_cases j <;> simp [sample]) fun _ => UnionFind.empty_sane

example : sample.WriteImage 0 false false = ascii "P5\n#\n3 1\n007\n" ++ [10, 35, 255] := by
  decide +kernel

end Write

end GrayImage

/-- A complete P5 file: a header, and a byte for each pixel. -/
structure P5File where
  text : Text
  rows : ℕ
  cols : ℕ
  levels : ℤ
  bytes : Text
  header_eq : GrayImage.header text = some ((rows : ℤ), (cols : ℤ), levels, bytes)
  complete : rows * cols ≤ bytes.length

end SchoolProjects.Vision
