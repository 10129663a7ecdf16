import SchoolProjects.Lib.Lines
import SchoolProjects.Lib.Loop
import SchoolProjects.Vision.Pgm

/-! The comment lines of a P5 file. The three programs skip them with the same loop:
`fgets` fills a buffer of 1024 bytes until the first byte in it is no `#`. Neither the
end of the file nor a line longer than the buffer is looked at, so the loop runs for
ever when the file ends among the comments, and the rest of a long comment is taken for
the line with the size. -/

namespace SchoolProjects.Vision

open Text Loop

namespace Image

variable {im im' : Image} {p2Flag ok : Bool} {ps : List (ℕ × ℕ)} {bytes bytes' : Text}
  {int : ℤ → ℤ}

/-- The size, the pixels and the records are kept. -/
structure Kept (im im' : Image) : Prop where
  num_rows : im'.num_rows = im.num_rows
  num_columns : im'.num_columns = im.num_columns
  pixels : im'.pixels = im.pixels
  objects : im'.objects = im.objects

theorem assignLabel_kept {i j : ℕ} {top left diag : ℤ}
    (h : im.assignLabel i j top left diag = some im') : Kept im im' := by
  unfold assignLabel at h
  split_ifs at h
  · obtain ⟨r, -, rfl⟩ := Option.map_eq_some_iff.mp h
    exact ⟨rfl, rfl, rfl, rfl⟩
  · obtain rfl := Option.some.inj h
    exact ⟨rfl, rfl, rfl, rfl⟩
  · obtain rfl := Option.some.inj h
    exact ⟨rfl, rfl, rfl, rfl⟩
  · obtain rfl := Option.some.inj h
    exact ⟨rfl, rfl, rfl, rfl⟩
  · obtain ⟨r, -, rfl⟩ := Option.map_eq_some_iff.mp h
    exact ⟨rfl, rfl, rfl, rfl⟩
  · obtain rfl := Option.some.inj h
    exact ⟨rfl, rfl, rfl, rfl⟩

/-- Labels are all that a label changes. -/
theorem setLabel_kept {i j : ℕ} {gray_level : ℤ} (h : im.setLabel i j gray_level = some im') :
    Kept im im' := by
  obtain ⟨k, count, hclear, -⟩ := clearLabel_eq im i j gray_level
  unfold setLabel at h
  rw [hclear] at h
  split_ifs at h
  · have h' : (im.assigned i j k count im.labelChart).assignLabel i j _ _ _ = some im' := h
    have hkept := assignLabel_kept h'
    exact ⟨hkept.num_rows, hkept.num_columns, hkept.pixels, hkept.objects⟩
  · obtain rfl := Option.some.inj h
    exact ⟨rfl, rfl, rfl, rfl⟩

/-- What reading a pixel does to the picture and the records. -/
theorem readPixel_cases {p : ℕ × ℕ} {byte : UInt8}
    (h : im.readPixel p2Flag p byte int = some im') :
    Kept (if 0 < byte.toNat
      then (im.withPixel p.1 p.2 byte.toNat).recordData p.1 p.2 byte.toNat int
      else im.withPixel p.1 p.2 byte.toNat) im' := by
  obtain ⟨im₁, hset, h⟩ := Option.bind_eq_some_iff.mp h
  obtain ⟨im₂, hlabel, rfl⟩ := Option.map_eq_some_iff.mp h
  have h1 : im₁ = im.withPixel p.1 p.2 byte.toNat := by
    unfold SetPixel at hset
    split_ifs at hset
    exact (Option.some.inj hset).symm
  have h2 : Kept im₁ im₂ := by
    cases p2Flag with
    | false =>
      obtain rfl : im₁ = im₂ := by simpa using hlabel
      exact ⟨rfl, rfl, rfl, rfl⟩
    | true => exact setLabel_kept (by simpa using hlabel)
  subst h1
  split_ifs
  · refine ⟨h2.num_rows, h2.num_columns, h2.pixels, ?_⟩
    simp only [recordData, h2.objects]
  · exact h2

/-- Reading a pixel does not change the size of the image. -/
theorem readPixel_size {p : ℕ × ℕ} {byte : UInt8}
    (h : im.readPixel p2Flag p byte int = some im') :
    im'.num_rows = im.num_rows ∧ im'.num_columns = im.num_columns := by
  have hkept := readPixel_cases h
  refine ⟨hkept.num_rows.trans ?_, hkept.num_columns.trans ?_⟩
  · split_ifs <;> rfl
  · split_ifs <;> rfl

theorem readPixels_size (h : readPixels p2Flag ps bytes im int = some (ok, im')) :
    im'.num_rows = im.num_rows ∧ im'.num_columns = im.num_columns := by
  induction ps generalizing im bytes with
  | nil =>
    obtain ⟨-, rfl⟩ : true = ok ∧ im = im' := by simpa [readPixels] using h
    exact ⟨rfl, rfl⟩
  | cons p ps ih =>
    cases bytes with
    | nil =>
      obtain ⟨-, rfl⟩ : false = ok ∧ im = im' := by simpa [readPixels] using h
      exact ⟨rfl, rfl⟩
    | cons byte bytes =>
      obtain ⟨im₁, hone, hrest⟩ := Option.bind_eq_some_iff.mp h
      have h1 := readPixel_size hone
      have h2 := ih hrest
      exact ⟨h2.1.trans h1.1, h2.2.trans h1.2⟩

/-- A file is not short only if there is a byte for each pixel. -/
theorem length_of_readPixels (h : readPixels p2Flag ps bytes im int = some (true, im')) :
    ps.length ≤ bytes.length := by
  induction ps generalizing im bytes with
  | nil => simp
  | cons p ps ih =>
    cases bytes with
    | nil => simp [readPixels] at h
    | cons byte bytes =>
      obtain ⟨im₁, -, hrest⟩ := Option.bind_eq_some_iff.mp h
      simpa using ih hrest

/-- No byte after the last pixel is looked at. -/
theorem readPixels_take (h : bytes.take ps.length = bytes'.take ps.length) :
    readPixels p2Flag ps bytes im int = readPixels p2Flag ps bytes' im int := by
  induction ps generalizing im bytes bytes' with
  | nil => simp [readPixels]
  | cons p ps ih =>
    cases bytes with
    | nil =>
      have hnil : bytes' = [] := by
        rw [List.take_nil, eq_comm, List.take_eq_nil_iff] at h
        exact h.resolve_left (by simp)
      rw [hnil]
    | cons byte bytes =>
      cases bytes' with
      | nil => simp at h
      | cons byte' bytes' =>
        rw [List.length_cons, List.take_succ_cons, List.take_succ_cons, List.cons.injEq] at h
        obtain ⟨rfl, hrest⟩ := h
        rw [readPixels, readPixels]
        exact congrArg _ (funext fun im => ih hrest)

end Image

namespace GrayImage

/-- The body of the loop, for the buffer and what is left of the file. -/
def skipBody (s : Text × Text) : (Text × Text) ⊕ (Text × Text) :=
  let (line, input) := fgets 1024 s.1 s.2
  if line.head? = some 35 then .inl (line, input) else .inr (line, input)

theorem skipComments_eq_run (fuel : ℕ) (line input : Text) :
    skipComments fuel line input = run skipBody fuel (line, input) := by
  induction fuel generalizing line input with
  | zero => rfl
  | succ fuel ih =>
    rw [skipComments, run, skipBody]
    by_cases h : (fgets 1024 line input).1.head? = some 35
    · simp [h, ih]
    · simp [h]

/-- The loop goes on with what `fgets` leaves, when that is a comment. -/
theorem skipBody_eq_inl {s s' : Text × Text} (h : skipBody s = .inl s') :
    s' = fgets 1024 s.1 s.2 ∧ s'.1.head? = some 35 := by
  unfold skipBody at h
  rcases hfgets : fgets 1024 s.1 s.2 with ⟨line, input⟩
  simp only [hfgets] at h
  split_ifs at h with hline
  obtain rfl := Sum.inl.inj h
  exact ⟨rfl, hline⟩

section Skip

variable {line line' input : Text} {r : Text × Text} {p : Text} {ps qs : List Text}

/-- At the end of the file a comment in the buffer stays there. -/
theorem not_ends_at_end (h : line.head? = some 35) : ¬ Ends skipBody (line, []) r := by
  apply not_ends fun s => s = (line, [])
  · rintro s rfl
    refine ⟨(line, []), ?_, rfl⟩
    simp only [skipBody, fgets_nil, if_pos h]
  · rfl

theorem skipBody_piece (line : Text) (h : pieces 1022 input = p :: ps) :
    skipBody (line, input) =
      if p.head? = some 35 then .inl (p, ps.flatten) else .inr (p, ps.flatten) := by
  rw [skipBody, (fgets_pieces h line).1]

/-- The loop passes over pieces that begin with `#`, as long as something follows them. -/
theorem ends_skip (h : pieces 1022 input = ps ++ qs) (hps : ∀ p ∈ ps, p.head? = some 35)
    (hqs : qs ≠ []) (line' : Text) :
    Ends skipBody (line, input) r ↔ Ends skipBody (line', qs.flatten) r := by
  induction ps generalizing line input with
  | nil =>
    obtain ⟨q, qs, rfl⟩ := List.exists_cons_of_ne_nil hqs
    apply ends_congr
    rw [skipBody_piece line h, skipBody_piece line' (pieces_suffix h)]
  | cons p ps ih =>
    have hb := skipBody_piece line h
    rw [if_pos (hps p (by simp))] at hb
    rw [ends_again_iff hb]
    exact ih (fgets_pieces h line).2 (fun q hq => hps q (by simp [hq]))

/-- The loop ends at the first piece that does not begin with `#`. -/
theorem ends_at (h : pieces 1022 input = ps ++ p :: qs) (hps : ∀ q ∈ ps, q.head? = some 35)
    (hp : p.head? ≠ some 35) : Ends skipBody (line, input) r ↔ r = (p, qs.flatten) := by
  rw [ends_skip h hps (by simp) []]
  apply ends_exit_iff
  rw [skipBody_piece _ (pieces_suffix h), if_neg hp]

/-- The loop ends at a piece that does not begin with `#`, or at once at the end of a
file when the buffer holds no comment. -/
theorem ends_iff (line input : Text) : (∃ r, Ends skipBody (line, input) r) ↔
    (input = [] ∧ line.head? ≠ some 35) ∨ ∃ p ∈ pieces 1022 input, p.head? ≠ some 35 := by
  by_cases hp : ∃ p ∈ pieces 1022 input, p.head? ≠ some 35
  · obtain ⟨p, hmem, hp⟩ := hp
    obtain ⟨q, ps, qs, hps, hq, hpieces, -⟩ :=
      List.exists_of_eraseP (p := fun p : Text => decide (p.head? ≠ some 35)) hmem
        (decide_eq_true hp)
    have hend : Ends skipBody (line, input) (q, qs.flatten) :=
      (ends_at hpieces (fun q hq => by simpa using hps q hq) (of_decide_eq_true hq)).mpr rfl
    exact iff_of_true ⟨_, hend⟩ (Or.inr ⟨p, hmem, hp⟩)
  · push Not at hp
    simp only [not_exists.mpr fun p => not_and.mpr fun hmem => not_not.mpr (hp p hmem), or_false]
    rcases List.eq_nil_or_concat (pieces 1022 input) with hnil | ⟨ps, p, hpieces⟩
    · obtain rfl := pieces_eq_nil.mp hnil
      by_cases hline : line.head? = some 35
      · simp [not_ends_at_end hline, hline]
      · have hb : skipBody (line, []) = .inr (line, []) := by
          simp only [skipBody, fgets_nil, if_neg hline]
        exact iff_of_true ⟨_, .exit hb⟩ ⟨rfl, hline⟩
    · -- all pieces are comments: the last one stays in the buffer
      rw [List.concat_eq_append] at hpieces
      have hne : input ≠ [] := fun h => by simp [h] at hpieces
      simp only [hne, false_and, iff_false, not_exists]
      intro r
      have hlast : p.head? = some 35 := hp p (by simp [hpieces])
      have hb := skipBody_piece line (pieces_suffix hpieces)
      rw [ends_skip hpieces (fun q hq => hp q (by simp [hpieces, hq])) (by simp) line,
        ends_again_iff (by rw [hb, if_pos hlast])]
      exact not_ends_at_end hlast

end Skip

/-- The comment loop ends on this file; without the magic number it is not reached. -/
def CommentLoopEnds (file : Text) : Prop :=
  file.take 3 = ascii "P5\n" → ∃ r, Ends skipBody (file.take 3, file.drop 3) r

/-- The loop ends if and only if nothing follows the magic number, or something other
than comments does, in the pieces that the buffer holds. -/
theorem commentLoop_ends_iff (file : Text) :
    CommentLoopEnds file ↔ file.take 3 ≠ ascii "P5\n" ∨ file.drop 3 = [] ∨
      ∃ piece ∈ pieces 1022 (file.drop 3), piece.head? ≠ some 35 := by
  unfold CommentLoopEnds
  rw [ends_iff]
  by_cases hmagic : file.take 3 = ascii "P5\n"
  · simp [hmagic, show (ascii "P5\n").head? ≠ some 35 by decide]
  · simp [hmagic]

/-- A comment without a newline at the end of the file. -/
theorem commentLoop_runs_on : ¬ ∀ file : Text, CommentLoopEnds file := by
  intro h
  obtain ⟨r, hr⟩ := h (ascii "P5\n#") rfl
  have hbody : skipBody ((ascii "P5\n#").take 3, (ascii "P5\n#").drop 3) = .inl ([35], []) := rfl
  rw [ends_again_iff hbody] at hr
  exact not_ends_at_end rfl hr

/-- The fuel in the model of `ReadImage` is enough for every loop that ends. -/
theorem skipComments_iff {fuel : ℕ} {line input : Text} (hf : input.length < fuel)
    {r : Text × Text} : skipComments fuel line input = some r ↔ Ends skipBody (line, input) r := by
  rw [skipComments_eq_run]
  refine ⟨ends_of_run, fun h => h.run_eq (fun s => s.2.length) ?_ hf⟩
  rintro ⟨line, input⟩ s' r hb hr
  obtain ⟨rfl, hline⟩ := skipBody_eq_inl hb
  by_cases hne : input = []
  · subst hne
    rw [fgets_nil] at hr hline
    exact absurd hr (not_ends_at_end hline)
  · have hfgets : fgets 1024 line input = takeLine 1023 input := if_neg hne
    rw [hfgets]
    exact length_takeLine hne

/-! ### Headers with comments -/

/-- Rows, columns, gray levels and pixels, from the line on that ends the loop. -/
def sizes (line input : Text) : Option (ℤ × ℤ × ℤ × Text) := do
  let (num_columns, rest) ← scanInt line
  let (num_rows, _) ← scanInt rest
  let (line, input) := fgets 1024 line input
  let (levels, _) ← scanInt line
  return (num_rows, num_columns, levels, input)

section Header

variable {file line input bytes : Text} {rows cols levels : ℤ} {p : Text} {ps : List Text}

theorem header_eq_some (hmagic : file.take 3 = ascii "P5\n") {x : ℤ × ℤ × ℤ × Text} :
    header file = some x ↔ ∃ line input,
      Ends skipBody (file.take 3, file.drop 3) (line, input) ∧ sizes line input = some x := by
  have hf : (file.drop 3).length < file.length + 1 := by
    rw [List.length_drop]
    omega
  unfold header
  rw [if_neg (not_not.mpr hmagic), Option.bind_eq_bind, Option.bind_eq_some_iff]
  constructor
  · rintro ⟨⟨line, input⟩, hskip, hx⟩
    exact ⟨line, input, (skipComments_iff hf).mp hskip, hx⟩
  · rintro ⟨line, input, hends, hx⟩
    exact ⟨(line, input), (skipComments_iff hf).mpr hends, hx⟩

theorem header_magic (h : header file = some (rows, cols, levels, bytes)) :
    file.take 3 = ascii "P5\n" :=
  (header_cases h).1

/-- The two lines after the comments: the numbers in them, and what is left. -/
theorem sizes_eq_some (h : pieces 1022 input = p :: ps) :
    sizes line input = some (rows, cols, levels, bytes) ↔
      (∃ rest rest', scanInt line = some (cols, rest) ∧ scanInt rest = some (rows, rest')) ∧
        (∃ rest, scanInt p = some (levels, rest)) ∧ bytes = ps.flatten := by
  unfold sizes
  rw [(fgets_pieces h line).1]
  constructor
  · intro hs
    obtain ⟨⟨c, rest⟩, hc, hs⟩ := Option.bind_eq_some_iff.mp hs
    obtain ⟨⟨r, rest'⟩, hr, hs⟩ := Option.bind_eq_some_iff.mp hs
    obtain ⟨⟨l, rest''⟩, hl, hs⟩ := Option.bind_eq_some_iff.mp hs
    obtain ⟨rfl, rfl, rfl, rfl⟩ : r = rows ∧ c = cols ∧ l = levels ∧ ps.flatten = bytes := by
      simpa using hs
    exact ⟨⟨rest, rest', hc, hr⟩, ⟨rest'', hl⟩, rfl⟩
  · rintro ⟨⟨rest, rest', hc, hr⟩, ⟨rest'', hl⟩, rfl⟩
    simp [hc, hr, hl]

/-- The numbers of a header are of type `int`. -/
theorem header_range (h : header file = some (rows, cols, levels, bytes)) :
    (-2 ^ 31 ≤ rows ∧ rows < 2 ^ 31) ∧ (-2 ^ 31 ≤ cols ∧ cols < 2 ^ 31) ∧
      (-2 ^ 31 ≤ levels ∧ levels < 2 ^ 31) := by
  obtain ⟨-, line, input, rest, rest', line', rest'', -, hc, hr, -, hl⟩ := header_cases h
  exact ⟨scanInt_range hr, scanInt_range hc, scanInt_range hl⟩

end Header

/-- What a caller of `ReadImage` gets: the return value, the size, the gray levels and
the pixels. -/
def outcome (r : Bool × GrayImage) : Bool × ℕ × ℕ × ℕ × List ℤ :=
  (r.1, r.2.num_rows, r.2.num_columns, r.2.num_gray_levels,
    (Image.scan r.2.num_rows r.2.num_columns).map fun p => r.2.pixels p.1 p.2)

/-- What a successful `ReadImage` has done. -/
theorem readImage_cases {memory : ℕ → ℕ → ℤ} {im im' : GrayImage} {p2Flag : Bool} {file : Text}
    {int : ℤ → ℤ} (h : ReadImage memory im p2Flag file int = some (true, im')) :
    ∃ rows cols levels bytes, header file = some (rows, cols, levels, bytes) ∧
      ¬ (2 ^ 63 ≤ 8 * size_t rows ∨ (0 < size_t rows ∧ 2 ^ 63 ≤ 4 * size_t cols)) ∧
      Image.readPixels p2Flag (Image.scan rows.toNat cols.toNat) bytes
        (im.sized memory (size_t rows) (size_t cols)) int = some (true, im'.toImage) ∧
      im'.num_gray_levels = size_t levels := by
  unfold ReadImage at h
  by_cases hmagic : file.take 3 ≠ ascii "P5\n"
  · rw [if_pos hmagic] at h
    cases h
  rw [if_neg hmagic] at h
  obtain ⟨⟨line, input⟩, hskip, h⟩ := Option.bind_eq_some_iff.mp h
  obtain ⟨⟨c, rest⟩, hc, h⟩ := Option.bind_eq_some_iff.mp h
  obtain ⟨⟨r, rest'⟩, hr, h⟩ := Option.bind_eq_some_iff.mp h
  obtain ⟨im₁, halloc, h⟩ := Option.bind_eq_some_iff.mp h
  rcases hfgets : fgets 1024 line input with ⟨line', input'⟩
  simp only [hfgets] at h
  obtain ⟨⟨l, rest''⟩, hl, h⟩ := Option.bind_eq_some_iff.mp h
  obtain ⟨⟨ok, im₂⟩, hread, h⟩ := Option.bind_eq_some_iff.mp h
  obtain ⟨rfl, rfl⟩ : ok = true ∧ _ = im' := by simpa using h
  unfold AllocateSpaceAndSetSize at halloc
  split_ifs at halloc with hsize
  obtain rfl := Option.some.inj halloc
  refine ⟨r, c, l, input', ?_, hsize, hread, rfl⟩
  rw [header, if_neg hmagic]
  simp [hskip, hc, hr, hfgets, hl]

/-- An image that was read has the size and the gray levels of the header. -/
theorem header_of_readImage {memory : ℕ → ℕ → ℤ} {im im' : GrayImage} {p2Flag : Bool} {file : Text}
    (h : ReadImage memory im p2Flag file = some (true, im')) :
    ∃ rows cols levels bytes, header file = some (rows, cols, levels, bytes) ∧
      im'.num_rows = size_t rows ∧ im'.num_columns = size_t cols ∧
      im'.num_gray_levels = size_t levels := by
  obtain ⟨r, c, l, bytes, hheader, -, hread, hlevels⟩ := readImage_cases h
  obtain ⟨hrows, hcols⟩ := Image.readPixels_size hread
  exact ⟨r, c, l, bytes, hheader, hrows, hcols, hlevels⟩

/-- Conversion to `size_t` is one-to-one on the type `int`. -/
theorem size_t_inj {z w : ℤ} (hz : -2 ^ 31 ≤ z ∧ z < 2 ^ 31) (hw : -2 ^ 31 ≤ w ∧ w < 2 ^ 31)
    (h : size_t z = size_t w) : z = w := by
  unfold size_t at h
  omega

end GrayImage

namespace P5File

open GrayImage

/-- The lines of comments with these texts. -/
def commentLines (comments : List Text) : Text := comments.flatMap fun c => 35 :: (c ++ [10])

variable (f : P5File) (comments : List Text)

/-- The file with comments after the magic number. -/
def commented : Text := f.text.take 3 ++ (commentLines comments ++ f.text.drop 3)

/-- The first piece of the comments that does not begin with `#` happens to hold the
size, the piece after it the gray levels, and what follows begins with the pixels. -/
def MisreadAlike : Prop :=
  ∃ done size levels rest,
    pieces 1022 (commentLines comments ++ f.text.drop 3) = done ++ size :: levels :: rest ∧
      done.length < (pieces 1022 (commentLines comments)).length ∧
      (∀ p ∈ done, p.head? = some 35) ∧ size.head? ≠ some 35 ∧
      (∃ t t', scanInt size = some ((f.cols : ℤ), t) ∧ scanInt t = some ((f.rows : ℤ), t')) ∧
      (∃ t, scanInt levels = some (f.levels, t)) ∧
      rest.flatten.take (f.rows * f.cols) = f.bytes.take (f.rows * f.cols)

section Commented

variable {f comments}

theorem whole_commentLines : Whole (commentLines comments) := by
  induction comments with
  | nil => exact fun c hc => by cases hc
  | cons c comments ih =>
    have hline : Whole (35 :: (c ++ [10])) := whole_line (35 :: c)
    simpa [commentLines] using hline.append ih

theorem commented_pieces : pieces 1022 ((f.commented comments).drop 3) =
    pieces 1022 (commentLines comments) ++ pieces 1022 (f.text.drop 3) := by
  have hmagic := header_magic f.header_eq
  rw [commented, hmagic]
  exact pieces_append whole_commentLines _

theorem commented_magic : (f.commented comments).take 3 = ascii "P5\n" := by
  rw [commented, header_magic f.header_eq]
  rfl

/-- A file is not empty after the magic number. -/
theorem drop_ne_nil : pieces 1022 (f.text.drop 3) ≠ [] := by
  intro hnil
  have hdrop := pieces_eq_nil.mp hnil
  have hmagic := header_magic f.header_eq
  obtain ⟨line, input, hends, hsizes⟩ := (header_eq_some hmagic).mp f.header_eq
  rw [hdrop, hmagic] at hends
  have hbody : skipBody (ascii "P5\n", []) = .inr (ascii "P5\n", []) := rfl
  obtain ⟨rfl, rfl⟩ := Prod.mk.inj ((ends_exit_iff hbody).mp hends)
  cases hsizes

/-- With the header and the pixels of `f`, another file is read alike. -/
theorem readImage_alike {file bytes : Text}
    (h : header file = some ((f.rows : ℤ), (f.cols : ℤ), f.levels, bytes))
    (hbytes : bytes.take (f.rows * f.cols) = f.bytes.take (f.rows * f.cols))
    (memory : ℕ → ℕ → ℤ) (im : GrayImage) (p2Flag : Bool) :
    ReadImage memory im p2Flag file = ReadImage memory im p2Flag f.text := by
  rw [readImage_eq h, readImage_eq f.header_eq, Image.readPixels_take]
  rwa [Image.length_scan]

/-- The comments are skipped when every piece of them begins with `#`. -/
theorem header_skipped (h : ∀ p ∈ pieces 1022 (commentLines comments), p.head? = some 35) :
    header (f.commented comments) = some ((f.rows : ℤ), (f.cols : ℤ), f.levels, f.bytes) := by
  have hmagic := header_magic f.header_eq
  obtain ⟨line, input, hends, hsizes⟩ := (header_eq_some hmagic).mp f.header_eq
  refine (header_eq_some commented_magic).mpr ⟨line, input, ?_, hsizes⟩
  rwa [ends_skip commented_pieces h drop_ne_nil (f.text.take 3), flatten_pieces]

/-- Where the comments are not skipped, the first piece without `#` is the line with the
size and the next piece the line with the gray levels. -/
theorem header_misread {done rest : List Text} {size levels : Text}
    (hpieces : pieces 1022 (commentLines comments ++ f.text.drop 3) =
      done ++ size :: levels :: rest)
    (hdone : ∀ p ∈ done, p.head? = some 35) (hsize : size.head? ≠ some 35)
    {r c l : ℤ} {b : Text} : header (f.commented comments) = some (r, c, l, b) ↔
      (∃ t t', scanInt size = some (c, t) ∧ scanInt t = some (r, t')) ∧
        (∃ t, scanInt levels = some (l, t)) ∧ b = rest.flatten := by
  have hdrop : pieces 1022 ((f.commented comments).drop 3) = done ++ size :: levels :: rest := by
    rw [commented_pieces, ← hpieces, pieces_append whole_commentLines]
  have hsuffix : pieces 1022 ((f.commented comments).drop 3) =
      (done ++ [size]) ++ levels :: rest := by
    rw [hdrop]
    simp
  have hnext := pieces_suffix hsuffix
  rw [header_eq_some commented_magic, ← sizes_eq_some hnext]
  simp only [ends_at hdrop hdone hsize]
  simp

/-- The bytes of the pixels. -/
theorem map_pixelByte {rows cols : ℕ} {bytes : Text} (h : rows * cols ≤ bytes.length) :
    (Image.scan rows cols).map (Image.pixelByte cols bytes) = bytes.take (rows * cols) := by
  apply List.ext_getElem
  · simp [Image.length_scan, h]
  · intro n h1 h2
    have hn : n < bytes.length := by
      rw [List.length_take] at h2
      omega
    simp [Image.scan_eq_map, Image.pixelByte, Nat.div_add_mod', hn]

/-- A file that is read with the outcome of `f` has its header and its pixels. -/
theorem header_of_outcome {file : Text} {memory : ℕ → ℕ → ℤ} {im : GrayImage} {p2Flag : Bool}
    (hsane : p2Flag = true → im.labelChart.Sane)
    (h : (ReadImage memory im p2Flag file).map outcome =
      (ReadImage memory im p2Flag f.text).map outcome) :
    ∃ bytes, header file = some ((f.rows : ℤ), (f.cols : ℤ), f.levels, bytes) ∧
      bytes.take (f.rows * f.cols) = f.bytes.take (f.rows * f.cols) := by
  obtain ⟨hrows, hcols, hlevels⟩ := header_range f.header_eq
  obtain ⟨im₁, hread₁, hstored₁⟩ := readPixels_stored memory p2Flag hsane f.complete
  rw [readImage_eq f.header_eq, hread₁] at h
  obtain ⟨⟨ok, im'⟩, hread, hout⟩ := Option.map_eq_some_iff.mp h
  simp only [outcome, Prod.mk.injEq] at hout
  obtain ⟨rfl, hr, hc, hl, hpix⟩ := hout
  obtain ⟨r, c, l, bytes, hheader, hr', hc', hl'⟩ := header_of_readImage hread
  obtain ⟨hrange_r, hrange_c, hrange_l⟩ := header_range hheader
  -- the numbers in the two headers agree
  obtain rfl : r = f.rows := by
    apply size_t_inj hrange_r hrows
    rw [← hr', hr, hstored₁.num_rows, size_t_natCast (by omega)]
  obtain rfl : c = f.cols := by
    apply size_t_inj hrange_c hcols
    rw [← hc', hc, hstored₁.num_columns, size_t_natCast (by omega)]
  obtain rfl : l = f.levels := size_t_inj hrange_l hlevels (hl'.symm.trans hl)
  refine ⟨bytes, hheader, ?_⟩
  -- and so do the pixels
  rw [readImage_eq hheader] at hread
  obtain ⟨⟨ok, im₂⟩, hread₂, heq⟩ := Option.map_eq_some_iff.mp hread
  obtain ⟨rfl, rfl⟩ := Prod.mk.inj heq
  have hlen : f.rows * f.cols ≤ bytes.length := by
    simpa [Image.length_scan] using Image.length_of_readPixels hread₂
  obtain ⟨im₃, hread₃, hstored₂⟩ := readPixels_stored memory p2Flag hsane hlen
  obtain rfl : im₂ = im₃ := by simpa using hread₂.symm.trans hread₃
  rw [hstored₁.num_rows, hstored₁.num_columns, hstored₂.num_rows, hstored₂.num_columns,
    List.map_inj_left] at hpix
  rw [← map_pixelByte hlen, ← map_pixelByte f.complete]
  apply List.map_congr_left
  intro p hp
  have hbyte := hpix p hp
  rw [hstored₂.pixels p hp, hstored₁.pixels p hp] at hbyte
  exact UInt8.toNat_inj.mp (by exact_mod_cast hbyte)

end Commented

/-- Comments do not matter if and only if every piece of them that the buffer holds
begins with `#`, or the misread numbers and pixels happen to be those of the file. -/
theorem comments_ignored_iff (f : P5File) (comments : List Text) (memory : ℕ → ℕ → ℤ)
    (im : GrayImage) (p2Flag : Bool) (hsane : p2Flag = true → im.labelChart.Sane) :
    (ReadImage memory im p2Flag (f.commented comments)).map outcome =
        (ReadImage memory im p2Flag f.text).map outcome ↔
      (∀ p ∈ pieces 1022 (commentLines comments), p.head? = some 35) ∨
        f.MisreadAlike comments := by
  constructor
  · intro h
    obtain ⟨bytes, hheader, hbytes⟩ := header_of_outcome hsane h
    by_cases hall : ∀ p ∈ pieces 1022 (commentLines comments), p.head? = some 35
    · exact Or.inl hall
    push Not at hall
    obtain ⟨p, hmem, hp⟩ := hall
    obtain ⟨size, done, more, hdone, hsize, hsplit, -⟩ :=
      List.exists_of_eraseP (p := fun p : Text => decide (p.head? ≠ some 35)) hmem
        (decide_eq_true hp)
    obtain ⟨levels, rest, hrest⟩ : ∃ levels rest,
        more ++ pieces 1022 (f.text.drop 3) = levels :: rest :=
      List.exists_cons_of_ne_nil (by simp [drop_ne_nil])
    have hpieces : pieces 1022 (commentLines comments ++ f.text.drop 3) =
        done ++ size :: levels :: rest := by
      rw [pieces_append whole_commentLines, hsplit, ← hrest]
      simp
    have hdone' : ∀ p ∈ done, p.head? = some 35 := fun p hp => by simpa using hdone p hp
    have hsize' := of_decide_eq_true hsize
    obtain ⟨hscan, hlevels, rfl⟩ := (header_misread hpieces hdone' hsize').mp hheader
    exact Or.inr ⟨done, size, levels, rest, hpieces, by simp [hsplit], hdone', hsize', hscan,
      hlevels, hbytes⟩
  · rintro (h | ⟨done, size, levels, rest, hpieces, -, hdone, hsize, hscan, hlevels, hbytes⟩)
    · rw [readImage_alike (header_skipped h) rfl]
    · rw [readImage_alike ((header_misread hpieces hdone hsize).mpr ⟨hscan, hlevels, rfl⟩) hbytes]

/-- One pixel. -/
def onePixel : P5File where
  text := ascii "P5\n1 1\n255\n" ++ [7]
  rows := 1
  cols := 1
  levels := 255
  bytes := [7]
  header_eq := by decide +kernel
  complete := by decide

/-- Two columns of two pixels, with a column of zeros between them. -/
def twoColumns : P5File where
  text := ascii "P5\n3 2\n255\n" ++ [30, 0, 60, 30, 0, 60]
  rows := 2
  cols := 3
  levels := 255
  bytes := [30, 0, 60, 30, 0, 60]
  header_eq := by decide +kernel
  complete := by decide

theorem comments_ignored_short :
    (ReadImage (fun _ _ => 0) .new true (onePixel.commented [ascii " one pixel"])).map outcome =
      (ReadImage (fun _ _ => 0) .new true onePixel.text).map outcome := by
  have hline : takeLine 1023 (commentLines [ascii " one pixel"]) =
      (commentLines [ascii " one pixel"], []) := by decide +kernel
  have hpieces : pieces 1022 (commentLines [ascii " one pixel"]) =
      [commentLines [ascii " one pixel"]] := by
    rw [pieces_of_ne_nil (by decide +kernel), hline, pieces_nil]
  refine (comments_ignored_iff onePixel [ascii " one pixel"] _ .new true
    fun _ => UnionFind.empty_sane).mpr (Or.inl fun p hp => ?_)
  rw [hpieces, List.mem_singleton] at hp
  rw [hp]
  rfl

/-- A comment of 1023 characters after the `#`. -/
theorem long_comment_misread : ¬ ∀ (f : P5File) (comments : List Text) (memory : ℕ → ℕ → ℤ)
    (im : GrayImage) (p2Flag : Bool), (p2Flag = true → im.labelChart.Sane) →
      (ReadImage memory im p2Flag (f.commented comments)).map outcome =
        (ReadImage memory im p2Flag f.text).map outcome := by
  intro h
  have hsame := h onePixel [List.replicate 1023 97] (fun _ _ => 0) .new false nofun
  revert hsame
  decide +kernel

end P5File

end SchoolProjects.Vision
