import SchoolProjects.Lib.Stream

/-! The database of objects (`printData` and `compareData` of `image.cc`). The numbers
are those in the text: rounding to `double`, the moments they come from, and the drawing
of the objects that are recognised are left out. -/

namespace SchoolProjects.Vision.Database

open Text Loop Istream

/-- The fields of `struct objData` that `printData` writes. -/
structure Printed where
  label : ℤ
  area : ℤ
  centerCol : ℤ
  centerRow : ℤ
  E : Fixed
  theta : Fixed
  roundness : Fixed
  int_range : ∀ z ∈ [label, area, centerCol, centerRow], -2 ^ 31 ≤ z ∧ z < 2 ^ 31

/-- The fields of `struct objData` that `compareData` reads. -/
structure Record where
  label : ℤ
  area : ℤ
  centerCol : ℤ
  centerRow : ℤ
  E : Scan.Decimal
  theta : Scan.Decimal
  roundness : Scan.Decimal

def space : Text := [32]

def crlf : Text := [13, 10]

/-- A line of the database without the line break. -/
def Printed.line (obj : Printed) : Text :=
  format 0 obj.label ++ (space ++ (format 0 obj.area ++ (space ++ (format 0 obj.centerCol ++
    (space ++ (format 0 obj.centerRow ++ (space ++ (obj.E.print ++ (space ++ (obj.theta.print ++
      (space ++ obj.roundness.print)))))))))))

/-- `printData`, with the objects in the order in which the map lists them. -/
def printData (objects : List Printed) : Text :=
  ascii "Label|Area|CenterCol|centerRow|minInertia|orientation|roundness" ++ crlf ++
    objects.flatMap fun obj => obj.line ++ crlf

/-- The seven extractions of `compareData`. A new `objData` has a label and a roundness
that are not initialised and hold what `memory` does; neither is looked at. -/
def readObj (memory : Record) (input : Istream) : Record × Istream :=
  let (label, input) := input.extract Scan.int memory.label
  let (area, input) := input.extract Scan.int 0
  let (centerCol, input) := input.extract Scan.int 0
  let (centerRow, input) := input.extract Scan.int 0
  let (E, input) := input.extract Scan.double ⟨false, 0⟩
  let (theta, input) := input.extract Scan.double ⟨false, 0⟩
  let (roundness, input) := input.extract Scan.double memory.roundness
  (⟨label, area, centerCol, centerRow, E, theta, roundness⟩, input)

variable {Img : Type*}

/-- `compareData` ends with the image `result`. What is done with a record, comparing it
with the objects of the image and drawing a line through those that are alike, is
`compare`; every line ends where it leaves the image. -/
def CompareData (memory : Record) (compare : Record → Img → Img) (file : Text)
    (an_image result : Img) : Prop :=
  Ends (untilEof (readObj memory) compare)
    (((ofText file).extract Scan.word []).2, an_image) result

/-- The fields of a record. -/
def fields : List (Text → Bool × Text) :=
  [Scan.skim Scan.int, Scan.skim Scan.int, Scan.skim Scan.int, Scan.skim Scan.int,
    Scan.skim Scan.double, Scan.skim Scan.double, Scan.skim Scan.double]

theorem readObj_snd (memory : Record) (input : Istream) :
    (readObj memory input).2 = fields.foldl (fun s k => s.after k) input := by
  simp only [readObj, extract_snd]
  rfl

theorem fields_consume : ∀ k ∈ fields, Consumes k := by
  have hint : Consumes (Scan.skim Scan.int) := fun t => Scan.length_int
  have hdouble : Consumes (Scan.skim Scan.double) := fun t => Scan.length_double
  simp [fields, hint, hdouble]

section Reading

variable (memory : Record) (compare : Record → Img → Img) (an_image : Img)

/-- From a good stream on. -/
theorem ends_iff (t : Text) :
    (∃ r, Ends (untilEof (readObj memory) compare) (ofText t, an_image) r) ↔
      UsedUp fields [] t :=
  untilEof_ends_iff (readObj_snd memory) fields_consume (List.cons_ne_nil _ _) t an_image

theorem usedUp_blank : UsedUp fields [] [] := .again (.blank rfl)

/-- `compareData` ends if and only if the fields after the first word run out before one
of them is bad. -/
theorem compareData_iff_usedUp (file : Text) : (∃ r, CompareData memory compare file an_image r) ↔
    UsedUp fields [] (Scan.word (file.dropWhile isspace)).rest := by
  unfold CompareData
  by_cases hblank : file.all isspace = true
  · rw [extract_blank _ hblank, dropWhile_isspace_eq_nil.mpr hblank]
    exact iff_of_true ⟨an_image, .exit (untilEof_eof rfl an_image)⟩ usedUp_blank
  · rw [extract_ofText _ rfl (mt dropWhile_isspace_eq_nil.mp hblank)]
    cases hrest : (Scan.word (file.dropWhile isspace)).rest with
    | nil => exact iff_of_true ⟨an_image, .exit (untilEof_eof rfl an_image)⟩ usedUp_blank
    | cons c t => exact ends_iff memory compare an_image (c :: t)

end Reading

/-! ### What is printed is read -/

/-- White space, with or without something after it. -/
def Gap (t : Text) : Prop := ∃ c u, t = c :: u ∧ isspace c = true

theorem gap_space (t : Text) : Gap (space ++ t) := ⟨32, t, rfl, rfl⟩

theorem gap_crlf (t : Text) : Gap (crlf ++ t) := ⟨13, 10 :: t, rfl, rfl⟩

theorem isspace_of_mem_space : ∀ c ∈ space, isspace c = true := List.all_eq_true.mp rfl

theorem isspace_of_mem_crlf : ∀ c ∈ crlf, isspace c = true := List.all_eq_true.mp rfl

section Printing

variable {rest blank : Text}

theorem Gap.ne_nil (h : Gap rest) : rest ≠ [] := by
  obtain ⟨c, u, rfl, -⟩ := h
  exact List.cons_ne_nil c u

theorem Gap.stops (h : Gap rest) : Stops rest := by
  obtain ⟨c, u, rfl, hc⟩ := h
  intro d hd
  obtain rfl := Option.some.inj hd
  by_contra hdigit
  simp [(not_isspace_of_isdigit (Bool.eq_true_of_not_eq_false hdigit)).1] at hc

theorem Gap.numberEnds (h : Gap rest) : Scan.NumberEnds rest := by
  intro d hd
  refine ⟨h.stops d hd, ?_⟩
  obtain ⟨c, u, rfl, hc⟩ := h
  obtain rfl := Option.some.inj hd
  refine ⟨?_, ?_, ?_⟩ <;> rintro rfl <;> exact absurd hc (by decide)

section Int

variable {z : ℤ} (hz : -2 ^ 31 ≤ z ∧ z < 2 ^ 31) (hblank : ∀ c ∈ blank, isspace c = true)
  (hrest : Gap rest)

include hz hblank hrest

theorem extract_format (old : ℤ) :
    (ofText (blank ++ (format 0 z ++ rest))).extract Scan.int old = (z, ofText rest) :=
  have htoken := Scan.token_format z rest
  extract_token (htoken.dropWhile hblank) htoken.ne_nil
    (Scan.int_format hz.1 hz.2 hrest.stops) hrest.ne_nil old

theorem usedUp_format {ks : List (Text → Bool × Text)} :
    UsedUp fields (Scan.skim Scan.int :: ks) (blank ++ (format 0 z ++ rest)) ↔
      UsedUp fields ks rest := by
  have htoken := Scan.token_format z rest
  have hscan : Scan.skim Scan.int (format 0 z ++ rest) = (true, rest) := by
    rw [Scan.skim, Scan.int_format hz.1 hz.2 hrest.stops]
  rw [usedUp_token (htoken.dropWhile hblank) htoken.ne_nil (by rw [hscan]; exact hrest.ne_nil),
    hscan]
  exact and_iff_right rfl

end Int

section Double

variable {x : Fixed} (hblank : ∀ c ∈ blank, isspace c = true) (hrest : Gap rest)

include hblank hrest

theorem extract_print (hx : x.isfinite = true) (old : Scan.Decimal) :
    (ofText (blank ++ (x.print ++ rest))).extract Scan.double old =
      (x.toDecimal, ofText rest) := by
  have htoken := Scan.token_print x rest
  rcases x with ⟨neg, n, h⟩ | neg | neg
  · exact extract_token (htoken.dropWhile hblank) htoken.ne_nil
      (Scan.double_finite neg h hrest.numberEnds) hrest.ne_nil old
  · cases hx
  · cases hx

theorem usedUp_print {ks : List (Text → Bool × Text)} :
    UsedUp fields (Scan.skim Scan.double :: ks) (blank ++ (x.print ++ rest)) ↔
      x.isfinite = true ∧ UsedUp fields ks rest := by
  have htoken := Scan.token_print x rest
  cases hx : x.isfinite with
  | true =>
    obtain ⟨neg, n, h⟩ | neg | neg := x
    · have hscan : Scan.skim Scan.double ((Fixed.finite neg n h).print ++ rest) = (true, rest) := by
        rw [Scan.skim, Scan.double_finite neg h hrest.numberEnds]
      rw [usedUp_token (htoken.dropWhile hblank) htoken.ne_nil
        (by rw [hscan]; exact hrest.ne_nil), hscan]
    · cases hx
    · cases hx
  | false =>
    obtain ⟨hok, hleft⟩ := Scan.double_not_finite hx rest
    rw [usedUp_token (htoken.dropWhile hblank) htoken.ne_nil hleft]
    simp [Scan.skim, hok]

end Double

namespace Printed

variable (obj : Printed)

/-- All the numbers of type `double` are finite. -/
def Finite : Prop :=
  obj.E.isfinite = true ∧ obj.theta.isfinite = true ∧ obj.roundness.isfinite = true

/-- The record that is read for an object. -/
def toRecord : Record :=
  ⟨obj.label, obj.area, obj.centerCol, obj.centerRow, obj.E.toDecimal, obj.theta.toDecimal,
    obj.roundness.toDecimal⟩

theorem line_append (rest : Text) : obj.line ++ rest =
    format 0 obj.label ++ (space ++ (format 0 obj.area ++ (space ++ (format 0 obj.centerCol ++
      (space ++ (format 0 obj.centerRow ++ (space ++ (obj.E.print ++ (space ++
        (obj.theta.print ++ (space ++ (obj.roundness.print ++ rest)))))))))))) := by
  simp only [line, List.append_assoc]

variable {obj}

theorem label_range : -2 ^ 31 ≤ obj.label ∧ obj.label < 2 ^ 31 :=
  obj.int_range _ (by simp)

theorem area_range : -2 ^ 31 ≤ obj.area ∧ obj.area < 2 ^ 31 :=
  obj.int_range _ (by simp)

theorem centerCol_range : -2 ^ 31 ≤ obj.centerCol ∧ obj.centerCol < 2 ^ 31 :=
  obj.int_range _ (by simp)

theorem centerRow_range : -2 ^ 31 ≤ obj.centerRow ∧ obj.centerRow < 2 ^ 31 :=
  obj.int_range _ (by simp)

/-- A line is used up if its numbers are finite and what follows is used up. -/
theorem usedUp_line (hrest : Gap rest) : UsedUp fields [] (crlf ++ (obj.line ++ rest)) ↔
    obj.Finite ∧ UsedUp fields [] rest := by
  rw [line_append]
  -- the four numbers of type `int`
  refine usedUp_nil.trans ?_
  refine (usedUp_format label_range isspace_of_mem_crlf (gap_space _)).trans ?_
  refine (usedUp_format area_range isspace_of_mem_space (gap_space _)).trans ?_
  refine (usedUp_format centerCol_range isspace_of_mem_space (gap_space _)).trans ?_
  refine (usedUp_format centerRow_range isspace_of_mem_space (gap_space _)).trans ?_
  -- and the three of type `double`
  rw [usedUp_print isspace_of_mem_space (gap_space _), usedUp_print isspace_of_mem_space (gap_space _),
    usedUp_print isspace_of_mem_space hrest, Finite, and_assoc, and_assoc]

/-- A line is read back. -/
theorem readObj_line (h : obj.Finite) (hrest : Gap rest) (memory : Record) :
    readObj memory (ofText (crlf ++ (obj.line ++ rest))) = (obj.toRecord, ofText rest) := by
  obtain ⟨hE, htheta, hroundness⟩ := h
  rw [line_append]
  simp only [readObj, extract_format label_range isspace_of_mem_crlf (gap_space _),
    extract_format area_range isspace_of_mem_space (gap_space _),
    extract_format centerCol_range isspace_of_mem_space (gap_space _),
    extract_format centerRow_range isspace_of_mem_space (gap_space _),
    extract_print isspace_of_mem_space (gap_space _) hE,
    extract_print isspace_of_mem_space (gap_space _) htheta,
    extract_print isspace_of_mem_space hrest hroundness]
  rfl

end Printed

/-- The lines of the database, each with the line break before it. -/
def lines (objects : List Printed) : Text := crlf ++ objects.flatMap fun obj => obj.line ++ crlf

theorem lines_cons (obj : Printed) (objects : List Printed) :
    lines (obj :: objects) = crlf ++ (obj.line ++ lines objects) := by
  simp [lines]

theorem gap_lines (objects : List Printed) : Gap (lines objects) := gap_crlf _

theorem usedUp_lines (objects : List Printed) :
    UsedUp fields [] (lines objects) ↔ ∀ obj ∈ objects, obj.Finite := by
  induction objects with
  | nil => exact iff_of_true (.again (.blank rfl)) (by simp)
  | cons obj objects ih =>
    rw [lines_cons, Printed.usedUp_line (gap_lines objects), ih, List.forall_mem_cons]

/-- The header is one word. -/
theorem drop_header (objects : List Printed) :
    (printData objects).dropWhile isspace = printData objects ∧
      (Scan.word (printData objects)).rest = lines objects := by
  have htext : printData objects =
      ascii "Label|Area|CenterCol|centerRow|minInertia|orientation|roundness" ++ lines objects := by
    simp [printData, lines]
  have hheader : ∀ c ∈ ascii "Label|Area|CenterCol|centerRow|minInertia|orientation|roundness",
      (!isspace c) = true := List.all_eq_true.mp (by decide +kernel)
  rw [htext]
  constructor
  · rfl
  · rw [Scan.word, List.dropWhile_append_of_pos hheader]
    rfl

end Printing

section Reading

variable (memory : Record) (compare : Record → Img → Img) (an_image : Img)

/-- `compareData` ends if and only if the fields after the first word of the file run out
before one of them is bad. A file that `printData` has written is such a file if and only
if all the numbers of type `double` are finite. -/
theorem compareData_ends_iff :
    (∀ file, (∃ r, CompareData memory compare file an_image r) ↔
      UsedUp fields [] (Scan.word (file.dropWhile isspace)).rest) ∧
    ∀ objects, (∃ r, CompareData memory compare (printData objects) an_image r) ↔
      ∀ obj ∈ objects, obj.Finite := by
  refine ⟨compareData_iff_usedUp memory compare an_image, fun objects => ?_⟩
  rw [compareData_iff_usedUp, (drop_header objects).1, (drop_header objects).2, usedUp_lines]

/-- The record after the last line: nothing is read into it. -/
def Record.afterLast : Record :=
  ⟨memory.label, 0, 0, 0, ⟨false, 0⟩, ⟨false, 0⟩, memory.roundness⟩

theorem ends_lines {objects : List Printed} (h : ∀ obj ∈ objects, obj.Finite) :
    Ends (untilEof (readObj memory) compare) (ofText (lines objects), an_image)
      (compare memory.afterLast (objects.foldl (fun im obj => compare obj.toRecord im) an_image)) := by
  induction objects generalizing an_image with
  | nil => exact .again (untilEof_read rfl an_image) (.exit (untilEof_eof rfl _))
  | cons obj objects ih =>
    obtain ⟨hobj, hobjects⟩ := List.forall_mem_cons.mp h
    have hread := Printed.readObj_line hobj (gap_lines objects) memory
    refine .again (untilEof_read rfl an_image) ?_
    rw [lines_cons, hread]
    exact ih (compare obj.toRecord an_image) hobjects

/-- What `printData` writes is read back: each object is compared as it was printed, and
after the last line one more record that nothing was read into. -/
theorem compareData_printData {objects : List Printed} (h : ∀ obj ∈ objects, obj.Finite) :
    CompareData memory compare (printData objects) an_image
      (compare memory.afterLast
        (objects.foldl (fun im obj => compare obj.toRecord im) an_image)) := by
  obtain ⟨hskip, hrest⟩ := drop_header objects
  have hheader : (ofText (printData objects)).extract Scan.word [] =
      ((Scan.word (printData objects)).value, ofText (lines objects)) :=
    extract_token hskip (List.cons_ne_nil _ _) (by rw [← hrest]; rfl) (gap_lines objects).ne_nil []
  rw [CompareData, hheader]
  exact ends_lines memory compare an_image h

end Reading

/-- A single pixel: its area is 1, and its roundness is 0 divided by 0. -/
def singlePixel : Printed where
  label := 255
  area := 1
  centerCol := 0
  centerRow := 0
  E := .finite false 0 (Nat.zero_le _)
  theta := .finite false 0 (Nat.zero_le _)
  roundness := .nan false
  int_range := by decide

theorem compareData_runs_on : ¬ ∀ (memory : Record) (compare : Record → Unit → Unit)
    (file : Text), ∃ r, CompareData memory compare file () r := by
  intro h
  have hends := h singlePixel.toRecord (fun _ im => im) (printData [singlePixel])
  rw [compareData_iff_usedUp, (drop_header _).1, (drop_header _).2, usedUp_lines] at hends
  have hnan := (hends singlePixel (List.mem_singleton.mpr rfl)).2.2
  cases hnan

end SchoolProjects.Vision.Database
