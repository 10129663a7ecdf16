import SchoolProjects.Lib.CString
import SchoolProjects.Lib.FileDesc

/-! Editing one row of the file of books (`main.c` of the second homework). The file is read
into a buffer of 200 bytes without an end, and what follows the edited part is copied as a
string. A result `none` is a read or a write outside a buffer. The answer of one letter fills
`ans`, and its end comes to lie behind it: `room` is the number of bytes from `ans` on that are
of no other variable. The words of `scanf` are given as they are typed; printing is left
out. -/

namespace SchoolProjects.Books

open Text CString

/-- The scans for a byte in a row; the result is -1 where there is none. -/
def findByte (c : UInt8) (rowStartByte : ℤ) (num_bytes : ℕ) (buf : Text) : Option ℤ :=
  if rowStartByte < 0 then none
  else match ((buf.take num_bytes).drop rowStartByte.toNat).findIdx? (· == c) with
    | some k => some (rowStartByte + k)
    | none => some (-1)

def findEndOfRowByte : ℤ → ℕ → Text → Option ℤ := findByte 10

def findSpaceByte : ℤ → ℕ → Text → Option ℤ := findByte 32

/-- `scanf("%s", t); strcat(t, ending);` in a buffer of 20 bytes, where the token is asked
for. -/
def readToken (asked : Bool) (t ending : Text) : Option Text :=
  if asked then (fits 20 t).bind fun t => fits 20 (cut t ++ ending) else some t

/-- `strcpy(newBuf, &buf[k])`. -/
def copyTail (buf : Text) (k : ℤ) : Option Text := (stringAt buf k.toNat).bind (fits 200)

/-- The three branches of `replaceElement`. -/
def edit (startByte spaceByte endByte : ℤ) (fd : FileDesc) (buf ans newTitle newAuthor : Text) :
    Option FileDesc :=
  if ans = ascii "B" then
    (copyTail buf startByte).map fun newBuf =>
      (((fd.seek startByte.toNat).write newTitle).write newAuthor).write newBuf
  else if ans = ascii "T" then
    (copyTail buf (spaceByte + 1)).map fun newBuf =>
      (((fd.seek startByte.toNat).truncate startByte.toNat).write newTitle).write newBuf
  else if ans = ascii "A" then
    let fd := (fd.seek (spaceByte + 1).toNat).truncate (spaceByte + 1).toNat
    if endByte > -1 then
      (copyTail buf (endByte + 1)).map fun newBuf => (fd.write newAuthor).write newBuf
    else some (fd.write newAuthor)
  else some fd

/-- `replaceElement` after the answer; `newTitle` and `newAuthor` are the words that are
typed. -/
def replaceAnswered (startByte spaceByte endByte : ℤ) (fd : FileDesc)
    (buf ans newTitle newAuthor : Text) : Option FileDesc := do
  let newTitle ← readToken (ans = ascii "B" ∨ ans = ascii "T") newTitle (ascii " ")
  let newAuthor ← readToken (ans = ascii "B" ∨ ans = ascii "A") newAuthor (ascii "\n")
  edit startByte spaceByte endByte fd buf ans newTitle newAuthor

/-- `replaceElement`; `scanf("%s", ans)` stores the word `ans` and its end. -/
def replaceElement (room : ℕ) (startByte spaceByte endByte : ℤ) (fd : FileDesc)
    (buf ans newTitle newAuthor : Text) : Option FileDesc :=
  (fits room ans).bind fun ans =>
    replaceAnswered startByte spaceByte endByte fd buf ans newTitle newAuthor

/-- The loop of `replaceAtRow` over the bytes from `i` on: the byte where the row starts. -/
def findRow (rowToFind : ℤ) : ℤ → ℕ → Text → Option ℕ
  | _, _, [] => none
  | currRow, i, c :: t =>
    if currRow ≥ rowToFind then some i
    else findRow rowToFind (if c = 10 then currRow + 1 else currRow) (i + 1) t

/-- `replaceAtRow`; the buffer held `memory` before. -/
def replaceAtRow (room : ℕ) (rowToFind : ℤ) (fd : FileDesc)
    (memory ans newTitle newAuthor : Text) : Option FileDesc := do
  let num_bytes := fd.seekEnd.offset
  let (buf, fd) ← (fd.seekEnd.seek 0).read memory num_bytes
  match findRow rowToFind 0 0 (buf.take num_bytes) with
  | none => return fd
  | some i =>
    let spaceByte ← findSpaceByte i num_bytes buf
    let endByte ← findEndOfRowByte spaceByte num_bytes buf
    replaceElement room i spaceByte endByte fd buf ans newTitle newAuthor

/-! ### Files of rows -/

/-- A row of the file. -/
structure Row where
  title : Text
  author : Text

def Row.text (row : Row) : Text := row.title ++ 32 :: (row.author ++ [10])

def fileText (rows : List Row) : Text := rows.flatMap Row.text

/-- Non-empty and without blanks. -/
def IsToken (t : Text) : Prop := t ≠ [] ∧ ∀ c ∈ t, c ≠ 32 ∧ c ≠ 10

def Row.WellFormed (row : Row) : Prop := IsToken row.title ∧ IsToken row.author

/-- What the answers ask for. -/
inductive Edit
  | title
  | author
  | insert

namespace Edit

def answer : Edit → Text
  | title => ascii "T"
  | author => ascii "A"
  | insert => ascii "B"

/-- The rows after the edit of row `r`. -/
def apply (rows : List Row) (r : ℕ) (newTitle newAuthor : Text) : Edit → List Row
  | title => rows.modify r fun row => { row with title := newTitle }
  | author => rows.modify r fun row => { row with author := newAuthor }
  | insert => rows.insertIdx r ⟨newTitle, newAuthor⟩

/-- The part of the file that is copied: what stands behind the blank of row `r`, behind the
row, or from the row on. -/
def tail (rows : List Row) (r : ℕ) (e : Edit) : Text :=
  match rows.drop r, e with
  | [], _ => []
  | row :: rows, title => row.author ++ 10 :: fileText rows
  | _ :: rows, author => fileText rows
  | row :: rows, insert => fileText (row :: rows)

/-- The new tokens that are used. -/
def fresh (newTitle newAuthor : Text) : Edit → List Text
  | title => [newTitle]
  | author => [newAuthor]
  | insert => [newTitle, newAuthor]

end Edit

/-! ### Scans -/

theorem fileText_append (rows rows' : List Row) :
    fileText (rows ++ rows') = fileText rows ++ fileText rows' := List.flatMap_append

theorem fileText_cons (row : Row) (rows : List Row) :
    fileText (row :: rows) = row.text ++ fileText rows := List.flatMap_cons

/-- A row between the others. -/
theorem fileText_split (pre post : List Row) (row : Row) : fileText (pre ++ row :: post) =
    fileText pre ++ (row.title ++ 32 :: (row.author ++ 10 :: fileText post)) := by
  simp [fileText_append, fileText_cons, Row.text]

theorem findRow_line {r currRow : ℤ} (hcur : currRow < r) {t : Text} (ht : ∀ c ∈ t, c ≠ 10)
    (i : ℕ) (u : Text) : findRow r currRow i (t ++ 10 :: u) =
      findRow r (currRow + 1) (i + t.length + 1) u := by
  induction t generalizing i with
  | nil =>
    rw [List.nil_append, findRow, if_neg (not_le.2 hcur), if_pos rfl]
    rfl
  | cons c t ih =>
    rw [List.cons_append, findRow, if_neg (not_le.2 hcur), if_neg (ht c (by simp)),
      ih fun d hd => ht d (by simp [hd])]
    congr 1
    simp
    omega

theorem Row.text_eq (row : Row) : row.text = (row.title ++ 32 :: row.author) ++ [10] := by
  simp [Row.text]

theorem Row.WellFormed.not_newline {row : Row} (h : row.WellFormed) :
    ∀ c ∈ row.title ++ 32 :: row.author, c ≠ 10 := by
  intro c hc
  rcases List.mem_append.1 hc with hc | hc
  · exact (h.1.2 c hc).2
  · rcases List.mem_cons.1 hc with rfl | hc
    · decide
    · exact (h.2.2 c hc).2

/-- The loop stops at the first byte behind the rows that it counts. -/
theorem findRow_rows {rows : List Row} (h : ∀ row ∈ rows, row.WellFormed) (currRow : ℤ) (i : ℕ)
    {u : Text} (hu : u ≠ []) : findRow (currRow + rows.length) currRow i (fileText rows ++ u) =
      some (i + (fileText rows).length) := by
  induction rows generalizing currRow i with
  | nil =>
    obtain ⟨c, u, rfl⟩ := List.exists_cons_of_ne_nil hu
    simp [fileText, findRow]
  | cons row rows ih =>
    have hrow := h row (by simp)
    rw [fileText_cons, row.text_eq, List.append_assoc, List.append_assoc, List.singleton_append,
      findRow_line (by simp) hrow.not_newline]
    have hlen : currRow + ((row :: rows).length : ℕ) = (currRow + 1) + rows.length := by
      simp
      omega
    rw [hlen, ih fun row' hrow' => h row' (by simp [hrow'])]
    simp
    omega

/-- A scan finds the byte when what stands before it in the row has none. -/
theorem findByte_eq {c : UInt8} {p t u : Text} (ht : ∀ d ∈ t, d ≠ c) (rest : Text) :
    findByte c p.length (p ++ (t ++ c :: u)).length (p ++ (t ++ c :: u) ++ rest) =
      some ((p ++ t).length : ℤ) := by
  have hidx : (t ++ c :: u).findIdx? (· == c) = some t.length := by
    have hnone : t.findIdx? (· == c) = none := List.findIdx?_eq_none_iff.2 (by simpa using ht)
    simp [List.findIdx?_append, hnone, List.findIdx?_cons]
  rw [findByte, if_neg (by omega), List.take_left, Int.toNat_natCast, List.drop_left, hidx]
  simp

/-- Where the bytes of a row are found, and what is done then. -/
theorem replaceAtRow_eq (room : ℕ) (pre post : List Row) (row : Row)
    (h : ∀ row ∈ pre, row.WellFormed) (hrow : row.WellFormed) {memory : Text} (offset : ℕ)
    (ans newTitle newAuthor : Text)
    (hlen : (fileText (pre ++ row :: post)).length ≤ memory.length) :
    replaceAtRow room pre.length ⟨fileText (pre ++ row :: post), offset⟩ memory ans newTitle
        newAuthor =
      replaceElement room (fileText pre).length (fileText pre ++ row.title).length
        (fileText pre ++ row.title ++ 32 :: row.author).length
        ⟨fileText (pre ++ row :: post), (fileText (pre ++ row :: post)).length⟩
        (fileText (pre ++ row :: post) ++ memory.drop (fileText (pre ++ row :: post)).length)
        ans newTitle newAuthor := by
  have hcontent := fileText_split pre post row
  have hfind := findRow_rows h 0 0
    (u := row.title ++ 32 :: (row.author ++ 10 :: fileText post)) (by simp)
  rw [← hcontent, zero_add, zero_add] at hfind
  have hspace := findByte_eq (c := 32) (p := fileText pre) (t := row.title)
    (u := row.author ++ 10 :: fileText post) (fun d hd => (hrow.1.2 d hd).1)
    (memory.drop (fileText (pre ++ row :: post)).length)
  rw [← hcontent] at hspace
  have hauthor : ∀ d ∈ 32 :: row.author, d ≠ 10 := by
    intro d hd
    rcases List.mem_cons.1 hd with rfl | hd
    · decide
    · exact (hrow.2.2 d hd).2
  have hend := findByte_eq (c := 10) (p := fileText pre ++ row.title) (t := 32 :: row.author)
    (u := fileText post) hauthor (memory.drop (fileText (pre ++ row :: post)).length)
  rw [List.append_assoc, List.cons_append, ← hcontent] at hend
  generalize fileText (pre ++ row :: post) = content at *
  have hread : ((FileDesc.mk content offset).seekEnd.seek 0).read memory content.length =
      some (content ++ memory.drop content.length, ⟨content, content.length⟩) :=
    FileDesc.read_all ⟨content, offset⟩ memory hlen
  have hoffset : (FileDesc.mk content offset).seekEnd.offset = content.length := rfl
  simp only [replaceAtRow, hoffset, hread, Option.bind_eq_bind, Option.bind_some, List.take_left,
    hfind, findSpaceByte, findEndOfRowByte, hspace, hend]

/-! ### Edits -/

/-- An answer of one letter and its end need two bytes. -/
theorem replaceElement_answer {room : ℕ} (hroom : 2 ≤ room) (s b e : ℤ) (fd : FileDesc)
    (buf : Text) (answered : Edit) (newTitle newAuthor : Text) :
    replaceElement room s b e fd buf answered.answer newTitle newAuthor =
      replaceAnswered s b e fd buf answered.answer newTitle newAuthor := by
  have hletter : answered.answer.length = 1 := by cases answered <;> rfl
  rw [replaceElement, fits, if_pos (by omega), Option.bind_some]

theorem readToken_eq {t : Text} {c : UInt8} (h : t.length ≤ 18) :
    readToken true t [c] = some (cut t ++ [c]) := by
  have hcut : (cut t).length ≤ t.length := (List.takeWhile_prefix _).length_le
  have hfits : fits 20 t = some t := if_pos (by omega)
  rw [readToken, if_pos rfl, hfits, Option.bind_some, fits, if_pos (by simp; omega)]

/-- The copied tail is the string at the start of the tail and what the buffer held behind
the file. -/
theorem copyTail_eq {p t rest : Text} (hlen : (p ++ t ++ rest).length ≤ 200) :
    copyTail (p ++ t ++ rest) p.length = stringAt (t ++ rest) 0 := by
  have hdrop : (p ++ t ++ rest).drop p.length = (t ++ rest).drop 0 := by
    rw [List.append_assoc, List.drop_left, List.drop_zero]
  have hstring : stringAt (p ++ t ++ rest) p.length = stringAt (t ++ rest) 0 := by
    rw [stringAt, stringAt, hdrop]
  rw [copyTail, Int.toNat_natCast, hstring]
  cases hs : stringAt (t ++ rest) 0 with
  | none => rfl
  | some newBuf =>
    have hlt := length_stringAt hs
    rw [Option.bind_some, fits, if_pos]
    simp only [List.length_append] at hlen hlt
    omega

variable {p title author t rest newTitle newAuthor : Text}

theorem replaceAnswered_title (hlen : (p ++ (title ++ 32 :: t) ++ rest).length ≤ 200)
    (ht : newTitle.length ≤ 18) (endByte : ℤ) (offset : ℕ) :
    (replaceAnswered p.length (p ++ title).length endByte ⟨p ++ (title ++ 32 :: t), offset⟩
      (p ++ (title ++ 32 :: t) ++ rest) Edit.title.answer newTitle newAuthor).map
        FileDesc.content =
    (stringAt (t ++ rest) 0).map fun newBuf => p ++ (cut newTitle ++ 32 :: newBuf) := by
  have hcontent : p ++ (title ++ 32 :: t) = p ++ title ++ [32] ++ t := by simp
  have hindex : ((p ++ title).length : ℤ) + 1 = (p ++ title ++ [32]).length := by simp; ring
  have hasked : ∀ (s b e : ℤ) (fd : FileDesc) (buf : Text),
      replaceAnswered s b e fd buf Edit.title.answer newTitle newAuthor =
        (readToken true newTitle (ascii " ")).bind fun newTitle => (copyTail buf (b + 1)).map
          fun newBuf => (((fd.seek s.toNat).truncate s.toNat).write newTitle).write newBuf :=
    fun _ _ _ _ _ => rfl
  have hread : readToken true newTitle (ascii " ") = some (cut newTitle ++ [32]) := readToken_eq ht
  rw [hasked, hread, Option.bind_some, hindex, hcontent, copyTail_eq (hcontent ▸ hlen),
    List.append_assoc p, List.append_assoc p, Int.toNat_natCast, Option.map_map]
  refine congrArg (Option.map · _) (funext fun newBuf => ?_)
  rw [Function.comp_apply, FileDesc.replace_end]
  simp

theorem replaceAnswered_author
    (hlen : (p ++ (title ++ 32 :: (author ++ 10 :: t)) ++ rest).length ≤ 200)
    (ha : newAuthor.length ≤ 18) (offset : ℕ) :
    (replaceAnswered p.length (p ++ title).length (p ++ title ++ 32 :: author).length
      ⟨p ++ (title ++ 32 :: (author ++ 10 :: t)), offset⟩
      (p ++ (title ++ 32 :: (author ++ 10 :: t)) ++ rest) Edit.author.answer newTitle
        newAuthor).map FileDesc.content =
    (stringAt (t ++ rest) 0).map fun newBuf =>
      (p ++ title ++ [32]) ++ (cut newAuthor ++ 10 :: newBuf) := by
  have hcontent : p ++ (title ++ 32 :: (author ++ 10 :: t)) =
      p ++ title ++ 32 :: author ++ [10] ++ t := by simp
  have hhead : p ++ title ++ 32 :: author ++ [10] ++ t =
      (p ++ title ++ [32]) ++ (author ++ 10 :: t) := by simp
  have hspace : ((p ++ title).length : ℤ) + 1 = (p ++ title ++ [32]).length := by simp; ring
  have hend : ((p ++ title ++ 32 :: author).length : ℤ) + 1 =
      (p ++ title ++ 32 :: author ++ [10]).length := by simp; ring
  have hasked : ∀ (s b : ℤ) (e : ℕ) (fd : FileDesc) (buf : Text),
      replaceAnswered s b e fd buf Edit.author.answer newTitle newAuthor =
        (readToken true newAuthor (ascii "\n")).bind fun newAuthor => (copyTail buf (e + 1)).map
          fun newBuf => ((((fd.seek (b + 1).toNat).truncate (b + 1).toNat).write newAuthor).write
            newBuf) :=
    fun _ _ _ _ _ => rfl
  have hread : readToken true newAuthor (ascii "\n") = some (cut newAuthor ++ [10]) :=
    readToken_eq ha
  rw [hasked, hread, Option.bind_some, hspace, hend, hcontent, copyTail_eq (hcontent ▸ hlen), hhead,
    Int.toNat_natCast, Option.map_map]
  refine congrArg (Option.map · _) (funext fun newBuf => ?_)
  rw [Function.comp_apply, FileDesc.replace_end]
  simp

theorem replaceAnswered_insert (hlen : (p ++ t ++ rest).length ≤ 200) (ht : newTitle.length ≤ 18)
    (ha : newAuthor.length ≤ 18) (spaceByte endByte : ℤ) (offset : ℕ) :
    (replaceAnswered p.length spaceByte endByte ⟨p ++ t, offset⟩ (p ++ t ++ rest)
      Edit.insert.answer newTitle newAuthor).map FileDesc.content =
    (stringAt (t ++ rest) 0).map fun newBuf =>
      p ++ (cut newTitle ++ 32 :: (cut newAuthor ++ 10 :: (newBuf ++
        t.drop ((cut newTitle).length + 1 + ((cut newAuthor).length + 1) + newBuf.length)))) := by
  have hasked : ∀ (s b e : ℤ) (fd : FileDesc) (buf : Text),
      replaceAnswered s b e fd buf Edit.insert.answer newTitle newAuthor =
        (readToken true newTitle (ascii " ")).bind fun newTitle =>
          (readToken true newAuthor (ascii "\n")).bind fun newAuthor =>
            (copyTail buf s).map fun newBuf =>
              (((fd.seek s.toNat).write newTitle).write newAuthor).write newBuf :=
    fun _ _ _ _ _ => rfl
  have hreadT : readToken true newTitle (ascii " ") = some (cut newTitle ++ [32]) := readToken_eq ht
  have hreadA : readToken true newAuthor (ascii "\n") = some (cut newAuthor ++ [10]) :=
    readToken_eq ha
  rw [hasked, hreadT, hreadA, Option.bind_some, Option.bind_some, copyTail_eq hlen,
    Int.toNat_natCast, Option.map_map]
  refine congrArg (Option.map · _) (funext fun newBuf => ?_)
  simp only [Function.comp, FileDesc.seek]
  rw [FileDesc.write_middle, FileDesc.write_middle, FileDesc.write_middle]
  simp only [List.drop_drop, List.length_append, List.append_assoc, Nat.add_assoc,
    List.cons_append, List.nil_append, List.length_singleton]

/-- The copied tail is the whole one if and only if no byte of it is a NUL and the byte
behind the file is one. Of the old tail there is nothing left behind it. -/
theorem copied_iff (t rest : Text) {n : ℕ} (hn : 0 < n) :
    (∃ newBuf, stringAt (t ++ rest) 0 = some newBuf ∧ newBuf ++ t.drop (n + newBuf.length) = t) ↔
      0 ∉ t ∧ rest.head? = some 0 := by
  constructor
  · rintro ⟨newBuf, hs, heq⟩
    have hlen := congrArg List.length heq
    rw [List.length_append, List.length_drop] at hlen
    rw [stringAt, List.drop_zero] at hs
    split_ifs at hs with hmem
    obtain rfl := Option.some.inj hs
    have ht : 0 ∉ t := by
      intro ht
      obtain ⟨u, hu⟩ := eq_cut_append ht
      have hcut := congrArg List.length hu
      rw [cut_append_of_mem ht] at hlen
      rw [List.length_append, List.length_cons] at hcut
      omega
    have hrest : 0 ∈ rest := (List.mem_append.1 hmem).resolve_left ht
    obtain ⟨u, hu⟩ := eq_cut_append hrest
    rw [cut_append ht, List.length_append] at hlen
    have hnil : cut rest = [] := List.length_eq_zero_iff.1 (by omega)
    rw [hu, hnil]
    exact ⟨ht, rfl⟩
  · rintro ⟨ht, hhead⟩
    obtain ⟨u, rfl⟩ : ∃ u, rest = 0 :: u := List.head?_eq_some_iff.1 hhead
    refine ⟨t, stringAt_eq (List.drop_zero) ht, ?_⟩
    rw [List.drop_of_length_le (by omega), List.append_nil]

theorem copied_whole_iff (t rest : Text) :
    (∃ newBuf, stringAt (t ++ rest) 0 = some newBuf ∧ newBuf = t) ↔
      0 ∉ t ∧ rest.head? = some 0 := by
  rw [← copied_iff t rest (Nat.succ_pos t.length)]
  refine exists_congr fun newBuf => and_congr_right fun _ => ?_
  rw [List.drop_of_length_le (by omega), List.append_nil]

/-- What is written after a truncation is the new token and the old tail. -/
theorem written_iff {c : UInt8} (hc : c ≠ 0) (p token t rest : Text) :
    (stringAt (t ++ rest) 0).map (fun newBuf => p ++ (cut token ++ c :: newBuf)) =
      some (p ++ (token ++ c :: t)) ↔ 0 ∉ token ∧ 0 ∉ t ∧ rest.head? = some 0 := by
  rw [Option.map_eq_some_iff, ← copied_whole_iff]
  simp only [List.append_right_inj, cut_append_cons_inj hc, and_left_comm, exists_and_left]

theorem modify_length (f : Row → Row) (pre post : List Row) (row : Row) :
    (pre ++ row :: post).modify pre.length f = pre ++ f row :: post := by
  induction pre with
  | nil => simp
  | cons _ pre ih => simp [ih]

theorem insertIdx_length (pre post : List Row) (row : Row) :
    (pre ++ post).insertIdx pre.length row = pre ++ row :: post := by
  induction pre with
  | nil => simp
  | cons _ pre ih => simp [ih]

theorem Edit.tail_eq (pre post : List Row) (row : Row) (e : Edit) :
    e.tail (pre ++ row :: post) pre.length = match e with
      | .title => row.author ++ 10 :: fileText post
      | .author => fileText post
      | .insert => fileText (row :: post) := by
  unfold tail
  rw [List.drop_left]
  cases e <;> rfl

/-- The condition on what is copied and on the new tokens. -/
def Edit.Clean (e : Edit) (rows : List Row) (r : ℕ) (newTitle newAuthor rest : Text) : Prop :=
  rest.head? = some 0 ∧ 0 ∉ e.tail rows r ∧ ∀ t ∈ e.fresh newTitle newAuthor, 0 ∉ t

section Rows

variable (pre post : List Row) (row : Row) {rest newTitle newAuthor : Text}

theorem title_iff (hlen : (fileText (pre ++ row :: post) ++ rest).length ≤ 200)
    (ht : newTitle.length ≤ 18) (endByte : ℤ) (offset : ℕ) :
    (replaceAnswered (fileText pre).length (fileText pre ++ row.title).length endByte
      ⟨fileText (pre ++ row :: post), offset⟩ (fileText (pre ++ row :: post) ++ rest)
        Edit.title.answer newTitle newAuthor).map FileDesc.content =
      some (fileText (Edit.title.apply (pre ++ row :: post) pre.length newTitle newAuthor)) ↔
    Edit.title.Clean (pre ++ row :: post) pre.length newTitle newAuthor rest := by
  rw [fileText_split] at hlen ⊢
  have hrows : fileText (Edit.title.apply (pre ++ row :: post) pre.length newTitle newAuthor) =
      fileText pre ++ (newTitle ++ 32 :: (row.author ++ 10 :: fileText post)) := by
    simp [Edit.apply, modify_length, fileText_append, fileText_cons, Row.text]
  rw [replaceAnswered_title hlen ht, hrows, written_iff (by decide), Edit.Clean, Edit.tail_eq]
  simp only [Edit.fresh, List.mem_singleton, forall_eq]
  tauto

theorem author_iff (hlen : (fileText (pre ++ row :: post) ++ rest).length ≤ 200)
    (ha : newAuthor.length ≤ 18) (offset : ℕ) :
    (replaceAnswered (fileText pre).length (fileText pre ++ row.title).length
      (fileText pre ++ row.title ++ 32 :: row.author).length
      ⟨fileText (pre ++ row :: post), offset⟩ (fileText (pre ++ row :: post) ++ rest)
        Edit.author.answer newTitle newAuthor).map FileDesc.content =
      some (fileText (Edit.author.apply (pre ++ row :: post) pre.length newTitle newAuthor)) ↔
    Edit.author.Clean (pre ++ row :: post) pre.length newTitle newAuthor rest := by
  rw [fileText_split] at hlen ⊢
  have hrows : fileText (Edit.author.apply (pre ++ row :: post) pre.length newTitle newAuthor) =
      (fileText pre ++ row.title ++ [32]) ++ (newAuthor ++ 10 :: fileText post) := by
    simp [Edit.apply, modify_length, fileText_append, fileText_cons, Row.text]
  rw [replaceAnswered_author hlen ha, hrows, written_iff (by decide), Edit.Clean, Edit.tail_eq]
  simp only [Edit.fresh, List.mem_singleton, forall_eq]
  tauto

theorem insert_iff (hlen : (fileText (pre ++ row :: post) ++ rest).length ≤ 200)
    (ht : newTitle.length ≤ 18) (ha : newAuthor.length ≤ 18) (spaceByte endByte : ℤ)
    (offset : ℕ) :
    (replaceAnswered (fileText pre).length spaceByte endByte
      ⟨fileText (pre ++ row :: post), offset⟩ (fileText (pre ++ row :: post) ++ rest)
        Edit.insert.answer newTitle newAuthor).map FileDesc.content =
      some (fileText (Edit.insert.apply (pre ++ row :: post) pre.length newTitle newAuthor)) ↔
    Edit.insert.Clean (pre ++ row :: post) pre.length newTitle newAuthor rest := by
  rw [Edit.Clean, Edit.tail_eq, Edit.apply, insertIdx_length]
  rw [fileText_append] at hlen ⊢
  rw [replaceAnswered_insert hlen ht ha, Option.map_eq_some_iff, fileText_append,
    fileText_cons ⟨newTitle, newAuthor⟩]
  have hcopied := copied_iff (fileText (row :: post)) rest
    (n := (cut newTitle).length + 1 + ((cut newAuthor).length + 1)) (by omega)
  generalize fileText (row :: post) = t at *
  generalize stringAt (t ++ rest) 0 = copy at *
  simp only [Row.text, List.append_assoc, List.cons_append, List.nil_append,
    List.append_right_inj, cut_append_cons_inj (c := 32) (by decide),
    cut_append_cons_inj (c := 10) (by decide), Edit.fresh, List.mem_cons, List.not_mem_nil,
    or_false, forall_eq_or_imp, forall_eq, and_left_comm, exists_and_left, hcopied]
  tauto

end Rows

/-- The file is that of the edited rows, and nothing else, if and only if it is shorter than
the buffer, which held a NUL at the byte behind it, and neither the copied part nor a new token
holds one; where the end of the answer does not overwrite another variable. -/
theorem replaceAtRow_iff {room : ℕ} (hroom : 2 ≤ room) (rows : List Row)
    (hrows : ∀ row ∈ rows, row.WellFormed) (r : ℕ) (hr : r < rows.length) (e : Edit)
    (newTitle newAuthor : Text) (ht : newTitle.length ≤ 18) (ha : newAuthor.length ≤ 18)
    (memory : Text) (hmem : memory.length = 200) (offset : ℕ) :
    (∃ fd, replaceAtRow room r ⟨fileText rows, offset⟩ memory e.answer newTitle newAuthor =
        some fd ∧ fd.content = fileText (e.apply rows r newTitle newAuthor)) ↔
    memory[(fileText rows).length]? = some 0 ∧ 0 ∉ e.tail rows r ∧
      ∀ t ∈ e.fresh newTitle newAuthor, 0 ∉ t := by
  obtain ⟨pre, row, post, rfl, rfl⟩ : ∃ pre row post, rows = pre ++ row :: post ∧ pre.length = r :=
    ⟨rows.take r, rows[r], rows.drop (r + 1), by simp, by simp; omega⟩
  have hpre : ∀ row ∈ pre, row.WellFormed := fun row hrow => hrows row (by simp [hrow])
  rw [← Option.map_eq_some_iff, ← List.head?_drop]
  rcases le_or_gt (fileText (pre ++ row :: post)).length memory.length with hlen | hlen
  · rw [replaceAtRow_eq room pre post row hpre (hrows row (by simp)) offset e.answer newTitle
      newAuthor hlen, replaceElement_answer hroom]
    have hbuf : (fileText (pre ++ row :: post) ++
        memory.drop (fileText (pre ++ row :: post)).length).length ≤ 200 := by
      rw [List.length_append, List.length_drop]
      omega
    cases e with
    | title => exact title_iff pre post row hbuf ht _ _
    | author => exact author_iff pre post row hbuf ha _
    | insert => exact insert_iff pre post row hbuf ht ha _ _ _
  · have hread := FileDesc.read_all_eq_none ⟨fileText (pre ++ row :: post), offset⟩ memory hlen
    have hnone : replaceAtRow room pre.length ⟨fileText (pre ++ row :: post), offset⟩ memory e.answer
        newTitle newAuthor = none := by
      rw [replaceAtRow, hread]
      rfl
    have hdrop : memory.drop (fileText (pre ++ row :: post)).length = [] :=
      List.drop_of_length_le (by omega)
    simp [hnone, hdrop]

/-- Two rows. -/
def shelf : List Row := [⟨[97], [98]⟩, ⟨[99], [100]⟩]

theorem wellFormed_shelf : ∀ row ∈ shelf, row.WellFormed := by
  simp [shelf, Row.WellFormed, IsToken]

theorem replaceAtRow_iff_shelf :
    (∃ fd, replaceAtRow 2 1 ⟨fileText shelf, 0⟩ (List.replicate 200 0) Edit.insert.answer [101]
        [102] = some fd ∧ fd.content = fileText (Edit.insert.apply shelf 1 [101] [102])) ↔
    (List.replicate 200 (0 : UInt8))[(fileText shelf).length]? = some 0 ∧
      0 ∉ Edit.insert.tail shelf 1 ∧ ∀ t ∈ Edit.insert.fresh [101] [102], 0 ∉ t :=
  replaceAtRow_iff le_rfl shelf wellFormed_shelf 1 (by simp [shelf]) .insert [101] [102] (by simp)
    (by simp) _ List.length_replicate 0

/-- Where the buffer held no NUL behind the file, the copy runs out of it. -/
theorem copy_without_end : ¬ ∃ room ≥ 2, ∀ (rows : List Row), (∀ row ∈ rows, row.WellFormed) →
    ∀ r < rows.length, ∀ (e : Edit) (newTitle newAuthor : Text),
      IsToken newTitle → IsToken newAuthor → newTitle.length ≤ 18 → newAuthor.length ≤ 18 →
      ∀ (memory : Text), memory.length = 200 → ∀ offset, ∃ fd,
        replaceAtRow room r ⟨fileText rows, offset⟩ memory e.answer newTitle newAuthor =
          some fd ∧ fd.content = fileText (e.apply rows r newTitle newAuthor) := by
  rintro ⟨room, hroom, hall⟩
  have htoken : IsToken [101] := by simp [IsToken]
  obtain ⟨memory, hmem⟩ : ∃ memory : Text, memory = List.replicate 200 1 := ⟨_, rfl⟩
  have hlen : memory.length = 200 := by rw [hmem, List.length_replicate]
  have hfd := hall shelf wellFormed_shelf 0 (by simp [shelf]) .title [101] [101] htoken htoken
    (by simp) (by simp) memory hlen 0
  have hrest : (memory.drop (fileText shelf).length).head? = some 1 := by
    rw [hmem, List.drop_replicate]
    rfl
  have hshort : (fileText shelf).length ≤ memory.length := by
    rw [hlen]
    decide
  have hbuf : (fileText shelf ++ memory.drop (fileText shelf).length).length ≤ 200 := by
    rw [List.length_append, List.length_drop]
    omega
  have heq := replaceAtRow_eq room [] [⟨[99], [100]⟩] ⟨[97], [98]⟩ (by simp)
    (wellFormed_shelf _ (by simp [shelf])) 0 Edit.title.answer [101] [101] hshort
  rw [replaceElement_answer hroom] at heq
  rw [← Option.map_eq_some_iff] at hfd
  have hclean := (title_iff [] [⟨[99], [100]⟩] ⟨[97], [98]⟩ hbuf
    (by simp) _ _).1 ((congrArg (Option.map FileDesc.content) heq.symm).trans hfd)
  have hzero := hclean.1
  rw [hrest] at hzero
  cases hzero

end SchoolProjects.Books
