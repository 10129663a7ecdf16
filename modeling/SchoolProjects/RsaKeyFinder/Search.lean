import SchoolProjects.RsaKeyFinder.Fields
import SchoolProjects.Lib.MachineInt

/-! The search of `rsakeyfind.cpp`, for the version of a private key or for a modulus. From
where the bytes are found `FindKeyStart` goes back to the nearest byte of a sequence, at most
19 bytes away. A key is printed where its fields are; it is missed when its length has the
byte of a sequence in it. A modulus as it was printed can be given as the one to look for. A
result `none` is a read or write outside an array, or an overflow of `int`. -/

namespace SchoolProjects.RsaKeyFinder

open Ber Hex Text

/-! ### The source -/

/-- `&map[k]` as the offset `k`, for an offset in the image. -/
def FindKeyStart (map : Text) (offset : ℕ) : Option ℕ :=
  ((List.range (min 20 (offset + 1))).map (offset - ·)).find? fun k => map[k]? = some 0x30

/-- `what` is the word in front of `KEY`. -/
def found (what : String) (key : ℕ) (output : Text) : Text :=
  ascii "FOUND " ++ ascii what ++ ascii " KEY AT " ++ hexadecimal (key % 2 ^ 32) ++ [10] ++
    output ++ [10]

/-- What is printed for one start of a key. -/
def printKey (image : Text) (find_public : Bool) (key : ℕ) : Option Text := do
  match ← PrintFields image key private_fields with
  | some output => return found "PRIVATE" key output
  | none =>
    if find_public then
      match ← PrintFields image key public_fields with
      | some output => return found "PUBLIC" key output
      | none => return []
    else return []

/-- The body of the loop of `FindKeys`: what is printed for one offset. -/
def findKey (image target : Text) (find_public : Bool) (i : ℕ) : Option Text :=
  if (image.drop i).take target.length ≠ target then some []
  else match FindKeyStart image i with
    | none => some []
    | some key => printKey image find_public key

def FindKeys (image : Text) (isize : ℤ) (target : Text) (find_public : Bool) : Option Text :=
  let target_size := int32 target.length
  if target_size < 0 ∨ isize - target_size < -2 ^ 31 then none
  else (List.range (isize - target_size).toNat).foldlM
    (fun out i => (findKey image target find_public i).map fun t => out ++ t) []

/-- `strtol` with base 16, for a digit and one more byte. -/
def strtol (a0 a1 : UInt8) : ℕ :=
  match digitValue a1 with
  | some d => 16 * (digitValue a0).getD 0 + d
  | none => (digitValue a0).getD 0

/-- The byte after a digit is read, whatever it is. -/
def secondByte (a0 : UInt8) : Text → ℤ × Text
  | [] => (-1, [])
  | a1 :: file => (strtol a0 a1, file)

/-- The value, or -1, and what is left of the file. -/
def GetHexByte : Text → ℤ × Text
  | [] => (-1, [])
  | a0 :: file =>
    if 48 ≤ a0 ∧ a0 ≤ 57 ∨ 97 ≤ a0 ∧ a0 ≤ 102 then secondByte a0 file else GetHexByte file

/-- The loop of `ReadModulus`, with an array of `size` bytes. -/
def readLoop (size : ℕ) : ℕ → Text → Text → Option Text
  | 0, _, _ => none
  | fuel + 1, file, modulus =>
    let (c, file) := GetHexByte file
    if c = -1 then some modulus
    else if modulus.length < size then
      readLoop size fuel file (modulus ++ [UInt8.ofNat c.toNat])
    else none

def ReadModulus (file : Text) : Option Text := readLoop file.length (file.length + 1) file []

def versionmarker : Text := [0x02, 0x01, 0x00, 0x02]

/-- What is printed for an image, and a file with a modulus where one is given. An empty image
cannot be mapped. -/
def main (image : Text) (file : Option Text) : Option Text :=
  if image = [] then some []
  else
    let isize := int32 (image.length % 2 ^ 32 : ℕ)
    match file with
    | some file => do
      let modulus ← ReadModulus file
      FindKeys image isize modulus true
    | none => FindKeys image isize versionmarker false

/-! ### A modulus is read as it was printed -/

section Modulus

/-- Bytes that `GetHexByte` skips. -/
def Blank (t : Text) : Prop := ∀ c ∈ t, ¬ (48 ≤ c ∧ c ≤ 57 ∨ 97 ≤ c ∧ c ≤ 102)

theorem GetHexByte_blank {t : Text} (ht : Blank t) (file : Text) :
    GetHexByte (t ++ file) = GetHexByte file := by
  induction t with
  | nil => rfl
  | cons c t ih =>
    obtain ⟨hc, ht⟩ := List.forall_mem_cons.mp ht
    rw [List.cons_append, GetHexByte, if_neg hc, ih ht]

theorem GetHexByte_hex (b : UInt8) (file : Text) :
    GetHexByte (hex b ++ file) = ((b.toNat : ℤ), file) := by
  have hb := b.toNat_lt
  have hsmall := digit_small (b.toNat / 16) (by omega)
  have hvalue : strtol (digit (b.toNat / 16)) (digit (b.toNat % 16)) = b.toNat := by
    rw [strtol, digitValue_digit _ (by omega), digitValue_digit _ (by omega)]
    exact Nat.div_add_mod b.toNat 16
  have hfile : hex b ++ file = digit (b.toNat / 16) :: digit (b.toNat % 16) :: file := rfl
  rw [hfile, GetHexByte, if_pos hsmall, secondByte, hvalue]

/-- Every byte takes two of the file. -/
theorem GetHexByte_length (file : Text) :
    (GetHexByte file).1 = -1 ∨ (GetHexByte file).2.length + 2 ≤ file.length := by
  induction file with
  | nil => exact Or.inl rfl
  | cons c file ih =>
    rw [GetHexByte]
    split_ifs
    · cases file with
      | nil => exact Or.inl rfl
      | cons c' file => exact Or.inr le_rfl
    · exact ih.imp_right fun h => h.trans (Nat.le_succ _)

/-- The array is large enough. -/
theorem readLoop_isSome (size : ℕ) {fuel : ℕ} {file modulus : Text} (hfuel : file.length < fuel)
    (hsize : modulus.length + file.length ≤ size) :
    (readLoop size fuel file modulus).isSome := by
  induction fuel generalizing file modulus with
  | zero => omega
  | succ fuel ih =>
    have hlen := GetHexByte_length file
    rw [readLoop]
    dsimp only
    split_ifs with hc hfull
    · rfl
    · have hle := hlen.resolve_left hc
      refine ih (by omega) ?_
      rw [List.length_append, List.length_singleton]
      omega
    · have hle := hlen.resolve_left hc
      omega

/-- Bytes in hexadecimal with blanks after them are read. -/
theorem readLoop_bytes (size : ℕ) {last : Text} (hlast : Blank last) {ps : List (UInt8 × Text)}
    (hps : ∀ p ∈ ps, Blank p.2) {fuel : ℕ} (hfuel : ps.length < fuel) {blank modulus : Text}
    (hblank : Blank blank) (hsize : modulus.length + ps.length ≤ size) :
    readLoop size fuel (blank ++ ((ps.flatMap fun p => hex p.1 ++ p.2) ++ last)) modulus =
      some (modulus ++ ps.map Prod.fst) := by
  obtain ⟨fuel, rfl⟩ : ∃ n, fuel = n + 1 := ⟨fuel - 1, by omega⟩
  induction ps generalizing fuel blank modulus with
  | nil =>
    have hend : GetHexByte last = (-1, []) := by
      rw [← List.append_nil last, GetHexByte_blank hlast]
      rfl
    rw [readLoop, GetHexByte_blank hblank]
    simp [hend]
  | cons p ps ih =>
    obtain ⟨hp, hrest⟩ := List.forall_mem_cons.mp hps
    rw [List.length_cons] at hfuel hsize
    have hneg : ¬ (p.1.toNat : ℤ) = -1 := by omega
    rw [readLoop, GetHexByte_blank hblank, List.flatMap_cons, List.append_assoc, List.append_assoc,
      GetHexByte_hex]
    dsimp only
    rw [if_neg hneg, if_pos (by omega), Int.toNat_natCast, UInt8.ofNat_toNat]
    obtain ⟨fuel, rfl⟩ : ∃ n, fuel = n + 1 := ⟨fuel - 1, by omega⟩
    have hfull : (modulus ++ [p.1]).length + ps.length ≤ size := by
      rw [List.length_append, List.length_singleton]
      omega
    rw [ih hrest hp hfull fuel (by omega), List.append_assoc]
    rfl

theorem blank_of_forall {t : Text} (h : ∀ c ∈ t, c = 32 ∨ c = 10) : Blank t := by
  intro c hc
  rcases h c hc with rfl | rfl <;> decide

theorem length_le_pieces (ps : List (UInt8 × Text)) :
    ps.length ≤ (ps.flatMap fun p => hex p.1 ++ p.2).length := by
  induction ps with
  | nil => exact le_rfl
  | cons p ps ih =>
    rw [List.flatMap_cons, List.length_cons, List.length_append, List.length_append, hex,
      List.length_cons]
    omega

/-- What is printed for some bytes is read back as these bytes. -/
theorem ReadModulus_dump (t : Text) : ReadModulus (dump t) = some t := by
  let blank (i : ℕ) : Text := 32 :: if i < t.length - 1 ∧ i % 16 = 15 then [10] else []
  let ps : List (UInt8 × Text) := t.zipIdx.map fun q => (q.1, blank q.2)
  have hdump : dump t = [] ++ ((ps.flatMap fun p => hex p.1 ++ p.2) ++ [10]) := by
    rw [List.flatMap_map]
    rfl
  have hlength : ps.length = t.length := by rw [List.length_map, List.length_zipIdx]
  have hfst : ps.map Prod.fst = t := by
    rw [List.map_map]
    exact List.zipIdx_map_fst 0 t
  have hblank : ∀ p ∈ ps, Blank p.2 := by
    intro p hp
    obtain ⟨q, -, rfl⟩ := List.mem_map.mp hp
    refine blank_of_forall fun c hc => ?_
    rcases List.mem_cons.mp hc with rfl | hc
    · exact Or.inl rfl
    · split_ifs at hc
      · exact Or.inr (List.mem_singleton.mp hc)
      · cases hc
  have hle : ps.length ≤ (dump t).length := by
    rw [hdump, List.nil_append, List.length_append]
    exact (length_le_pieces ps).trans (Nat.le_add_right _ _)
  have hnil : Blank [] := blank_of_forall fun c hc => absurd hc List.not_mem_nil
  have hlast : Blank [10] := blank_of_forall fun c hc => Or.inr (List.mem_singleton.mp hc)
  have hread : readLoop (dump t).length ((dump t).length + 1)
      ([] ++ ((ps.flatMap fun p => hex p.1 ++ p.2) ++ [10])) [] = some ([] ++ ps.map Prod.fst) :=
    readLoop_bytes _ hlast hblank (by omega) hnil (by rw [List.length_nil]; omega)
  rwa [← hdump, hfst] at hread

/-- A file never gives more bytes than the array has, and what `OutputBytes` has printed for a
part of an image gives that part. -/
theorem ReadModulus_OutputBytes : (∀ file, (ReadModulus file).isSome) ∧
    ∀ image buffer len out, OutputBytes image buffer len [] = some out →
      ReadModulus out = some ((image.drop buffer).take len) := by
  refine ⟨fun file => readLoop_isSome _ (Nat.lt_succ_self _) ?_, fun image buffer len out h => ?_⟩
  · rw [List.length_nil, Nat.zero_add]
  · obtain ⟨t, rest, rfl, hdrop, rfl⟩ := OutputBytes_iff.mp h
    rw [hdrop, List.take_left]
    exact ReadModulus_dump t

end Modulus

/-! ### The start of a key -/

section Start

variable {map image target : Text}

/-- The nearest byte of a sequence, at most 19 bytes before the offset. -/
def Nearest (map : Text) (offset k : ℕ) : Prop :=
  k ≤ offset ∧ offset < k + 20 ∧ map[k]? = some 0x30 ∧
    ∀ j, k < j → j ≤ offset → map[j]? ≠ some 0x30

theorem FindKeyStart_iff {offset k : ℕ} :
    FindKeyStart map offset = some k ↔ Nearest map offset k := by
  rw [FindKeyStart, List.find?_map, Option.map_eq_some_iff]
  constructor
  · rintro ⟨d, hd, rfl⟩
    obtain ⟨hat, hmem, hbefore⟩ := List.find?_range_eq_some.mp hd
    rw [List.mem_range] at hmem
    refine ⟨Nat.sub_le _ _, by omega, by simpa using hat, fun j hj hle => ?_⟩
    have hj' := hbefore (offset - j) (by omega)
    rw [Function.comp_apply, Nat.sub_sub_self hle] at hj'
    simpa using hj'
  · rintro ⟨hle, hlt, hat, hbefore⟩
    refine ⟨offset - k, List.find?_range_eq_some.mpr ⟨?_, ?_, fun d hd => ?_⟩,
      Nat.sub_sub_self hle⟩
    · rw [Function.comp_apply, Nat.sub_sub_self hle]
      simpa using hat
    · rw [List.mem_range]
      omega
    · have hd' := hbefore (offset - d) (by omega) (by omega)
      simpa using hd'

/-- From bytes behind the start of a sequence the way back ends there, where there is no other
such byte. -/
theorem FindKeyStart_behind {start : ℕ} {mid t : Text} {b : UInt8}
    (h : image.drop start = 0x30 :: (mid ++ b :: t)) (hmid : mid.length < 19) (hb : b ≠ 0x30) :
    FindKeyStart image (start + 1 + mid.length) = some start ↔ 0x30 ∉ mid := by
  have hread : ∀ j, image[start + j]? = (0x30 :: (mid ++ b :: t))[j]? := fun j => by
    rw [← List.getElem?_drop, h]
  rw [FindKeyStart_iff]
  constructor
  · rintro ⟨-, -, -, hbefore⟩ hmem
    obtain ⟨j, hj, hat⟩ := List.mem_iff_getElem.mp hmem
    refine hbefore (start + (j + 1)) (by omega) (by omega) ?_
    rw [hread, List.getElem?_cons_succ, List.getElem?_append_left hj, List.getElem?_eq_getElem hj,
      hat]
  · intro hnot
    refine ⟨by omega, by omega, hread 0, fun j hj hle hat => ?_⟩
    obtain ⟨i, rfl⟩ : ∃ i, j = start + (i + 1) := ⟨j - start - 1, by omega⟩
    rw [hread, List.getElem?_cons_succ] at hat
    rcases Nat.lt_or_ge i mid.length with hi | hi
    · rw [List.getElem?_append_left hi] at hat
      exact hnot (List.mem_of_getElem? hat)
    · obtain rfl : i = mid.length := by omega
      rw [List.getElem?_append_right le_rfl, Nat.sub_self] at hat
      exact hb (Option.some.inj hat)

end Start

/-! ### What is printed -/

section Reports

variable {image target : Text} {find_public : Bool}

/-- One key that is printed. -/
structure Report where
  what : String
  key : ℕ
  output : Text

def Report.text (r : Report) : Text := found r.what r.key r.output

/-- A key is printed from its start. -/
def Prints (image : Text) (find_public : Bool) (r : Report) : Prop :=
  r.what = "PRIVATE" ∧ PrintFields image r.key private_fields = some (some r.output) ∨
    find_public = true ∧ r.what = "PUBLIC" ∧ PrintFields image r.key private_fields = some none ∧
      PrintFields image r.key public_fields = some (some r.output)

/-- A key is printed for the bytes at an offset. -/
def Reports (image target : Text) (find_public : Bool) (i : ℕ) (r : Report) : Prop :=
  (image.drop i).take target.length = target ∧ FindKeyStart image i = some r.key ∧
    Prints image find_public r

theorem printKey_prints {key : ℕ} {t : Text} (h : printKey image find_public key = some t) :
    ∃ rs : List Report, t = rs.flatMap Report.text ∧
      ∀ r, r ∈ rs ↔ r.key = key ∧ Prints image find_public r := by
  obtain ⟨output, hprivate, h⟩ := Option.bind_eq_some_iff.mp h
  cases output with
  | some output =>
    obtain rfl := Option.some.inj h
    refine ⟨[⟨"PRIVATE", key, output⟩], (List.append_nil _).symm, fun r => ?_⟩
    rw [List.mem_singleton]
    constructor
    · rintro rfl
      exact ⟨rfl, Or.inl ⟨rfl, hprivate⟩⟩
    · obtain ⟨what, key', output'⟩ := r
      rintro ⟨rfl, ⟨rfl, h'⟩ | ⟨-, -, h', -⟩⟩
      · obtain rfl := Option.some.inj (Option.some.inj (hprivate.symm.trans h'))
        rfl
      · cases hprivate.symm.trans h'
  | none =>
    have hno : ∀ {r : Report}, r.key = key →
        PrintFields image r.key private_fields ≠ some (some r.output) := by
      rintro r rfl h'
      cases hprivate.symm.trans h'
    dsimp only at h
    by_cases hpublic : find_public = true
    · rw [if_pos hpublic] at h
      obtain ⟨output, hprint, h⟩ := Option.bind_eq_some_iff.mp h
      cases output with
      | some output =>
        obtain rfl := Option.some.inj h
        refine ⟨[⟨"PUBLIC", key, output⟩], (List.append_nil _).symm, fun r => ?_⟩
        rw [List.mem_singleton]
        constructor
        · rintro rfl
          exact ⟨rfl, Or.inr ⟨hpublic, rfl, hprivate, hprint⟩⟩
        · rintro ⟨hkey, ⟨-, h'⟩ | ⟨-, hwhat, -, h'⟩⟩
          · exact absurd h' (hno hkey)
          · obtain ⟨what, key', output'⟩ := r
            obtain rfl : key' = key := hkey
            obtain rfl : what = "PUBLIC" := hwhat
            obtain rfl := Option.some.inj (Option.some.inj (hprint.symm.trans h'))
            rfl
      | none =>
        obtain rfl := Option.some.inj h
        refine ⟨[], rfl, fun r => iff_of_false List.not_mem_nil ?_⟩
        rintro ⟨rfl, ⟨-, h'⟩ | ⟨-, -, -, h'⟩⟩
        · exact hno rfl h'
        · cases hprint.symm.trans h'
    · rw [if_neg hpublic] at h
      obtain rfl := Option.some.inj h
      refine ⟨[], rfl, fun r => iff_of_false List.not_mem_nil ?_⟩
      rintro ⟨hkey, ⟨-, h'⟩ | ⟨h', -⟩⟩
      · exact hno hkey h'
      · exact hpublic h'

theorem findKey_reports {i : ℕ} {t : Text} (h : findKey image target find_public i = some t) :
    ∃ rs : List Report, t = rs.flatMap Report.text ∧
      ∀ r, r ∈ rs ↔ Reports image target find_public i r := by
  rw [findKey] at h
  by_cases hat : (image.drop i).take target.length = target
  · rw [if_neg (not_not.mpr hat)] at h
    cases hkey : FindKeyStart image i with
    | none =>
      rw [hkey] at h
      obtain rfl := Option.some.inj h
      exact ⟨[], rfl, fun r => iff_of_false List.not_mem_nil fun hr => by
        cases hkey.symm.trans hr.2.1⟩
    | some key =>
      rw [hkey] at h
      obtain ⟨rs, rfl, hrs⟩ := printKey_prints h
      refine ⟨rs, rfl, fun r => (hrs r).trans ?_⟩
      rw [Reports, hkey, Option.some.injEq, eq_comm (a := key)]
      exact (and_iff_right hat).symm
  · rw [if_pos hat] at h
    obtain rfl := Option.some.inj h
    exact ⟨[], rfl, fun r => iff_of_false List.not_mem_nil fun hr => hat hr.1⟩

/-- What the whole search prints. -/
theorem FindKeys_reports {isize : ℤ} {out : Text}
    (h : FindKeys image isize target find_public = some out) :
    ∃ rs : List Report, out = rs.flatMap Report.text ∧
      ∀ r, r ∈ rs ↔ ∃ i < (isize - int32 target.length).toNat,
        Reports image target find_public i r := by
  rw [FindKeys] at h
  split_ifs at h
  generalize (isize - int32 target.length).toNat = n at h ⊢
  induction n generalizing out with
  | zero =>
    obtain rfl := Option.some.inj h
    exact ⟨[], rfl, fun r => iff_of_false List.not_mem_nil fun ⟨i, hi, _⟩ => by omega⟩
  | succ n ih =>
    rw [List.range_succ, List.foldlM_append] at h
    obtain ⟨out₁, hout, h⟩ := Option.bind_eq_some_iff.mp h
    obtain ⟨rs, rfl, hrs⟩ := ih hout
    simp only [List.foldlM_cons, List.foldlM_nil, bind_pure] at h
    obtain ⟨t, ht, rfl⟩ := Option.map_eq_some_iff.mp h
    obtain ⟨rs', rfl, hrs'⟩ := findKey_reports ht
    refine ⟨rs ++ rs', List.flatMap_append.symm, fun r => ?_⟩
    rw [List.mem_append, hrs, hrs']
    constructor
    · rintro (⟨i, hi, hr⟩ | hr)
      · exact ⟨i, by omega, hr⟩
      · exact ⟨n, by omega, hr⟩
    · rintro ⟨i, hi, hr⟩
      rcases Nat.lt_succ_iff_lt_or_eq.mp hi with hi | rfl
      · exact Or.inl ⟨i, hi, hr⟩
      · exact Or.inr hr

end Reports

/-! ### Keys in an image -/

/-- The field in front of the modulus of a private key. -/
def version : Field := ⟨2, .short 1 (by decide), [0]⟩

/-- A private key: the lengths are right and the contents have 1 to 1000 bytes. -/
structure PrivateKey where
  length : Length
  modulus : Field
  others : List Field
  length_others : others.length = 7
  type_modulus : modulus.type = 2
  exact : ∀ f ∈ modulus :: others, f.Exact
  size : ∀ f ∈ modulus :: others, 0 < f.content.length ∧ f.content.length ≤ 1000

namespace PrivateKey

variable (key : PrivateKey)

def fields : List Field := version :: key.modulus :: key.others

def octets : Text := 0x30 :: (key.length.octets ++ key.fields.flatMap Field.octets)

/-- The bytes between the start and the version. -/
def beforeVersion : Text := key.length.octets

/-- The bytes between the start and the content of the modulus. -/
def beforeModulus : Text := key.length.octets ++ (version.octets ++ key.modulus.header)

theorem length_fields : key.fields.length = 9 := by
  rw [fields, List.length_cons, List.length_cons, key.length_others]

theorem fits : ∀ f ∈ key.fields, Fits f := by
  intro f hf
  rcases List.mem_cons.mp hf with rfl | hf
  · exact ⟨by decide, by decide, by decide⟩
  · obtain ⟨hpos, hle⟩ := key.size f hf
    have hexact : f.content.length = f.length.value := key.exact f hf
    exact ⟨hpos, hle, by omega⟩

variable {key} {image pre post : Text}

theorem drop_octets (h : image = pre ++ (key.octets ++ post)) :
    image.drop pre.length = key.octets ++ post := by
  rw [h, List.drop_left]

theorem version_octets : version.octets = [0x02, 0x01, 0x00] := by decide

/-- The marker, and more bytes, are behind the start. -/
theorem drop_version (h : image = pre ++ (key.octets ++ post)) : ∃ t, t ≠ [] ∧
    image.drop pre.length = 0x30 :: (key.beforeVersion ++ (0x02 :: [0x01, 0x00, 0x02] ++ t)) := by
  refine ⟨key.modulus.length.octets ++ (key.modulus.content ++
    (key.others.flatMap Field.octets ++ post)), ?_, ?_⟩
  · exact List.cons_ne_nil _ _
  · rw [drop_octets h, octets, fields, List.flatMap_cons, List.flatMap_cons, version_octets,
      Field.octets, Field.header, key.type_modulus]
    simp [beforeVersion]

/-- The modulus, and more bytes, are behind the start. -/
theorem drop_modulus (h : image = pre ++ (key.octets ++ post)) : ∃ t, t ≠ [] ∧
    image.drop pre.length = 0x30 :: (key.beforeModulus ++ (key.modulus.content ++ t)) := by
  refine ⟨key.others.flatMap Field.octets ++ post, ?_, ?_⟩
  · obtain ⟨f, fs, hothers⟩ := List.exists_cons_of_length_eq_add_one key.length_others
    rw [hothers]
    exact List.cons_ne_nil _ _
  · rw [drop_octets h, octets, fields, List.flatMap_cons, List.flatMap_cons]
    simp [beforeModulus, Field.octets]

theorem record (h : image = pre ++ (key.octets ++ post)) : Record image pre.length key.fields := by
  refine ⟨key.fits, 0x30, key.length, post, ?_⟩
  rw [drop_octets h, octets, List.cons_append, List.append_assoc]

end PrivateKey

section Main

variable {image target out : Text} {find_public : Bool}

theorem isize_eq (hlen : image.length < 2 ^ 31) :
    int32 (image.length % 2 ^ 32 : ℕ) = image.length := by
  rw [Nat.mod_eq_of_lt (by omega)]
  exact int32_of_range (by omega) (by omega)

theorem private_iff {key : ℕ} {output : Text} :
    PrintFields image key private_fields = some (some output) ↔
      ∃ fs, fs.length = 9 ∧ Record image key fs ∧ output = listing private_names fs :=
  PrintFields_iff (show ∀ name ∈ private_names, name ≠ [] by decide)

/-- A key is printed when the bytes that are looked for are in it, with no byte of a sequence
in between. -/
theorem found_of_target {start : ℕ} {mid t : Text} {b : UInt8} (hlen : image.length < 2 ^ 31)
    (h : image.drop start = 0x30 :: (mid ++ (b :: target ++ t))) (ht : t ≠ []) (hb : b ≠ 0x30)
    (hmid : mid.length < 19) (h30 : 0x30 ∉ mid) {fs : List Field} (hfs : fs.length = 9)
    (hrecord : Record image start fs)
    (hout : FindKeys image image.length (b :: target) find_public = some out) :
    found "PRIVATE" start (listing private_names fs) <:+: out := by
  obtain ⟨rs, rfl, hrs⟩ := FindKeys_reports hout
  have hdrop : image.drop (start + 1 + mid.length) = b :: target ++ t := by
    rw [Nat.add_assoc, Nat.add_comm 1]
    exact drop_of_drop (a := 0x30 :: mid) h
  have hsize := congrArg List.length hdrop
  have htpos := List.length_pos_iff.mpr ht
  rw [List.length_drop, List.length_append] at hsize
  have hint : int32 (b :: target).length = (b :: target).length :=
    int32_of_range (by omega) (by omega)
  have hmem : (⟨"PRIVATE", start, listing private_names fs⟩ : Report) ∈ rs := by
    rw [hrs, hint]
    refine ⟨start + 1 + mid.length, by omega, ?_, (FindKeyStart_behind h hmid hb).mpr h30,
      Or.inl ⟨rfl, private_iff.mpr ⟨fs, hfs, hrecord, rfl⟩⟩⟩
    rw [hdrop, List.take_left]
  obtain ⟨before, after, rfl⟩ := List.append_of_mem hmem
  rw [List.flatMap_append, List.flatMap_cons]
  exact ⟨_, _, (List.append_assoc _ _ _)⟩

theorem main_none (hlen : image.length < 2 ^ 31) (hne : image ≠ []) :
    main image none = FindKeys image image.length versionmarker false := by
  rw [main, if_neg hne, isize_eq hlen]

variable {key : PrivateKey} {pre post : Text}

/-- From its version the way back ends at a private key exactly when no byte of the length of
the sequence is that of a sequence; then the key is printed. -/
theorem main_private (hlen : image.length < 2 ^ 31) (himage : image = pre ++ (key.octets ++ post))
    (hbefore : key.beforeVersion.length < 19) :
    (FindKeyStart image (pre.length + 1 + key.beforeVersion.length) = some pre.length ↔
      0x30 ∉ key.beforeVersion) ∧
    (0x30 ∉ key.beforeVersion → ∀ out, main image none = some out →
      found "PRIVATE" pre.length (listing private_names key.fields) <:+: out) := by
  obtain ⟨t, ht, hdrop⟩ := PrivateKey.drop_version himage
  refine ⟨FindKeyStart_behind hdrop hbefore (by decide), fun h30 out h => ?_⟩
  have hne : image ≠ [] := by
    rintro rfl
    rw [List.drop_nil] at hdrop
    cases hdrop
  rw [main_none hlen hne] at h
  exact found_of_target hlen hdrop ht (by decide) hbefore h30 key.length_fields
    (PrivateKey.record himage) h

/-- With its modulus, as it was printed, the key is printed again. -/
theorem main_modulus (hlen : image.length < 2 ^ 31) (himage : image = pre ++ (key.octets ++ post))
    (hbefore : key.beforeModulus.length < 19) (h30 : 0x30 ∉ key.beforeModulus)
    (hfirst : key.modulus.content.head? ≠ some 0x30)
    (h : main image (some (dump key.modulus.content)) = some out) :
    found "PRIVATE" pre.length (listing private_names key.fields) <:+: out := by
  obtain ⟨t, ht, hdrop⟩ := PrivateKey.drop_modulus himage
  have hpos := (key.size key.modulus List.mem_cons_self).1
  obtain ⟨b, target, hmodulus⟩ := List.exists_cons_of_length_pos hpos
  rw [hmodulus] at hdrop hfirst h
  have hne : image ≠ [] := by
    rintro rfl
    rw [List.drop_nil] at hdrop
    cases hdrop
  rw [main, if_neg hne, isize_eq hlen] at h
  dsimp only at h
  rw [ReadModulus_dump, Option.bind_eq_bind, Option.bind_some] at h
  exact found_of_target hlen hdrop ht (fun hb => hfirst (congrArg some hb)) hbefore h30
    key.length_fields (PrivateKey.record himage) h

/-! A small private key, and an image with it. -/

def small (type b : UInt8) : Field := ⟨type, .short 1 (by decide), [b]⟩

def smallKey : PrivateKey where
  length := .long [27] (by decide)
  modulus := small 2 77
  others := List.replicate 7 (small 2 5)
  length_others := rfl
  type_modulus := rfl
  exact := by simp [small, Field.Exact, Length.value]
  size := by simp [small]

def smallImage : Text := [1, 2] ++ (smallKey.octets ++ [9])

theorem smallImage_lt : smallImage.length < 2 ^ 31 := by decide +kernel

def smallOut : Text := found "PRIVATE" 2 (listing private_names smallKey.fields)

theorem main_private_small : FindKeyStart smallImage 5 = some 2 := by
  have himage : smallImage = [1, 2] ++ (smallKey.octets ++ [9]) := rfl
  exact (main_private smallImage_lt himage (by decide)).1.mpr (by decide)

theorem main_modulus_small :
    found "PRIVATE" 2 (listing private_names smallKey.fields) <:+: smallOut := by
  have himage : smallImage = [1, 2] ++ (smallKey.octets ++ [9]) := rfl
  have hout : main smallImage (some (dump smallKey.modulus.content)) = some smallOut := by
    decide +kernel
  have h := main_modulus smallImage_lt himage (by decide) (by decide) (by decide) hout
  exact h

end Main

end SchoolProjects.RsaKeyFinder
