import SchoolProjects.Lib.Ber
import SchoolProjects.Lib.Hex

/-! The fields of a key (`rsakeyfind.cpp`): `ParseNext` reads the type and the length of a
field, `PrintFields` prints the contents of as many fields as it has names. It accepts
exactly the records whose contents have 1 to 1000 bytes, where only the lowest 32 bits of
a length count. Pointers are offsets in the image. A result `none` is a read outside the
image. -/

namespace SchoolProjects.RsaKeyFinder

open Ber Hex Text

/-! ### The source -/

section Source

variable (image : Text)

/-- A loop over the `n` bytes from the offset `k` on. -/
def overBytes {σ : Type} (k n : ℕ) (body : σ → ℕ → UInt8 → σ) (s : σ) : Option σ :=
  (List.range n).foldlM (fun s i => (image[k + i]?).map (body s i)) s

/-- The result of `ParseNext`, with the variables it sets. -/
structure Parsed where
  val : ℕ
  type : UInt32
  len : UInt32

def ParseNext (start : ℕ) : Option Parsed := do
  let type ← image[start]?
  let size ← image[start + 1]?
  if size &&& 0x80 = 0 then return ⟨start + 2, type.toUInt32, size.toUInt32⟩
  else
    let lensize := (size &&& 0x7f).toNat
    let len ← overBytes image (start + 2) lensize (fun (len : UInt32) _ b =>
      len <<< 8 ||| b.toUInt32) 0
    return ⟨start + 2 + lensize, type.toUInt32, len⟩

def OutputBytes (buffer len : ℕ) (output : Text) : Option Text :=
  (overBytes image buffer len (fun output i b =>
    output ++ (hex b ++ 32 :: if i < len - 1 ∧ i % 16 = 15 then [10] else [])) output).map
      fun output => output ++ [10]

/-- The loop of `PrintFields`; the last name is empty. Without a valid encoding there is no
text. -/
def fieldLoop : List Text → ℕ → Text → Option (Option Text)
  | [], _, _ => none
  | name :: fields, start, output =>
    if name = [] then some (some output)
    else do
      let p ← ParseNext image start
      if p.len = 0 ∨ 1000 < p.len then return none
      else
        let output ← OutputBytes image p.val p.len.toNat (output ++ (name ++ ascii " = \n"))
        fieldLoop fields (p.val + p.len.toNat) output

/-- The first field is the sequence; its length is not looked at. -/
def PrintFields (start : ℕ) (fields : List Text) : Option (Option Text) := do
  let p ← ParseNext image start
  fieldLoop image fields p.val []

end Source

def private_fields : List Text :=
  ["version", "modulus", "publicExponent", "privateExponent", "prime1", "prime2", "exponent1",
    "exponent2", "coefficient", ""].map ascii

def public_fields : List Text := ["modulus", "publicExponent", ""].map ascii

/-- The names without the last one, which is empty. -/
def private_names : List Text := private_fields.dropLast

/-! ### What is printed -/

/-- Sixteen bytes on a line, and no empty line at the end. -/
def dump (bytes : Text) : Text :=
  (bytes.zipIdx.flatMap fun p =>
    hex p.1 ++ 32 :: if p.2 < bytes.length - 1 ∧ p.2 % 16 = 15 then [10] else []) ++ [10]

/-- The names with the contents. -/
def listing (names : List Text) (fs : List Field) : Text :=
  (names.zip fs).flatMap fun p => p.1 ++ ascii " = \n" ++ dump p.2.content

/-- The content has 1 to 1000 bytes, and the low bits of the length say so. -/
structure Fits (f : Field) : Prop where
  pos : 0 < f.content.length
  le : f.content.length ≤ 1000
  length_eq : f.content.length = f.length.value % 2 ^ 32

/-! ### Loops over bytes -/

section Loops

variable {image : Text}

theorem overBytes_succ {σ : Type} {k n : ℕ} {body : σ → ℕ → UInt8 → σ} {s : σ} :
    overBytes image k (n + 1) body s =
      (overBytes image k n body s).bind fun s => (image[k + n]?).map (body s n) := by
  rw [overBytes, List.range_succ, List.foldlM_append]
  simp only [List.foldlM_cons, List.foldlM_nil, bind_pure]
  rfl

/-- A loop over bytes of the image folds over them. -/
theorem overBytes_iff {σ : Type} {k n : ℕ} {body : σ → ℕ → UInt8 → σ} {s s' : σ} :
    overBytes image k n body s = some s' ↔ ∃ t rest, t.length = n ∧ image.drop k = t ++ rest ∧
      s' = t.zipIdx.foldl (fun s p => body s p.2 p.1) s := by
  induction n generalizing s' with
  | zero =>
    constructor
    · intro h
      obtain rfl := Option.some.inj h
      exact ⟨[], image.drop k, rfl, rfl, rfl⟩
    · rintro ⟨t, rest, hlen, -, rfl⟩
      obtain rfl := List.length_eq_zero_iff.mp hlen
      rfl
  | succ n ih =>
    rw [overBytes_succ]
    constructor
    · intro h
      obtain ⟨s₁, hs₁, h⟩ := Option.bind_eq_some_iff.mp h
      obtain ⟨b, hb, rfl⟩ := Option.map_eq_some_iff.mp h
      obtain ⟨t, rest, rfl, hdrop, rfl⟩ := ih.mp hs₁
      rw [← List.getElem?_drop, hdrop, List.getElem?_append_right le_rfl, Nat.sub_self] at hb
      cases rest with
      | nil => cases hb
      | cons c rest =>
        obtain rfl := Option.some.inj hb
        refine ⟨t ++ [c], rest, by simp, by rw [hdrop, List.append_assoc]; rfl, ?_⟩
        rw [List.zipIdx_append, List.foldl_append]
        simp
    · rintro ⟨t, rest, hlen, hdrop, rfl⟩
      obtain ⟨t, b, rfl⟩ : ∃ t' b, t = t' ++ [b] :=
        ⟨_, _, (List.dropLast_append_getLast (List.ne_nil_of_length_eq_add_one hlen)).symm⟩
      rw [List.append_assoc] at hdrop
      rw [List.length_append, List.length_singleton, Nat.add_right_cancel_iff] at hlen
      subst hlen
      have hb : image[k + t.length]? = some b := by
        rw [← List.getElem?_drop, hdrop, List.getElem?_append_right le_rfl, Nat.sub_self]
        rfl
      rw [ih.mpr ⟨t, [b] ++ rest, rfl, hdrop, rfl⟩, Option.bind_some, hb, Option.map_some,
        List.zipIdx_append, List.foldl_append]
      simp

end Loops

/-! ### One field -/

section Parse

variable {image : Text}

theorem shift_or (v : ℕ) (b : UInt8) :
    UInt32.ofNat v <<< 8 ||| b.toUInt32 = UInt32.ofNat (256 * v + b.toNat) := by
  have hb := b.toNat_lt
  have hor := Nat.two_pow_add_eq_or_of_lt (i := 8) hb (v % 2 ^ 24)
  apply UInt32.toNat_inj.mp
  rw [UInt32.toNat_or, UInt32.toNat_shiftLeft, UInt32.toNat_ofNat', UInt32.toNat_ofNat',
    UInt8.toNat_toUInt32, Nat.shiftLeft_eq]
  have hlow : v % 2 ^ 32 * 2 ^ (UInt32.toNat 8 % 32) % 2 ^ 32 = 2 ^ 8 * (v % 2 ^ 24) := by
    change v % 2 ^ 32 * 2 ^ 8 % 2 ^ 32 = _
    omega
  rw [hlow, ← hor]
  omega

/-- The bytes of a length are put together as an `unsigned int`. -/
theorem foldl_len (t : Text) (v : ℕ) :
    t.zipIdx.foldl (fun (len : UInt32) p => len <<< 8 ||| p.1.toUInt32) (UInt32.ofNat v) =
      UInt32.ofNat (t.foldl (fun v b => 256 * v + b.toNat) v) := by
  have hmap : ∀ (t : Text) (v : ℕ),
      t.foldl (fun (len : UInt32) b => len <<< 8 ||| b.toUInt32) (UInt32.ofNat v) =
        UInt32.ofNat (t.foldl (fun v b => 256 * v + b.toNat) v) := by
    intro t
    induction t with
    | nil => exact fun v => rfl
    | cons b t ih =>
      intro v
      rw [List.foldl_cons, shift_or, ih, List.foldl_cons]
  rw [← hmap t v]
  conv_rhs => rw [← List.zipIdx_map_fst 0 t, List.foldl_map]

theorem and_size (b : UInt8) : (b &&& 0x80 = 0 ↔ b.toNat < 128) ∧
    (128 ≤ b.toNat → (b &&& 0x7f).toNat = b.toNat - 128) := by
  have h : ∀ n < 256, (UInt8.ofNat n &&& 0x80 = 0 ↔ n < 128) ∧
      (128 ≤ n → (UInt8.ofNat n &&& 0x7f).toNat = n - 128) := by decide +kernel
  have hb := h b.toNat b.toNat_lt
  rwa [UInt8.ofNat_toNat] at hb

theorem getElem?_of_drop {start : ℕ} {type b : UInt8} {t : Text}
    (h : image.drop start = type :: b :: t) :
    image[start]? = some type ∧ image[start + 1]? = some b ∧ image.drop (start + 2) = t := by
  refine ⟨?_, ?_, ?_⟩
  · rw [← Nat.add_zero start, ← List.getElem?_drop, h]
    rfl
  · rw [← List.getElem?_drop, h]
    rfl
  · rw [← List.drop_drop, h]
    rfl

theorem drop_of_drop {k : ℕ} {a t : Text} (h : image.drop k = a ++ t) :
    image.drop (k + a.length) = t := by
  rw [← List.drop_drop, h, List.drop_left]

/-- The value starts behind the header. -/
theorem drop_val {start : ℕ} {type : UInt8} {l : Length} {t : Text}
    (h : image.drop start = type :: (l.octets ++ t)) :
    image.drop (start + 1 + l.octets.length) = t := by
  rw [Nat.add_assoc, Nat.add_comm 1]
  exact drop_of_drop (a := type :: l.octets) h

theorem ParseNext_short {start : ℕ} {type b : UInt8} {t : Text}
    (h : image.drop start = type :: b :: t) (hb : b.toNat < 128) :
    ParseNext image start = some ⟨start + 2, type.toUInt32, b.toUInt32⟩ := by
  obtain ⟨htype, hsize, -⟩ := getElem?_of_drop h
  rw [ParseNext, htype, Option.bind_eq_bind, Option.bind_some, hsize, Option.bind_eq_bind,
    Option.bind_some, if_pos ((and_size b).1.mpr hb)]
  rfl

theorem ParseNext_long {start : ℕ} {type b : UInt8} {t : Text}
    (h : image.drop start = type :: b :: t) (hb : ¬ b.toNat < 128) :
    ParseNext image start = (overBytes image (start + 2) (b.toNat - 128)
      (fun (len : UInt32) _ b => len <<< 8 ||| b.toUInt32) 0).map fun len =>
        ⟨start + 2 + (b.toNat - 128), type.toUInt32, len⟩ := by
  obtain ⟨htype, hsize, -⟩ := getElem?_of_drop h
  rw [ParseNext, htype, Option.bind_eq_bind, Option.bind_some, hsize, Option.bind_eq_bind,
    Option.bind_some, if_neg fun h0 => hb ((and_size b).1.mp h0)]
  simp only [(and_size b).2 (not_lt.mp hb)]
  exact Option.map_eq_bind.symm

/-- A type and a length are read. -/
theorem ParseNext_eq {start : ℕ} {type : UInt8} {l : Length} {rest : Text}
    (h : image.drop start = type :: (l.octets ++ rest)) : ParseNext image start =
      some ⟨start + 1 + l.octets.length, type.toUInt32, UInt32.ofNat l.value⟩ := by
  have hfirst := l.toNat_first
  rw [Length.length_octets]
  cases l with
  | short n hn =>
    rw [Length.first] at hfirst
    have hsize : (UInt8.ofNat n).toUInt32 = UInt32.ofNat n :=
      UInt32.toNat_inj.mp (by rw [UInt8.toNat_toUInt32, hfirst, UInt32.toNat_ofNat']; omega)
    rw [ParseNext_short (b := UInt8.ofNat n) h (by rwa [hfirst]), hsize, Length.first,
      Nat.sub_eq_zero_of_le hn.le]
    rfl
  | long octets hoctets =>
    rw [Length.first] at hfirst
    have hbytes := (getElem?_of_drop h).2.2
    have hlen : overBytes image (start + 2) octets.length (fun (len : UInt32) _ b =>
        len <<< 8 ||| b.toUInt32) 0 = some _ :=
      overBytes_iff.mpr ⟨octets, rest, rfl, hbytes, rfl⟩
    rw [ParseNext_long (b := UInt8.ofNat (128 + octets.length)) h (by omega), hfirst, Length.first,
      Nat.add_sub_cancel_left, hlen, Option.map_some, Length.value, ← foldl_len]
    congr 2
    omega

/-- There is nothing else that `ParseNext` finds. -/
theorem ParseNext_iff {start : ℕ} {p : Parsed} : ParseNext image start = some p ↔
    ∃ (type : UInt8) (l : Length) (rest : Text), image.drop start = type :: (l.octets ++ rest) ∧
      p = ⟨start + 1 + l.octets.length, type.toUInt32, UInt32.ofNat l.value⟩ := by
  constructor
  · intro h
    obtain ⟨type, htype, h'⟩ := Option.bind_eq_some_iff.mp h
    obtain ⟨b, hb, h'⟩ := Option.bind_eq_some_iff.mp h'
    obtain ⟨hlt, rfl⟩ := List.getElem?_eq_some_iff.mp htype
    obtain ⟨hlt', rfl⟩ := List.getElem?_eq_some_iff.mp hb
    have hdrop := List.drop_eq_getElem_cons hlt
    rw [List.drop_eq_getElem_cons hlt'] at hdrop
    have hlen : image[start + 1].toNat - 128 ≤ (image.drop (start + 1 + 1)).length := by
      by_cases hb : image[start + 1].toNat < 128
      · omega
      · rw [ParseNext_long hdrop hb] at h
        obtain ⟨len, hlen, -⟩ := Option.map_eq_some_iff.mp h
        obtain ⟨octets, rest, hoctets, hrest, -⟩ := overBytes_iff.mp hlen
        rw [(getElem?_of_drop hdrop).2.2] at hrest
        rw [hrest, List.length_append]
        omega
    obtain ⟨l, rest, hl, -⟩ := Length.exists_octets _ hlen
    rw [hl] at hdrop
    exact ⟨_, l, rest, hdrop, (Option.some.inj ((ParseNext_eq hdrop).symm.trans h)).symm⟩
  · rintro ⟨type, l, rest, hdrop, rfl⟩
    exact ParseNext_eq hdrop

/-- The bytes are printed behind what was there. -/
theorem OutputBytes_iff {buffer len : ℕ} {output out : Text} :
    OutputBytes image buffer len output = some out ↔ ∃ t rest, t.length = len ∧
      image.drop buffer = t ++ rest ∧ out = output ++ dump t := by
  rw [OutputBytes, Option.map_eq_some_iff]
  constructor
  · rintro ⟨out', h, rfl⟩
    obtain ⟨t, rest, rfl, hdrop, rfl⟩ := overBytes_iff.mp h
    exact ⟨t, rest, rfl, hdrop, by
      rw [dump, List.foldl_append_eq_append, ← List.flatMap_def, List.append_assoc]⟩
  · rintro ⟨t, rest, rfl, hdrop, rfl⟩
    refine ⟨_, overBytes_iff.mpr ⟨t, rest, rfl, hdrop, rfl⟩, ?_⟩
    rw [dump, List.foldl_append_eq_append, ← List.flatMap_def, List.append_assoc]

end Parse

/-! ### Records -/

section Records

variable {image : Text}

theorem Fits.toNat_len {f : Field} (hf : Fits f) :
    (UInt32.ofNat f.length.value).toNat = f.content.length := by
  rw [UInt32.toNat_ofNat', hf.length_eq]

/-- The test of `PrintFields`. -/
theorem fits_iff {f : Field} (hlen : f.content.length = (UInt32.ofNat f.length.value).toNat) :
    Fits f ↔ ¬ (UInt32.ofNat f.length.value = 0 ∨ 1000 < UInt32.ofNat f.length.value) := by
  rw [not_or, ← UInt32.toNat_inj, UInt32.lt_iff_toNat_lt, ← hlen]
  rw [UInt32.toNat_ofNat'] at hlen
  constructor
  · rintro ⟨hpos, hle, -⟩
    exact ⟨hpos.ne', not_lt.mpr hle⟩
  · rintro ⟨hpos, hle⟩
    exact ⟨Nat.pos_of_ne_zero hpos, not_lt.mp hle, hlen⟩

theorem listing_cons (name : Text) (names : List Text) (f : Field) (fs : List Field) :
    listing (name :: names) (f :: fs) = name ++ ascii " = \n" ++ dump f.content ++
      listing names fs := rfl

/-- The loop accepts as many fields as there are names. -/
theorem fieldLoop_iff {names : List Text} (hnames : ∀ name ∈ names, name ≠ []) {start : ℕ}
    {output out : Text} : fieldLoop image (names ++ [[]]) start output = some (some out) ↔
      ∃ (fs : List Field) (rest : Text), fs.length = names.length ∧ (∀ f ∈ fs, Fits f) ∧
        image.drop start = fs.flatMap Field.octets ++ rest ∧ out = output ++ listing names fs := by
  induction names generalizing start output with
  | nil =>
    constructor
    · intro h
      obtain rfl := Option.some.inj (Option.some.inj h)
      exact ⟨[], _, rfl, by simp, rfl, (List.append_nil output).symm⟩
    · rintro ⟨fs, rest, hlen, -, -, rfl⟩
      obtain rfl := List.length_eq_zero_iff.mp hlen
      exact congrArg some (congrArg some (List.append_nil output).symm)
  | cons name names ih =>
    obtain ⟨hname, hrest⟩ := List.forall_mem_cons.mp hnames
    rw [List.cons_append, fieldLoop, if_neg hname]
    constructor
    · intro h
      obtain ⟨p, hp, h⟩ := Option.bind_eq_some_iff.mp h
      obtain ⟨type, l, t, hdrop, rfl⟩ := ParseNext_iff.mp hp
      by_cases hbad : UInt32.ofNat l.value = 0 ∨ 1000 < UInt32.ofNat l.value
      · rw [if_pos hbad] at h
        cases h
      · rw [if_neg hbad] at h
        obtain ⟨out₁, hout₁, h⟩ := Option.bind_eq_some_iff.mp h
        obtain ⟨content, t', hlen, hcontent, rfl⟩ := OutputBytes_iff.mp hout₁
        obtain ⟨fs, rest, hfs, hfits, hdrop', rfl⟩ := (ih hrest).mp h
        have hfield : Fits ⟨type, l, content⟩ := (fits_iff hlen).mpr hbad
        refine ⟨⟨type, l, content⟩ :: fs, rest, ?_, List.forall_mem_cons.mpr ⟨hfield, hfits⟩, ?_, ?_⟩
        · rw [List.length_cons, hfs, List.length_cons]
        · dsimp only at hcontent hdrop' hlen
          rw [drop_val hdrop] at hcontent
          rw [← hlen, drop_of_drop ((drop_val hdrop).trans hcontent)] at hdrop'
          rw [hdrop, hcontent, hdrop']
          simp [Field.octets, Field.header]
        · rw [listing_cons]
          simp only [List.append_assoc]
    · rintro ⟨fs, rest, hlen, hfits, hdrop, rfl⟩
      cases fs with
      | nil => cases hlen
      | cons f fs =>
        obtain ⟨hf, hfs⟩ := List.forall_mem_cons.mp hfits
        have hparse : image.drop start =
            f.type :: (f.length.octets ++ (f.content ++ (fs.flatMap Field.octets ++ rest))) := by
          rw [hdrop]
          simp [Field.octets, Field.header]
        rw [ParseNext_eq hparse, Option.bind_eq_bind, Option.bind_some,
          if_neg ((fits_iff hf.toNat_len.symm).mp hf)]
        have hval := drop_val hparse
        have hout : OutputBytes image _ _ (output ++ (name ++ ascii " = \n")) = some _ :=
          OutputBytes_iff.mpr ⟨f.content, _, hf.toNat_len.symm, hval, rfl⟩
        have hnext := drop_of_drop hval
        rw [← hf.toNat_len] at hnext
        rw [hout, Option.bind_eq_bind, Option.bind_some]
        refine (ih hrest).mpr ⟨fs, rest, Nat.succ.inj hlen, hfs, hnext, ?_⟩
        rw [listing_cons]
        simp only [List.append_assoc]

/-- There are a type, any length, and these fields at an offset. -/
def Record (image : Text) (start : ℕ) (fs : List Field) : Prop :=
  (∀ f ∈ fs, Fits f) ∧ ∃ (type : UInt8) (l : Length) (rest : Text),
    image.drop start = type :: (l.octets ++ (fs.flatMap Field.octets ++ rest))

/-- Records with as many fields as there are names are printed, and nothing else. -/
theorem PrintFields_iff {names : List Text} (hnames : ∀ name ∈ names, name ≠ []) {start : ℕ}
    {out : Text} : PrintFields image start (names ++ [[]]) = some (some out) ↔
      ∃ fs, fs.length = names.length ∧ Record image start fs ∧ out = listing names fs := by
  constructor
  · intro h
    obtain ⟨p, hp, h⟩ := Option.bind_eq_some_iff.mp h
    obtain ⟨type, l, t, hdrop, rfl⟩ := ParseNext_iff.mp hp
    obtain ⟨fs, rest, hlen, hfits, hfs, rfl⟩ := (fieldLoop_iff hnames).mp h
    rw [drop_val hdrop] at hfs
    exact ⟨fs, hlen, ⟨hfits, type, l, rest, by rw [hdrop, hfs]⟩, rfl⟩
  · rintro ⟨fs, hlen, ⟨hfits, type, l, rest, hdrop⟩, rfl⟩
    rw [PrintFields, ParseNext_eq hdrop, Option.bind_eq_bind, Option.bind_some]
    exact (fieldLoop_iff hnames).mpr ⟨fs, rest, hlen, hfits, drop_val hdrop, rfl⟩

end Records

end SchoolProjects.RsaKeyFinder
