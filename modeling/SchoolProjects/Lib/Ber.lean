import SchoolProjects.Lib.Text

/-! Fields of a type, a length and a value, with a length in one byte or behind a byte that
says how many bytes it has. Every byte with enough bytes after it starts with exactly one
length, so a text is read in at most one way. -/

namespace SchoolProjects.Ber

/-! ### Lengths -/

/-- The two forms of a length. -/
inductive Length
  | short (n : ℕ) (h : n < 128)
  | long (octets : Text) (h : octets.length < 128)

namespace Length

/-- The first byte. -/
def first : Length → ℕ
  | short n _ => n
  | long octets _ => 128 + octets.length

/-- The bytes after the first one. -/
def more : Length → Text
  | short _ _ => []
  | long octets _ => octets

def octets (l : Length) : Text := UInt8.ofNat l.first :: l.more

def value : Length → ℕ
  | short n _ => n
  | long octets _ => octets.foldl (fun v b => 256 * v + b.toNat) 0

theorem first_lt (l : Length) : l.first < 256 := by
  cases l with
  | short n h => exact h.trans (by norm_num)
  | long octets h =>
    change 128 + octets.length < 256
    omega

theorem toNat_first (l : Length) : (UInt8.ofNat l.first).toNat = l.first :=
  UInt8.toNat_ofNat_of_lt l.first_lt

/-- A byte starts a length where enough bytes follow. -/
theorem exists_octets (b : UInt8) {t : Text} (ht : b.toNat - 128 ≤ t.length) :
    ∃ (l : Length) (rest : Text), b :: t = l.octets ++ rest ∧ l.first = b.toNat := by
  by_cases hb : b.toNat < 128
  · refine ⟨short b.toNat hb, t, ?_, rfl⟩
    rw [octets, first, more, UInt8.ofNat_toNat]
    rfl
  · have hlt := b.toNat_lt
    have hlen : (t.take (b.toNat - 128)).length = b.toNat - 128 := List.length_take_of_le ht
    have hfirst : (long (t.take (b.toNat - 128)) (by omega)).first = b.toNat := by
      rw [first, hlen]
      omega
    refine ⟨long (t.take (b.toNat - 128)) (by omega), t.drop (b.toNat - 128), ?_, hfirst⟩
    rw [octets, hfirst, more, UInt8.ofNat_toNat, List.cons_append, List.take_append_drop]

theorem length_more (l : Length) : l.more.length = l.first - 128 := by
  cases l with
  | short n h =>
    change 0 = n - 128
    omega
  | long octets h =>
    change octets.length = 128 + octets.length - 128
    omega

theorem length_octets (l : Length) : l.octets.length = l.first - 128 + 1 := by
  rw [octets, List.length_cons, length_more]

end Length

/-! ### Fields -/

structure Field where
  type : UInt8
  length : Length
  content : Text

namespace Field

/-- The bytes in front of the content. -/
def header (f : Field) : Text := f.type :: f.length.octets

def octets (f : Field) : Text := f.header ++ f.content

/-- The length tells the size of the content. -/
def Exact (f : Field) : Prop := f.content.length = f.length.value

end Field

end SchoolProjects.Ber
