import SchoolProjects.Lib.MachineInt
import SchoolProjects.Vision.UnionFind

/-! The images of the labelling program (`image.h`, `image.cc`): reading pixels and
giving them provisional labels, the second pass, the object records and writing.
Headers and the reuse of an image come with the files, in modules of their own, and so
do the centres and the moments of the objects. Labels are unbounded integers, where the
source has `int`; these are the same as long as fewer than `2 ^ 31` provisional labels are
given, and `labelCount_le` says that no more are given than there are pixels, and one. A
result `none` is a call of `abort`, or undefined behaviour in the union-find structure. -/

namespace SchoolProjects.Vision

/-- The fields of `struct objData` that `recordData` fills. -/
structure ObjData where
  label : ℤ
  totalX : ℤ := 0
  totalY : ℤ := 0
  area : ℤ := 0
  deriving DecidableEq

/-- `class Image`. -/
structure Image where
  num_rows : ℕ
  num_columns : ℕ
  pixels : ℕ → ℕ → ℤ
  objects : ℤ → Option ObjData
  labels : ℕ → ℕ → ℤ
  labelCount : ℤ
  labelChart : UnionFind

namespace Image

/-- A new image after `AllocateSpaceAndSetSize`; the arrays are not initialised and
hold whatever `memory` does. -/
def allocate (memory : ℕ → ℕ → ℤ) (num_rows num_columns : ℕ) : Image :=
  ⟨num_rows, num_columns, memory, fun _ => none, memory, 0, .empty⟩

/-- `labels_[i][j] = label`. -/
def putLabel (im : Image) (i j : ℕ) (label : ℤ) : Image :=
  { im with labels := Function.update im.labels i (Function.update (im.labels i) j label) }

/-- `labelCount++; labels_[i][j] = labelCount;` -/
def newLabel (im : Image) (i j : ℕ) : Image :=
  { im with labelCount := im.labelCount + 1 }.putLabel i j (im.labelCount + 1)

def SetPixel (im : Image) (i j : ℕ) (gray_level : ℤ) : Option Image :=
  if im.num_rows ≤ i ∨ im.num_columns ≤ j then none
  else some { im with
    pixels := Function.update im.pixels i (Function.update (im.pixels i) j gray_level) }

/-- The labels above, to the left, and above to the left, as `setLabel` reads them. -/
def labelTop (im : Image) (i j : ℕ) : ℤ := if i = 0 then -1 else im.labels (i - 1) j

def labelLeft (im : Image) (i j : ℕ) : ℤ := if j = 0 then -1 else im.labels i (j - 1)

def labelTopLeft (im : Image) (i j : ℕ) : ℤ :=
  if i = 0 ∨ j = 0 then -1 else im.labels (i - 1) (j - 1)

/-- The branches of `setLabel` for a pixel of value 255. -/
def assignLabel (im : Image) (i j : ℕ) (labelTop labelLeft labelTopLeft : ℤ) : Option Image :=
  if labelTop + labelLeft + labelTopLeft = -3 then
    let im := im.newLabel i j
    (im.labelChart.find im.labelCount).map fun r => { im with labelChart := r.2 }
  else if labelTopLeft > 0 then some (im.putLabel i j labelTopLeft)
  else if labelTop + labelTopLeft = -2 then some (im.putLabel i j labelLeft)
  else if labelLeft + labelTopLeft = -2 then some (im.putLabel i j labelTop)
  else if labelLeft ≠ labelTop then
    (im.labelChart.Union labelLeft labelTop).map fun r =>
      { im with labelChart := r.2 }.putLabel i j labelLeft
  else some im

/-- The first two stores of `setLabel`. The pixel in the top left corner takes a
number here and, if it is 255, another one below. -/
def clearLabel (im : Image) (i j : ℕ) (gray_level : ℤ) : Image :=
  let im := im.putLabel i j (-1)
  if i = 0 ∧ j = 0 then
    if gray_level = 255 then im.newLabel i j else im.putLabel i j (-1)
  else im

def setLabel (im : Image) (i j : ℕ) (gray_level : ℤ) : Option Image :=
  if im.num_rows ≤ i ∨ im.num_columns ≤ j then none
  else
    let im := im.clearLabel i j gray_level
    if gray_level = 255 then
      im.assignLabel i j (im.labelTop i j) (im.labelLeft i j) (im.labelTopLeft i j)
    else some (im.putLabel i j (-1))

/-- The sums are of type `int`; with the identity for `int` they are exact. -/
def recordData (im : Image) (i j : ℕ) (label : ℤ) (int : ℤ → ℤ := int32) : Image :=
  let obj := (im.objects label).getD { label := label }
  { im with objects := Function.update im.objects label (some { obj with
      totalX := int (obj.totalX + j), totalY := int (obj.totalY + i),
      area := int (obj.area + 1) }) }

/-! ### The second pass -/

/-- `changeValue(collection[i], i + 1)` for each root, from index `i` on. -/
def numberRoots : ℕ → List ℕ → UnionFind → Option UnionFind
  | _, [], uf => some uf
  | i, c :: cs, uf => (uf.changeValue c (i + 1)).bind fun uf => numberRoots (i + 1) cs uf

/-- The pixels of an image row by row. -/
def scan (num_rows num_columns : ℕ) : List (ℕ × ℕ) :=
  (List.range num_rows).flatMap fun i => (List.range num_columns).map fun j => (i, j)

/-- The body of the second loop of `secondPass`. -/
def relabel (im : Image) (p : ℕ × ℕ) : Option Image := do
  let (node, uf) ← im.labelChart.find (im.labels p.1 p.2)
  let val ← uf.value node
  return { im with labelChart := uf }.putLabel p.1 p.2 (if val < 0 then 0 else val)

/-- `secondPass`, with the number of objects it prints. -/
def secondPass (im : Image) : Option (ℕ × Image) := do
  let uf ← numberRoots 0 im.labelChart.collection im.labelChart
  let im' ← (scan im.num_rows im.num_columns).foldlM relabel { im with labelChart := uf }
  return (im.labelChart.collection.length, im')

/-! ### Reading and writing -/

/-- What `ReadImage` does with one byte. -/
def readPixel (p2Flag : Bool) (im : Image) (p : ℕ × ℕ) (byte : UInt8)
    (int : ℤ → ℤ := int32) : Option Image :=
  (im.SetPixel p.1 p.2 byte.toNat).bind fun im =>
    (if p2Flag then im.setLabel p.1 p.2 byte.toNat else some im).map fun im =>
      if 0 < byte.toNat then im.recordData p.1 p.2 byte.toNat int else im

/-- The pixel loop of `ReadImage`; `false` is a short file. -/
def readPixels (p2Flag : Bool) (ps : List (ℕ × ℕ)) (bytes : List UInt8) (im : Image)
    (int : ℤ → ℤ := int32) : Option (Bool × Image) :=
  match ps, bytes with
  | [], _ => some (true, im)
  | _ :: _, [] => some (false, im)
  | p :: ps, byte :: bytes =>
    (im.readPixel p2Flag p byte int).bind fun im => readPixels p2Flag ps bytes im int

/-- `ReadImage` after the header, for the bytes that follow it. -/
def ReadImage (memory : ℕ → ℕ → ℤ) (num_rows num_columns : ℕ) (p2Flag : Bool)
    (bytes : List UInt8) (int : ℤ → ℤ := int32) : Option (Bool × Image) :=
  readPixels p2Flag (scan num_rows num_columns) bytes (allocate memory num_rows num_columns) int

/-- `fputc` keeps the low byte of an `int`. -/
def fputc (z : ℤ) : UInt8 := UInt8.ofNat (z % 256).toNat

theorem toNat_fputc (z : ℤ) : ((fputc z).toNat : ℤ) = z % 256 := by
  have hlt : (z % 256).toNat < 256 := by omega
  rw [fputc, UInt8.toNat_ofNat', Nat.mod_eq_of_lt hlt]
  omega

/-- The pixel loop of `WriteImage`. -/
def WriteImage (im : Image) (threshold : ℤ) (p1Flag p2Flag : Bool) : List UInt8 :=
  (scan im.num_rows im.num_columns).map fun p =>
    let byte := im.pixels p.1 p.2
    let byte := if p1Flag then (if byte < threshold then 0 else 255) else byte
    fputc (if p2Flag then im.labels p.1 p.2 * 30 else byte)

end Image

end SchoolProjects.Vision
