import SchoolProjects.Lib.Table
import SchoolProjects.Vision.Labelling
import SchoolProjects.Vision.Raster

/-! Reading an image with labels. `setLabel` does at each pixel what `Assigned` says,
so the provisional labels of the image read are sound, and they are full when the
picture has no blind pixel. -/

namespace SchoolProjects.Vision

open Forest

namespace Image

/-- The byte of a pixel, in a file of `cols` columns. -/
def pixelByte (cols : ℕ) (bytes : List UInt8) (p : Pixel) : UInt8 :=
  bytes.getD (p.1 * cols + p.2) 0

/-- The pixels of value 255. -/
def Lit (rows cols : ℕ) (bytes : List UInt8) (p : Pixel) : Prop :=
  p.1 < rows ∧ p.2 < cols ∧ pixelByte cols bytes p = 255

instance (rows cols : ℕ) (bytes : List UInt8) : DecidablePred (Lit rows cols bytes) := fun _ =>
  inferInstanceAs (Decidable (_ ∧ _))

def label (im : Image) (p : Pixel) : ℤ := im.labels p.1 p.2

/-- The image with one label and the structures behind the labels changed. -/
def assigned (im : Image) (i j : ℕ) (k count : ℤ) (uf : UnionFind) : Image :=
  { im with labelCount := count, labelChart := uf }.putLabel i j k

section SetLabel

variable {im : Image} {i j : ℕ} {g : ℤ} {pairs : List (ℤ × ℤ)}

theorem label_putLabel (im : Image) (i j : ℕ) (k : ℤ) :
    (im.putLabel i j k).label = Function.update im.label (i, j) k :=
  Function.uncurry_update_update im.labels i j k

theorem putLabel_putLabel (im : Image) (i j : ℕ) (k k' : ℤ) :
    (im.putLabel i j k).putLabel i j k' = im.putLabel i j k' := by
  simp [putLabel]

theorem reads_top (im : Image) (i j : ℕ) : Reads IsTop im.label (i, j) (im.labelTop i j) := by
  cases i with
  | zero => exact Or.inr ⟨fun q h => Nat.succ_ne_zero _ h.1, rfl⟩
  | succ i => exact Or.inl ⟨(i, j), ⟨rfl, rfl⟩, rfl⟩

theorem reads_left (im : Image) (i j : ℕ) : Reads IsLeft im.label (i, j) (im.labelLeft i j) := by
  cases j with
  | zero => exact Or.inr ⟨fun q h => Nat.succ_ne_zero _ h.2, rfl⟩
  | succ j => exact Or.inl ⟨(i, j), ⟨rfl, rfl⟩, rfl⟩

theorem reads_diag (im : Image) (i j : ℕ) :
    Reads IsDiag im.label (i, j) (im.labelTopLeft i j) := by
  cases i with
  | zero => exact Or.inr ⟨fun q h => Nat.succ_ne_zero _ h.1, rfl⟩
  | succ i =>
    cases j with
    | zero => exact Or.inr ⟨fun q h => Nat.succ_ne_zero _ h.2, rfl⟩
    | succ j => exact Or.inl ⟨(i, j), ⟨rfl, rfl⟩, rfl⟩

/-- The first stores of `setLabel` touch the label of the pixel only, and take a number
in the top left corner only. -/
theorem clearLabel_eq (im : Image) (i j : ℕ) (g : ℤ) :
    ∃ k count, im.clearLabel i j g = im.assigned i j k count im.labelChart ∧
      im.labelCount ≤ count ∧ ((i ≠ 0 ∨ j ≠ 0) → k = -1) := by
  unfold clearLabel
  by_cases hc : i = 0 ∧ j = 0
  · rw [if_pos hc]
    split_ifs with hg
    · exact ⟨im.labelCount + 1, im.labelCount + 1, by simp [newLabel, putLabel, assigned],
        by omega, by omega⟩
    · exact ⟨-1, im.labelCount, by simp [putLabel, assigned], le_rfl, fun _ => rfl⟩
  · rw [if_neg hc]
    exact ⟨-1, im.labelCount, rfl, le_rfl, fun _ => rfl⟩

/-- The neighbours are read as they were before those stores. -/
theorem neighbours_assigned (im : Image) (i j : ℕ) (k count : ℤ) (uf : UnionFind) :
    (im.assigned i j k count uf).labelTop i j = im.labelTop i j ∧
      (im.assigned i j k count uf).labelLeft i j = im.labelLeft i j ∧
      (im.assigned i j k count uf).labelTopLeft i j = im.labelTopLeft i j := by
  refine ⟨?_, ?_, ?_⟩
  · cases i <;> simp [labelTop, assigned, putLabel]
  · cases j <;> simp [labelLeft, assigned, putLabel]
  · cases i <;> simp [labelTopLeft, assigned, putLabel]

theorem assigned_putLabel (im : Image) (i j : ℕ) (k k' count : ℤ) (uf : UnionFind) :
    (im.assigned i j k count uf).putLabel i j k' = im.assigned i j k' count uf :=
  putLabel_putLabel _ i j k k'

/-- The branches of `setLabel` for a lit pixel, after its first stores. -/
theorem assignLabel_assigned (hr : im.labelChart.Rep pairs)
    (hbound : ∀ k, im.labelChart.Known k → 0 < k ∧ k ≤ im.labelCount) (h0 : 0 ≤ im.labelCount)
    {k₀ count₀ : ℤ} (hcount : im.labelCount ≤ count₀) {top left diag : ℤ}
    (htop : top = -1 ∨ (0 < top ∧ top ≤ im.labelCount ∧ k₀ = -1))
    (hleft : left = -1 ∨ (0 < left ∧ left ≤ im.labelCount)) (hdiag : diag = -1 ∨ 0 < diag) :
    ∃ k count uf' pairs', Assigned True im.labelChart pairs top left diag k uf' pairs' ∧
      (∀ x, uf'.Known x → x ≤ count) ∧ im.labelCount ≤ count ∧
      (im.assigned i j k₀ count₀ im.labelChart).assignLabel i j top left diag =
        some (im.assigned i j k count uf') := by
  unfold assignLabel
  by_cases hnew : top + left + diag = -3
  · rw [if_pos hnew]
    have hk : ¬ im.labelChart.Known (count₀ + 1) := fun h => by
      have := hbound _ h
      omega
    obtain ⟨r, uf', hfind, hr', -, hknown, -⟩ := UnionFind.find_rep hr (count₀ + 1)
    refine ⟨count₀ + 1, count₀ + 1, uf', pairs,
      .fresh trivial (by omega) (by omega) (by omega) hk (by omega) hr' hknown,
      fun x hx => ?_, by omega, ?_⟩
    · rcases (hknown x).mp hx with hx | rfl
      · have := hbound x hx
        omega
      · omega
    · simp [newLabel, assigned, putLabel, hfind]
  rw [if_neg hnew]
  have hsame : ∀ x, im.labelChart.Known x → x ≤ count₀ := fun x hx => by
    have := hbound x hx
    omega
  by_cases hd : diag > 0
  · rw [if_pos hd, assigned_putLabel]
    exact ⟨diag, count₀, _, pairs, .diag trivial (by omega), hsame, hcount, rfl⟩
  rw [if_neg hd]
  by_cases ht : top + diag = -2
  · rw [if_pos ht, assigned_putLabel]
    exact ⟨left, count₀, _, pairs, .left trivial (by omega) (by omega) (by omega), hsame, hcount,
      rfl⟩
  rw [if_neg ht]
  by_cases hl : left + diag = -2
  · rw [if_pos hl, assigned_putLabel]
    exact ⟨top, count₀, _, pairs, .top trivial (by omega) (by omega) (by omega), hsame, hcount, rfl⟩
  rw [if_neg hl]
  by_cases hlt : left ≠ top
  · rw [if_pos hlt]
    obtain ⟨uf', hunion, hr', hknown⟩ := UnionFind.union_rep hr left top
    refine ⟨left, count₀, uf', _,
      .join trivial (by omega) (by omega) (by omega) hlt hr' hknown, fun x hx => ?_, hcount, ?_⟩
    · rcases (hknown x).mp hx with hx | rfl | rfl
      · exact hsame x hx
      · omega
      · omega
    · simp [assigned, putLabel, hunion]
  · rw [if_neg hlt]
    have hk₀ : k₀ = -1 := by omega
    exact ⟨-1, count₀, _, pairs, .skip trivial (by omega) (by omega) (by omega), hsame, hcount,
      by rw [hk₀]⟩

/-- `setLabel` at one pixel. -/
theorem setLabel_assigned (hi : i < im.num_rows) (hj : j < im.num_columns)
    (hr : im.labelChart.Rep pairs)
    (hbound : ∀ k, im.labelChart.Known k → 0 < k ∧ k ≤ im.labelCount) (h0 : 0 ≤ im.labelCount)
    (hread : ∀ x, x = im.labelTop i j ∨ x = im.labelLeft i j ∨ x = im.labelTopLeft i j →
      x = -1 ∨ im.labelChart.Known x) :
    ∃ k count uf' pairs', Assigned (g = 255) im.labelChart pairs (im.labelTop i j)
        (im.labelLeft i j) (im.labelTopLeft i j) k uf' pairs' ∧
      (∀ x, uf'.Known x → x ≤ count) ∧ im.labelCount ≤ count ∧
      im.setLabel i j g = some (im.assigned i j k count uf') := by
  obtain ⟨k₀, count₀, hclear, hcount, hk₀⟩ := clearLabel_eq im i j g
  obtain ⟨htop, hleft, hdiag⟩ := neighbours_assigned im i j k₀ count₀ im.labelChart
  have hin : ¬ (im.num_rows ≤ i ∨ im.num_columns ≤ j) := by omega
  by_cases hg : g = 255
  · have hset : im.setLabel i j g = (im.assigned i j k₀ count₀ im.labelChart).assignLabel i j
        (im.labelTop i j) (im.labelLeft i j) (im.labelTopLeft i j) := by
      rw [setLabel, if_neg hin, hclear]
      simp only [if_pos hg, htop, hleft, hdiag]
    have htop' : im.labelTop i j = -1 ∨
        (0 < im.labelTop i j ∧ im.labelTop i j ≤ im.labelCount ∧ k₀ = -1) := by
      refine (hread _ (Or.inl rfl)).imp id fun h =>
        ⟨(hbound _ h).1, (hbound _ h).2, hk₀ (Or.inl ?_)⟩
      rintro rfl
      have := (hbound _ h).1
      simp [labelTop] at this
    obtain ⟨k, count, uf', pairs', ha, hb, hc, hres⟩ := assignLabel_assigned (i := i) (j := j)
      hr hbound h0 hcount htop' ((hread _ (Or.inr (Or.inl rfl))).imp id fun h => hbound _ h)
      ((hread _ (Or.inr (Or.inr rfl))).imp id fun h => (hbound _ h).1)
    rw [eq_true hg]
    exact ⟨k, count, uf', pairs', ha, hb, hc, hset.trans hres⟩
  · refine ⟨-1, count₀, im.labelChart, pairs, .dark hg, fun x hx => ?_, hcount, ?_⟩
    · have := hbound x hx
      omega
    · rw [setLabel, if_neg hin, hclear]
      simp only [if_neg hg, assigned_putLabel]

end SetLabel

/-! ### The pixel loop -/

/-- The state of the pixel loop after the pixels `done`. -/
structure FirstPass (rows cols : ℕ) (bytes : List UInt8) (done : List Pixel) (im : Image) :
    Prop where
  num_rows : im.num_rows = rows
  num_columns : im.num_columns = cols
  pixels : ∀ p ∈ done, im.pixels p.1 p.2 = (pixelByte cols bytes p).toNat
  count : 0 ≤ im.labelCount
  bound : ∀ k, im.labelChart.Known k → k ≤ im.labelCount
  labels : ∃ pairs, Sound (Lit rows cols bytes) done im.label im.labelChart pairs ∧
    ((∀ p ∈ done, ¬ Blind (Lit rows cols bytes) p) ∧
        Full (Lit rows cols bytes) done im.label pairs ∨
      ∃ p ∈ done, Blind (Lit rows cols bytes) p ∧ im.label p = -1)

section Loop

variable {rows cols : ℕ} {bytes : List UInt8} {done rest : List Pixel} {p : Pixel} {im : Image}

theorem byte_eq_255 {b : UInt8} : ((b.toNat : ℤ) = 255) ↔ b = 255 := by
  rw [← UInt8.toNat_inj]
  exact Int.natCast_inj

/-- The image after `SetPixel`. -/
def withPixel (im : Image) (i j : ℕ) (g : ℤ) : Image :=
  { im with pixels := Function.update im.pixels i (Function.update (im.pixels i) j g) }

theorem SetPixel_eq {i j : ℕ} (g : ℤ) (hi : i < im.num_rows) (hj : j < im.num_columns) :
    im.SetPixel i j g = some (im.withPixel i j g) :=
  if_neg (by omega)

/-- Storing a pixel leaves the others alone. -/
theorem pixels_withPixel (im : Image) (p q : Pixel) (g : ℤ) :
    (im.withPixel p.1 p.2 g).pixels q.1 q.2 = if q = p then g else im.pixels q.1 q.2 :=
  update_update_apply im.pixels p q g

theorem pixelByte_of_scan (hscan : scan rows cols = done ++ p :: rest) {byte : UInt8}
    (hbyte : bytes[done.length]? = some byte) : pixelByte cols bytes p = byte := by
  rw [length_done hscan] at hbyte
  simp [pixelByte, hbyte]

/-- One more pixel is stored. -/
theorem pixels_step (hscan : scan rows cols = done ++ p :: rest) {byte : UInt8}
    (hbyte : bytes[done.length]? = some byte)
    (h : ∀ q ∈ done, im.pixels q.1 q.2 = (pixelByte cols bytes q).toNat) :
    ∀ q ∈ done ++ [p], (im.withPixel p.1 p.2 byte.toNat).pixels q.1 q.2 =
      (pixelByte cols bytes q).toNat := by
  intro q hq
  rcases List.mem_append.mp hq with hq | hq
  · rw [pixels_withPixel, if_neg (ne_of_mem_of_not_mem hq (not_mem_done hscan))]
    exact h q hq
  · rw [List.mem_singleton.mp hq, pixels_withPixel, if_pos rfl, pixelByte_of_scan hscan hbyte]

/-- The neighbours that are read have been passed. -/
theorem adjacent_done (hscan : scan rows cols = done ++ p :: rest) {q : Pixel}
    (hq : Adjacent q p) : q ∈ done := by
  apply (mem_done hscan).mpr
  have := (pixel_mem hscan).2
  unfold Adjacent IsLeft IsTop IsDiag at hq
  unfold Earlier
  omega

/-- `readPixel` stores the pixel, labels it and records it; the record is no part of
what the labels depend on. -/
theorem readPixel_eq {int : ℤ → ℤ} {byte : UInt8} {k count : ℤ} {uf : UnionFind}
    (hi : p.1 < im.num_rows) (hj : p.2 < im.num_columns)
    (hset : (im.withPixel p.1 p.2 byte.toNat).setLabel p.1 p.2 byte.toNat =
      some ((im.withPixel p.1 p.2 byte.toNat).assigned p.1 p.2 k count uf)) :
    ∃ im', im.readPixel true p byte int = some im' ∧ im'.num_rows = im.num_rows ∧
      im'.num_columns = im.num_columns ∧
      im'.pixels = (im.withPixel p.1 p.2 byte.toNat).pixels ∧
      im'.label = Function.update im.label p k ∧ im'.labelCount = count ∧
      im'.labelChart = uf := by
  have hlabel : ((im.withPixel p.1 p.2 byte.toNat).assigned p.1 p.2 k count uf).label =
      Function.update im.label p k := label_putLabel _ p.1 p.2 k
  simp only [readPixel, SetPixel_eq _ hi hj, Option.bind_some, if_true, hset, Option.map_some]
  split_ifs
  · exact ⟨_, rfl, rfl, rfl, rfl, hlabel, rfl, rfl⟩
  · exact ⟨_, rfl, rfl, rfl, rfl, hlabel, rfl, rfl⟩

/-- One pixel of the loop. -/
theorem FirstPass.step (hscan : scan rows cols = done ++ p :: rest) {byte : UInt8}
    (hbyte : bytes[done.length]? = some byte) (h : FirstPass rows cols bytes done im) :
    ∃ im', im.readPixel true p byte = some im' ∧ FirstPass rows cols bytes (done ++ [p]) im' := by
  obtain ⟨pairs, hs, hfull⟩ := h.labels
  obtain ⟨hi, hj⟩ := pixel_mem hscan
  have hp := not_mem_done hscan
  have hb := pixelByte_of_scan hscan hbyte
  have hon : ((byte.toNat : ℤ) = 255) = Lit rows cols bytes p := by
    rw [byte_eq_255, Lit, hb]
    simp [hi, hj]
  have hearlier : ∀ q ∈ done, q.1 < p.1 ∨ (q.1 = p.1 ∧ q.2 < p.2) := fun q hq =>
    ((mem_done hscan).mp hq).2
  have hdone : ∀ q, Adjacent q p → q ∈ done := fun q hq => adjacent_done hscan hq
  have htop := im.reads_top p.1 p.2
  have hleft := im.reads_left p.1 p.2
  have hdiag := im.reads_diag p.1 p.2
  obtain ⟨k, count, uf', pairs', ha, hbound, hcount, hset⟩ := setLabel_assigned
    (g := byte.toNat)
    (show p.1 < (im.withPixel p.1 p.2 byte.toNat).num_rows from h.num_rows ▸ hi)
    (show p.2 < (im.withPixel p.1 p.2 byte.toNat).num_columns from h.num_columns ▸ hj) hs.rep
    (fun k hk => ⟨hs.pos k hk, h.bound k hk⟩) h.count (by
      rintro x (rfl | rfl | rfl)
      · exact htop.known hs fun q hq => hdone q (Or.inr (Or.inl hq))
      · exact hleft.known hs fun q hq => hdone q (Or.inl hq)
      · exact hdiag.known hs fun q hq => hdone q (Or.inr (Or.inr hq)))
  rw [hon] at ha
  obtain ⟨im', hread, hrows, hcols, hpix, hlab, hcnt, hchart⟩ :=
    readPixel_eq (h.num_rows ▸ hi) (h.num_columns ▸ hj) hset
  refine ⟨im', hread, hrows.trans h.num_rows, hcols.trans h.num_columns, fun q hq => ?_,
    by rw [hcnt]; exact h.count.trans hcount, by rw [hcnt, hchart]; exact hbound, pairs', ?_, ?_⟩
  · rw [hpix]
    exact pixels_step hscan hbyte h.pixels q hq
  · rw [hlab, hchart]
    exact hs.step hp hdone htop hleft hdiag ha
  · rw [hlab]
    rcases hfull with ⟨hnone, hf⟩ | ⟨q, hq, hbl, hneg⟩
    · by_cases hbl : Blind (Lit rows cols bytes) p
      · refine Or.inr ⟨p, by simp, hbl, ?_⟩
        rw [Function.update_self]
        exact hf.blind hs hdone htop hleft hdiag ha hbl
      · refine Or.inl ⟨fun q hq => ?_, hf.step hs hp hearlier hdone htop hleft hdiag ha hbl⟩
        rcases List.mem_append.mp hq with hq | hq
        · exact hnone q hq
        · rwa [List.mem_singleton.mp hq]
    · exact Or.inr ⟨q, by simp [hq], hbl, by rw [update_of_mem hp hq, hneg]⟩

/-- Reading an image that is long enough succeeds and leaves the loop at its end. -/
theorem readImage_firstPass (memory : ℕ → ℕ → ℤ) (hlen : rows * cols ≤ bytes.length) :
    ∃ im, ReadImage memory rows cols true bytes = some (true, im) ∧
      FirstPass rows cols bytes (scan rows cols) im := by
  refine readPixels_loop (FirstPass rows cols bytes) ?_ (by rwa [length_scan])
    fun done p rest im byte hscan hbyte h => h.step hscan hbyte
  have hnone : ∀ k, ¬ UnionFind.empty.Known k := fun k hk => by cases hk
  refine ⟨rfl, rfl, by simp, le_rfl, fun k hk => absurd hk (hnone k), [], ?_, Or.inl ⟨by simp, ?_⟩⟩
  · exact ⟨UnionFind.empty_rep, fun k hk => absurd hk (hnone k), by simp,
      fun k hk => absurd hk (hnone k), by simp⟩
  · exact ⟨by simp, by simp, by simp⟩

end Loop

end Image

end SchoolProjects.Vision
