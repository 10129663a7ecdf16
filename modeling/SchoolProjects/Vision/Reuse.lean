import SchoolProjects.Vision.Carryover
import SchoolProjects.Vision.Pgm

/-! An image that is used again. `AllocateSpaceAndSetSize` takes the counter of labels
back to 0, and keeps the union-find structure: the labels of the second file are found
among the nodes of the first. The final labels are those of a new image for few pairs
of pictures only, and which they are can be read off the two pictures. -/

namespace SchoolProjects.Vision

open UnionFind Provisional Text

namespace GrayImage

/-- `ReadImage(file, an_image, true)` and `an_image->secondPass()`; `none` also where
`ReadImage` returns false. -/
def readLabels (memory : ℕ → ℕ → ℤ) (an_image : GrayImage) (file : Text) : Option GrayImage :=
  match ReadImage memory an_image true file with
  | some (true, im) => im.secondPass.map fun r => { im with toImage := r.2 }
  | _ => none

end GrayImage

namespace P5File

variable (f g : P5File)

def scan : List Pixel := Image.scan f.rows f.cols

/-- The pixels of value 255. -/
def Lit : Pixel → Prop := Image.Lit f.rows f.cols f.bytes

instance : DecidablePred f.Lit := inferInstanceAs (DecidablePred (Image.Lit _ _ _))

/-- The provisional labels. -/
def labels : Provisional := upTo f.Lit f.scan

/-- A chart after the calls of the picture. -/
def after (c : Chart) : Chart := f.labels.calls.foldl Chart.call c

/-- The chart of the picture alone. -/
def chart : Chart := f.after .empty

/-- A chart after the second pass over the picture. -/
def used (c : Chart) : Chart :=
  f.scan.foldl (fun c p => c.find (f.labels.label p)) (f.after c).number

/-- Every pixel is 255. -/
def Full : Prop := ∀ p ∈ f.scan, f.Lit p

/-! ### The two passes on a chart -/

section Models

variable {f}

open GrayImage in
/-- Reading a file with labels, and the second pass. -/
theorem readLabels_models {im : GrayImage} {c : Chart} (h : Models im.labelChart c)
    (memory : ℕ → ℕ → ℤ) :
    ∃ im', readLabels memory im f.text = some im' ∧ im'.num_rows = f.rows ∧
      im'.num_columns = f.cols ∧
      (∀ p ∈ f.scan, im'.label p = (f.after c).number.final (f.labels.label p)) ∧
      Models im'.labelChart (f.used c) := by
  obtain ⟨im₁, hread, hf⟩ : ∃ im₁,
      Image.readPixels true f.scan f.bytes (im.sized memory f.rows f.cols) = some (true, im₁) ∧
        Image.Follows f.rows f.cols f.bytes im.labelChart f.scan im₁ :=
    Image.readPixels_follows rfl rfl rfl h.sane f.complete
  obtain ⟨uf, hcalls, hm⟩ := h.calls f.labels.calls
  obtain rfl : uf = im₁.labelChart := Option.some.inj (hcalls.symm.trans hf.calls)
  obtain ⟨im₂, hsecond, hrows, hcols, -, hlab, hm₂⟩ := Image.secondPass_models hm
  rw [hf.num_rows, hf.num_columns] at hlab hm₂
  have hused : (Image.scan f.rows f.cols).foldl (fun c p => c.find (im₁.label p))
      (f.after c).number = f.used c :=
    List.foldl_ext _ _ _ fun c' p hp => congrArg c'.find (hf.label p hp)
  refine ⟨⟨im₂, size_t f.levels⟩, ?_, hrows.trans hf.num_rows, hcols.trans hf.num_columns,
    fun p hp => ?_, hused ▸ hm₂⟩
  · unfold scan at hread
    simp only [readLabels, readImage_eq f.header_eq, hread, Option.map_some, hsecond]
  · exact (hlab p hp).trans (congrArg _ (hf.label p hp))

end Models

/-! ### The labels of a picture -/

section Labels

/-- The numbers of a picture are those of its calls, and `-1` is on its dark pixels. -/
theorem labels_numbers : ∃ next, Numbers f.Lit next f.scan f.labels :=
  numbers_scan f.Lit f.rows f.cols

variable {f}

theorem label_cases {next : ℤ} (hn : Numbers f.Lit next f.scan f.labels) {p : Pixel}
    (hp : p ∈ f.scan) : f.labels.label p = -1 ∨
      (first f.Lit ≤ f.labels.label p ∧ f.labels.label p < next) :=
  (hn.shape p hp).imp id And.right

theorem label_dark {p : Pixel} (hp : p ∈ f.scan) (hdark : ¬ f.Lit p) :
    f.labels.label p = -1 := by
  obtain ⟨next, hn⟩ := f.labels_numbers
  exact (hn.shape p hp).resolve_right fun h => hdark h.1

theorem exists_dark (h : ¬ f.Full) : ∃ p ∈ f.scan, ¬ f.Lit p := by
  unfold Full at h
  push Not at h
  exact h

theorem Full.labels (h : f.Full) (hne : f.scan ≠ []) :
    f.labels.calls = [.find 2] ∧ ∀ p ∈ f.scan, f.labels.label p = 2 := by
  obtain ⟨hcalls, -, hlab⟩ := upTo_full h hne
  exact ⟨hcalls, hlab⟩

/-- The second pass finds a node for every label. Only `-1` can be new. -/
theorem foldl_find {label : Pixel → ℤ} {ps : List Pixel} {c : Chart}
    (h : ∀ p ∈ ps, label p = -1 ∨ (c.leader (label p)).isSome) :
    ps.foldl (fun c p => c.find (label p)) c =
      if ∃ p ∈ ps, label p = -1 then c.find (-1) else c := by
  induction ps generalizing c with
  | nil => simp
  | cons p ps ih =>
    rw [List.foldl_cons]
    by_cases hp : label p = -1
    · have hself : ((c.find (-1)).leader (-1)).isSome := by simp [Chart.find_isSome]
      have hrest : ∀ q ∈ ps, label q = -1 ∨ ((c.find (-1)).leader (label q)).isSome :=
        fun q hq => (h q (by simp [hq])).imp id fun hk =>
          (Chart.find_isSome _ _ _).mpr (Or.inl hk)
      rw [hp, ih hrest, Chart.find_known hself, ite_self, if_pos ⟨p, by simp, hp⟩]
    · have hk := (h p (by simp)).resolve_left hp
      rw [Chart.find_known hk, ih fun q hq => h q (by simp [hq])]
      simp only [List.mem_cons, exists_eq_or_imp, hp, false_or]

/-- A picture without pixels leaves nothing. -/
theorem used_nil (h : f.scan = []) : f.used .empty = .empty := by
  unfold used after labels
  rw [h]
  rfl

theorem used_full (h : f.Full) (hne : f.scan ≠ []) : f.used .empty = .full := by
  obtain ⟨hcalls, hlab⟩ := h.labels hne
  unfold used after
  rw [hcalls, foldl_find fun p hp => Or.inr ?_, if_neg]
  · rfl
  · rintro ⟨p, hp, hneg⟩
    rw [hlab p hp] at hneg
    norm_num at hneg
  · rw [hlab p hp]
    rfl

theorem used_dark (h : ¬ f.Full) : f.used .empty = f.chart.number.find (-1) := by
  obtain ⟨next, hn⟩ := f.labels_numbers
  obtain ⟨p, hp, hdark⟩ := exists_dark h
  unfold used
  rw [foldl_find fun q hq => ?_, if_pos ⟨p, hp, label_dark hp hdark⟩]
  · rfl
  · exact (label_cases hn hq).imp id fun hr => Chart.calls_isSome hn.orderly hr.1 hr.2

theorem chart_plain {next : ℤ} (hn : Numbers f.Lit next f.scan f.labels) :
    Chart.Plain (first f.Lit) next f.chart :=
  Chart.plain_calls hn.orderly

end Labels

/-! ### When the labels are those of a new image -/

/-- Number the pixels of a picture that are 255 and have no label above, to the left or
above to the left, from 2 if the corner is 255 and else from 1. The two pictures are in
one of these relations: one of them has no pixels; or all pixels of the first are 255,
and in the second 1 is no root or 2 is there and is no root; or some pixel of the first
is not 255, all of the second are, and the root above 2 in the first comes first. -/
def Reusable : Prop :=
  f.scan = [] ∨ g.scan = [] ∨
    (f.Full ∧ (g.chart.leader 1 = some 1 → g.chart.head 2 ≠ 2)) ∨
    (¬ f.Full ∧ g.Full ∧
      ∃ r, f.chart.leader 2 = some r ∧ f.chart.collection.head? = some r)

/-- The final labels of `g` on the chart that `f` leaves, against those on a new one. -/
def SameLabels : Prop := ∀ p ∈ g.scan,
  (g.after (f.used .empty)).number.final (g.labels.label p) =
    g.chart.number.final (g.labels.label p)

variable {f g}

theorem sameLabels_full (hf : f.Full) (hne : f.scan ≠ []) :
    SameLabels f g ↔ (g.chart.leader 1 = some 1 → g.chart.head 2 ≠ 2) := by
  obtain ⟨next, hn⟩ := g.labels_numbers
  unfold SameLabels
  rw [used_full hf hne]
  constructor
  · intro h h1 h2
    obtain ⟨hle, hlt⟩ := ((chart_plain hn).isSome 1).mp (by simp [h1])
    obtain ⟨p, hp, hlab⟩ := hn.used 1 hle hlt
    have := h p hp
    rw [hlab] at this
    exact Chart.full_final_ne hn.orderly (first_cases g.Lit) h1 h2 this
  · exact fun h p hp => Chart.full_final hn.orderly (first_cases g.Lit) h (label_cases hn hp)

theorem sameLabels_dark (hf : ¬ f.Full) (hg : ¬ g.Full) : ¬ SameLabels f g := by
  obtain ⟨m, hm⟩ := f.labels_numbers
  obtain ⟨n, hn⟩ := g.labels_numbers
  obtain ⟨p, hp, hdark⟩ := exists_dark hg
  have hfirst := first_pos f.Lit
  have hfirst' := first_pos g.Lit
  intro h
  have := h p hp
  have hmarked := ((chart_plain hm).marked (by omega)).calls hn.orderly (by omega)
  rw [label_dark hp hdark, used_dark hf,
    Chart.final_unknown ((chart_plain hn).unknown (by omega)) (by norm_num)] at this
  exact hmarked.final this

theorem sameLabels_to_full (hf : ¬ f.Full) (hg : g.Full) (hne : g.scan ≠ []) :
    SameLabels f g ↔ ∃ r, f.chart.leader 2 = some r ∧ f.chart.collection.head? = some r := by
  obtain ⟨m, hm⟩ := f.labels_numbers
  obtain ⟨hcalls, hlab⟩ := hg.labels hne
  have hfirst := first_pos f.Lit
  rw [← (chart_plain hm).final_two (by omega), ← used_dark hf]
  have hfresh : g.chart.number.final 2 = 1 := by
    unfold chart after
    rw [hcalls]
    decide
  have hafter : g.after (f.used .empty) = (f.used .empty).find 2 := by
    unfold after
    rw [hcalls]
    rfl
  unfold SameLabels
  rw [hafter]
  constructor
  · intro h
    obtain ⟨p, hp⟩ := List.exists_mem_of_ne_nil _ hne
    have := h p hp
    rwa [hlab p hp, hfresh] at this
  · intro h p hp
    rw [hlab p hp, hfresh, h]

theorem sameLabels_iff : SameLabels f g ↔ Reusable f g := by
  unfold Reusable
  by_cases hf : f.scan = []
  · have hsame : SameLabels f g := fun p hp => by rw [used_nil hf, chart]
    simp [hf, hsame]
  by_cases hg : g.scan = []
  · have hsame : SameLabels f g := fun p hp => by simp [hg] at hp
    simp [hg, hsame]
  by_cases hff : f.Full
  · simp [hf, hg, hff, sameLabels_full hff hf]
  by_cases hgf : g.Full
  · simp [hf, hg, hff, hgf, sameLabels_to_full hff hgf hg]
  · simp [hf, hg, hff, hgf, sameLabels_dark hff hgf]

open GrayImage in
/-- Reading and labelling `f` and then `g` in one image gives the final labels of `g` in
a new image just when `g` can follow `f`. -/
theorem reuse_iff (memory₁ memory₂ memory₃ : ℕ → ℕ → ℤ) (f g : P5File) :
    ∃ old reused fresh, readLabels memory₁ new f.text = some old ∧
      readLabels memory₂ old g.text = some reused ∧
      readLabels memory₃ new g.text = some fresh ∧
      ((∀ p ∈ g.scan, reused.label p = fresh.label p) ↔ Reusable f g) := by
  have hnew : Models new.labelChart .empty := Models.empty
  obtain ⟨old, hold, -, -, -, hm⟩ := readLabels_models hnew memory₁
  obtain ⟨reused, hreused, -, -, hlab, -⟩ := readLabels_models hm memory₂
  obtain ⟨fresh, hfresh, -, -, hlab', -⟩ := readLabels_models hnew memory₃
  refine ⟨old, reused, fresh, hold, hreused, hfresh, Iff.trans ?_ sameLabels_iff⟩
  constructor
  · intro h p hp
    rw [← hlab p hp, h p hp, hlab' p hp]
    rfl
  · intro h p hp
    rw [hlab p hp, hlab' p hp]
    exact h p hp

/-- A lit pixel and a dark one. -/
def pair : P5File where
  text := ascii "P5\n2 1\n255\n" ++ [255, 0]
  rows := 1
  cols := 2
  levels := 255
  bytes := [255, 0]
  header_eq := by decide +kernel
  complete := by decide

open GrayImage in
/-- The second time, the dark pixel gets the number of the node left for it. -/
theorem pair_twice_differs : ¬ ∀ (memory₁ memory₂ memory₃ : ℕ → ℕ → ℤ) (f g : P5File),
    ∃ old reused fresh, readLabels memory₁ new f.text = some old ∧
      readLabels memory₂ old g.text = some reused ∧
      readLabels memory₃ new g.text = some fresh ∧
      ∀ p ∈ g.scan, reused.label p = fresh.label p := by
  intro h
  obtain ⟨old, reused, fresh, hold, hreused, hfresh, hsame⟩ :=
    h (fun _ _ => 0) (fun _ _ => 0) (fun _ _ => 0) pair pair
  have htwice : ((readLabels (fun _ _ => 0) new pair.text).bind fun im =>
      (readLabels (fun _ _ => 0) im pair.text).map fun im => im.label (0, 1)) = some 2 := by
    decide +kernel
  have honce : (readLabels (fun _ _ => 0) new pair.text).map (fun im => im.label (0, 1)) =
      some 0 := by
    decide +kernel
  rw [hold, Option.bind_some, hreused] at htwice
  rw [hfresh] at honce
  have h2 : reused.label (0, 1) = 2 := Option.some.inj htwice
  have h0 : fresh.label (0, 1) = 0 := Option.some.inj honce
  have := hsame (0, 1) (by decide)
  omega

end P5File

end SchoolProjects.Vision
