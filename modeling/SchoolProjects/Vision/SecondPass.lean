import SchoolProjects.Vision.FirstPass

/-! The second pass (`Image::secondPass`): the roots are numbered from 1 in the order
of `collection`, and each label is replaced by the number of its root. The labels
afterwards are sound and dense for every image, and complete just for the images
without a blind pixel. -/

namespace SchoolProjects.Vision

open Forest

namespace UnionFind

/-! ### Numbering the roots -/

section Number

variable {uf : UnionFind} {n c : ℕ}

/-- Structures of the same shape, whatever their values. -/
theorem Sane.of_parent {uf' : UnionFind} (hs : uf.Sane) (hloc : uf'.nodeLocs = uf.nodeLocs)
    (hcoll : uf'.collection = uf.collection) (hpar : uf'.parent = uf.parent)
    (halloc : ∀ n, (uf'.heap.read n).isSome = (uf.heap.read n).isSome) : uf'.Sane where
  loc k n hk := by rw [halloc]; exact hs.loc k n (hloc ▸ hk)
  up n p hp := by rw [halloc]; exact hs.up n p (hpar ▸ hp)
  forest n := by rw [hpar]; exact hs.forest n
  alloc n hn := by rw [halloc]; exact hs.alloc n (hcoll ▸ hn)

theorem Wf.of_parent {uf' : UnionFind} (hw : uf.Wf) (hloc : uf'.nodeLocs = uf.nodeLocs)
    (hcoll : uf'.collection = uf.collection) (hpar : uf'.parent = uf.parent)
    (halloc : ∀ n, (uf'.heap.read n).isSome = (uf.heap.read n).isSome) : uf'.Wf where
  loc := (hw.sane.of_parent hloc hcoll hpar halloc).loc
  inj k k' n hk hk' := hw.inj k k' n (hloc ▸ hk) (hloc ▸ hk')
  key n hn := by rw [hloc]; exact hw.key n (halloc n ▸ hn)
  up := (hw.sane.of_parent hloc hcoll hpar halloc).up
  forest := (hw.sane.of_parent hloc hcoll hpar halloc).forest
  nodup := hcoll ▸ hw.nodup
  roots n := by rw [hcoll, halloc, hpar]; exact hw.roots n

theorem changeValue_eq (num : ℤ) (ha : (uf.heap.read c).isSome) :
    ∃ uf', uf.changeValue c num = some uf' ∧ uf'.nodeLocs = uf.nodeLocs ∧
      uf'.collection = uf.collection ∧ uf'.parent = uf.parent ∧
      ∀ n, uf'.value n = if n = c then some num else uf.value n := by
  obtain ⟨x, hx⟩ := Option.isSome_iff_exists.mp ha
  set h := uf.heap.put c (some (x.setValue num)) (Heap.lt_fresh hx) with hh
  have hm : uf.heap.modify c (fun n => n.setValue num) = some h := Heap.modify_of_read _ hx
  refine ⟨⟨h, uf.collection, uf.nodeLocs⟩, by rw [changeValue, hm]; rfl, rfl, rfl, ?_, fun n => ?_⟩
  · funext n
    by_cases hn : n = c
    · subst hn
      simp [parent, hh, hx, Node.setValue]
    · simp [parent, hh, hn]
  · by_cases hn : n = c
    · subst hn
      simp [value, hh, Node.setValue]
    · simp [value, hh, hn]

theorem alloc_eq_value (uf : UnionFind) (n : ℕ) :
    (uf.heap.read n).isSome = (uf.value n).isSome := by
  simp [value]

/-- Storing values in allocated nodes allocates none. -/
theorem alloc_of_values {uf' : UnionFind} {cs : List ℕ} {v : ℕ → ℤ}
    (halloc : ∀ n ∈ cs, (uf.heap.read n).isSome)
    (hout : ∀ n, n ∉ cs → uf'.value n = uf.value n) (hin : ∀ n ∈ cs, uf'.value n = some (v n))
    (n : ℕ) : (uf'.heap.read n).isSome = (uf.heap.read n).isSome := by
  rw [alloc_eq_value, alloc_eq_value]
  by_cases hn : n ∈ cs
  · rw [hin n hn, ← alloc_eq_value, halloc n hn]
    rfl
  · rw [hout n hn]

end Number

end UnionFind

namespace Image

open UnionFind

/-- The first loop of `secondPass` changes values only: those of the roots. -/
theorem numberRoots_eq {uf : UnionFind} {cs : List ℕ} (hnd : cs.Nodup)
    (halloc : ∀ c ∈ cs, (uf.heap.read c).isSome) (i : ℕ) :
    ∃ uf', numberRoots i cs uf = some uf' ∧ uf'.nodeLocs = uf.nodeLocs ∧
      uf'.collection = uf.collection ∧ uf'.parent = uf.parent ∧
      (∀ n, n ∉ cs → uf'.value n = uf.value n) ∧
      ∀ n ∈ cs, uf'.value n = some ((i : ℤ) + cs.idxOf n + 1) := by
  induction cs generalizing uf i with
  | nil => exact ⟨uf, rfl, rfl, rfl, rfl, fun _ _ => rfl, by simp⟩
  | cons c cs ih =>
    obtain ⟨hc, hnd⟩ := List.nodup_cons.mp hnd
    obtain ⟨uf₁, hch, hloc₁, hcoll₁, hpar₁, hval₁⟩ :=
      changeValue_eq ((i : ℤ) + 1) (halloc c (by simp))
    have halloc₁ : ∀ d ∈ cs, (uf₁.heap.read d).isSome := fun d hd => by
      have hdc : d ≠ c := by
        rintro rfl
        exact hc hd
      rw [alloc_eq_value, hval₁, if_neg hdc, ← alloc_eq_value]
      exact halloc d (by simp [hd])
    obtain ⟨uf', hnum, hloc, hcoll, hpar, hout, hin⟩ := ih hnd halloc₁ (i + 1)
    refine ⟨uf', by simp [numberRoots, hch, hnum], hloc.trans hloc₁, hcoll.trans hcoll₁,
      hpar.trans hpar₁, fun n hn => ?_, fun n hn => ?_⟩
    · obtain ⟨hnc, hn⟩ : n ≠ c ∧ n ∉ cs := by simpa using hn
      rw [hout n hn, hval₁, if_neg hnc]
    · rcases List.mem_cons.mp hn with rfl | hn
      · rw [hout n hc, hval₁, if_pos rfl]
        simp
      · have hnc : c ≠ n := by
          rintro rfl
          exact hc hn
        rw [hin n hn, List.idxOf_cons_ne _ hnc]
        push_cast
        ring_nf

/-! ### Replacing the labels -/

/-- The state of the second loop of `secondPass` after the pixels `done`, from the image
`im₀`. A node for `-1` may have been created on the way; its value is `-1`. -/
structure Relabelled (im₀ : Image) (done : List Pixel) (im : Image) : Prop where
  num_rows : im.num_rows = im₀.num_rows
  num_columns : im.num_columns = im₀.num_columns
  pixels : im.pixels = im₀.pixels
  wf : im.labelChart.Wf
  root : ∀ k r, im₀.labelChart.Root k r → im.labelChart.Root k r
  value : ∀ n v, im₀.labelChart.value n = some v → im.labelChart.value n = some v
  negative : ∀ r, im.labelChart.Root (-1) r → im.labelChart.value r = some (-1)
  todo : ∀ p, p ∉ done → im.label p = im₀.label p
  blank : ∀ p ∈ done, im₀.label p = -1 → im.label p = 0
  number : ∀ p ∈ done, ∀ r v, im₀.labelChart.Root (im₀.label p) r →
    im₀.labelChart.value r = some v → 0 ≤ v → im.label p = v

section Relabel

variable {im₀ im : Image} {done : List Pixel} {p : Pixel}

theorem relabel_eq {node : ℕ} {uf : UnionFind} {v : ℤ}
    (hfind : im.labelChart.find (im.label p) = some (node, uf)) (hv : uf.value node = some v) :
    im.relabel p =
      some ({ im with labelChart := uf }.putLabel p.1 p.2 (if v < 0 then 0 else v)) := by
  rw [label] at hfind
  simp [relabel, hfind, hv]

/-- `find` in the second pass keeps roots and values and returns the root. -/
theorem find_relabel (hw₀ : im₀.labelChart.Wf) (h : Relabelled im₀ done im) (k : ℤ)
    (hk : k = -1 ∨ im₀.labelChart.Known k) :
    ∃ node uf v, im.labelChart.find k = some (node, uf) ∧ uf.value node = some v ∧ uf.Wf ∧
      (∀ k' r, im.labelChart.Root k' r → uf.Root k' r) ∧
      (∀ n v, im.labelChart.value n = some v → uf.value n = some v) ∧
      (∀ r, uf.Root (-1) r → uf.value r = some (-1)) ∧ uf.Root k node := by
  cases hn : im.labelChart.nodeLocs k with
  | some n =>
    obtain ⟨r, uf, hfind, hroot, hw, hl⟩ := UnionFind.find_known h.wf hn
    have hiff : ∀ k' s, uf.Root k' s ↔ im.labelChart.Root k' s := fun k' s => by
      simp only [Root, hl.locs, hl.root]
    have hval : (uf.value r).isSome := by
      rw [← UnionFind.alloc_eq_value, hl.alloc]
      exact h.wf.root_alloc (h.wf.loc k n hn) hroot
    obtain ⟨v, hv⟩ := Option.isSome_iff_exists.mp hval
    exact ⟨r, uf, v, hfind, hv, hw, fun k' s => (hiff k' s).mpr,
      fun m w hm => (hl.value m).trans hm,
      fun s hs => (hl.value s).trans (h.negative s ((hiff _ s).mp hs)),
      (hiff k r).mpr ⟨n, hn, hroot⟩⟩
  | none =>
    have hneg : k = -1 := by
      apply hk.resolve_right
      intro hk
      obtain ⟨r, hr⟩ := hw₀.root_exists hk
      obtain ⟨n, hn', -⟩ := h.root k r hr
      simp [hn] at hn'
    subst hneg
    have hfresh : im.labelChart.value im.labelChart.heap.fresh = none := by
      simp [UnionFind.value, Heap.read_fresh]
    refine ⟨_, _, -1, find_new hn, by simp [added_value], h.wf.added hn, fun k' s hs => ?_,
      fun m w hm => ?_, fun s hs => ?_, (added_root _ _ _ _).mpr (Or.inl ⟨rfl, rfl⟩)⟩
    · refine (added_root _ _ _ _).mpr (Or.inr ⟨?_, hs⟩)
      rintro rfl
      obtain ⟨n, hn', -⟩ := hs
      simp [hn] at hn'
    · rw [added_value, if_neg]
      · exact hm
      · rintro rfl
        simp [hfresh] at hm
    · rcases (added_root _ _ _ _).mp hs with ⟨-, rfl⟩ | ⟨hne, -⟩
      · simp [added_value]
      · exact absurd rfl hne

/-- One pixel of the second loop. -/
theorem Relabelled.step (hw₀ : im₀.labelChart.Wf) (h : Relabelled im₀ done im) (hp : p ∉ done)
    (hk : im₀.label p = -1 ∨ im₀.labelChart.Known (im₀.label p)) :
    ∃ im', im.relabel p = some im' ∧ Relabelled im₀ (done ++ [p]) im' := by
  have hlab : im.label p = im₀.label p := h.todo p hp
  obtain ⟨node, uf, v, hfind, hv, hw, hroot, hval, hneg, hnode⟩ := find_relabel hw₀ h _ hk
  rw [← hlab] at hfind
  refine ⟨_, relabel_eq hfind hv, h.num_rows, h.num_columns, h.pixels, hw,
    fun k r hr => hroot k r (h.root k r hr), fun n w hn => hval n w (h.value n w hn), hneg,
    fun q hq => ?_, fun q hq hblank => ?_, fun q hq r w hr hw' hpos => ?_⟩
  · obtain ⟨hq, hqp⟩ : q ∉ done ∧ q ≠ p := by simpa using hq
    rw [label_putLabel, Function.update_of_ne hqp]
    exact h.todo q hq
  · rw [label_putLabel]
    rcases List.mem_append.mp hq with hq | hq
    · rw [update_of_mem hp hq]
      exact h.blank q hq hblank
    · rw [List.mem_singleton.mp hq] at hblank ⊢
      rw [Function.update_self]
      rw [hblank] at hnode
      obtain rfl := Option.some.inj (hv.symm.trans (hneg node hnode))
      simp
  · rw [label_putLabel]
    rcases List.mem_append.mp hq with hq | hq
    · rw [update_of_mem hp hq]
      exact h.number q hq r w hr hw' hpos
    · rw [List.mem_singleton.mp hq] at hr ⊢
      rw [Function.update_self]
      obtain rfl := (hroot _ _ (h.root _ _ hr)).unique hnode
      obtain rfl := Option.some.inj (hv.symm.trans (hval _ _ (h.value _ _ hw')))
      exact if_neg (not_lt.mpr hpos)

end Relabel

/-- The second pass puts the number of the root, counted from 1, in the place of a
label, and 0 in the place of `-1`. -/
theorem secondPass_eq {im : Image} (hw : im.labelChart.Wf)
    (hneg : im.labelChart.nodeLocs (-1) = none)
    (hlab : ∀ p ∈ scan im.num_rows im.num_columns,
      im.label p = -1 ∨ im.labelChart.Known (im.label p)) :
    ∃ im', im.secondPass = some (im.labelChart.collection.length, im') ∧
      im'.num_rows = im.num_rows ∧ im'.num_columns = im.num_columns ∧ im'.pixels = im.pixels ∧
      ∀ p ∈ scan im.num_rows im.num_columns, (im.label p = -1 → im'.label p = 0) ∧
        ∀ r, im.labelChart.Root (im.label p) r →
          im'.label p = im.labelChart.collection.idxOf r + 1 := by
  obtain ⟨uf, hnum, hloc, hcoll, hpar, hout, hin⟩ := numberRoots_eq hw.nodup
    (fun c hc => ((hw.roots c).mp hc).1) 0
  have halloc := alloc_of_values hw.sane.alloc hout hin
  have hw' : uf.Wf := hw.of_parent hloc hcoll hpar halloc
  have hroot : ∀ k r, uf.Root k r ↔ im.labelChart.Root k r := fun k r => by
    simp only [Root, hloc, hpar]
  set im₀ : Image := { im with labelChart := uf } with him₀
  have hstart : Relabelled im₀ [] im₀ :=
    ⟨rfl, rfl, rfl, hw', fun k r hr => hr, fun n v hv => hv, fun r hr => by
      obtain ⟨n, hn, -⟩ := hr
      exact absurd hn (by simp [him₀, hloc, hneg]), fun p _ => rfl, by simp, by simp⟩
  have hk₀ : ∀ p ∈ scan im.num_rows im.num_columns,
      im₀.label p = -1 ∨ im₀.labelChart.Known (im₀.label p) := fun p hp => by
    apply (hlab p hp).imp id
    intro hk
    change (uf.nodeLocs (im.label p)).isSome
    rw [hloc]
    exact hk
  obtain ⟨im', hrun, h⟩ := foldlM_loop relabel (scan im.num_rows im.num_columns) (Relabelled im₀)
    hstart fun done p rest im₁ hscan h₁ =>
      h₁.step hw' (not_mem_done hscan) (hk₀ p (by simp [hscan]))
  refine ⟨im', by simp [secondPass, hnum, ← him₀, hrun], h.num_rows, h.num_columns, h.pixels,
    fun p hp => ⟨h.blank p hp, fun r hr => ?_⟩⟩
  refine h.number p hp r _ ((hroot _ r).mpr hr) ?_ (by positivity)
  rw [show uf.value r = _ from hin r (hw.root_mem hr)]
  simp

end Image

end SchoolProjects.Vision
