import SchoolProjects.Lib.Heap

/-! Doubly linked chains of heap nodes. A chain is a list of locations with the
payload stored there; `node x pv nx` is the heap node with payload `x` and links
`pv` and `nx`. A segment fixes both links at its ends, so that a chain can be cut
at any node, changed at the cut, and put together again. -/

namespace SchoolProjects.LinkedChain

variable {α ι : Type*} {node : ι → Option ℕ → Option ℕ → α}

/-- First location of a segment followed by `nx`. -/
def first : List (ℕ × ι) → Option ℕ → Option ℕ
  | [], nx => nx
  | b :: _, _ => some b.1

/-- Last location of a segment preceded by `pv`. -/
def last : Option ℕ → List (ℕ × ι) → Option ℕ
  | pv, [] => pv
  | _, b :: bs => last (some b.1) bs

def locs (bs : List (ℕ × ι)) : List ℕ := bs.map Prod.fst

/-- The nodes of `bs` are linked in order, between `pv` and `nx`. -/
def Seg (node : ι → Option ℕ → Option ℕ → α) (h : Heap α) :
    Option ℕ → List (ℕ × ι) → Option ℕ → Prop
  | _, [], _ => True
  | pv, b :: bs, nx => h.read b.1 = some (node b.2 pv (first bs nx)) ∧ Seg node h (some b.1) bs nx

@[simp] theorem first_nil (nx : Option ℕ) : first ([] : List (ℕ × ι)) nx = nx := rfl
@[simp] theorem first_cons (b : ℕ × ι) (bs : List (ℕ × ι)) (nx : Option ℕ) :
    first (b :: bs) nx = some b.1 := rfl
@[simp] theorem last_nil (pv : Option ℕ) : last pv ([] : List (ℕ × ι)) = pv := rfl
@[simp] theorem last_cons (pv : Option ℕ) (b : ℕ × ι) (bs : List (ℕ × ι)) :
    last pv (b :: bs) = last (some b.1) bs := rfl

@[simp] theorem first_append (l r : List (ℕ × ι)) (nx : Option ℕ) :
    first (l ++ r) nx = first l (first r nx) := by
  cases l <;> rfl

@[simp] theorem last_append (pv : Option ℕ) (l r : List (ℕ × ι)) :
    last pv (l ++ r) = last (last pv l) r := by
  induction l generalizing pv with
  | nil => rfl
  | cons b l ih => exact ih _

theorem last_eq_none {l : List (ℕ × ι)} : last none l = none ↔ l = [] := by
  rcases List.eq_nil_or_concat l with rfl | ⟨l₀, q, rfl⟩ <;> simp

theorem last_eq_some {l : List (ℕ × ι)} {a : ℕ} (h : last none l = some a) :
    ∃ l₀ x, l = l₀ ++ [(a, x)] := by
  rcases List.eq_nil_or_concat l with rfl | ⟨l₀, ⟨b, x⟩, rfl⟩
  · cases h
  · obtain rfl : b = a := by simpa using h
    exact ⟨l₀, x, by simp⟩

theorem first_eq_some {r : List (ℕ × ι)} {a : ℕ} (h : first r none = some a) :
    ∃ x r₀, r = (a, x) :: r₀ := by
  rcases r with _ | ⟨⟨b, x⟩, r₀⟩
  · cases h
  · obtain rfl : b = a := by simpa using h
    exact ⟨x, r₀, rfl⟩

@[simp] theorem locs_append (l r : List (ℕ × ι)) : locs (l ++ r) = locs l ++ locs r :=
  List.map_append

@[simp] theorem locs_cons (b : ℕ × ι) (bs : List (ℕ × ι)) : locs (b :: bs) = b.1 :: locs bs := rfl

@[simp] theorem locs_nil : locs ([] : List (ℕ × ι)) = [] := rfl

theorem mem_locs {a : ℕ} {bs : List (ℕ × ι)} : a ∈ locs bs ↔ ∃ x, (a, x) ∈ bs := by
  simp [locs]

theorem mem_of_first {r : List (ℕ × ι)} {a : ℕ} (h : first r none = some a) : a ∈ locs r := by
  obtain ⟨x, r₀, rfl⟩ := first_eq_some h
  simp

theorem mem_of_last {l : List (ℕ × ι)} {a : ℕ} (h : last none l = some a) : a ∈ locs l := by
  obtain ⟨l₀, x, rfl⟩ := last_eq_some h
  simp

@[simp] theorem seg_nil (h : Heap α) (pv nx : Option ℕ) : Seg node h pv [] nx := trivial

@[simp] theorem seg_cons (h : Heap α) (pv nx : Option ℕ) (b : ℕ × ι) (bs : List (ℕ × ι)) :
    Seg node h pv (b :: bs) nx ↔
      h.read b.1 = some (node b.2 pv (first bs nx)) ∧ Seg node h (some b.1) bs nx := Iff.rfl

/-- Cutting a segment in two. -/
theorem seg_append (h : Heap α) (pv nx : Option ℕ) (l r : List (ℕ × ι)) :
    Seg node h pv (l ++ r) nx ↔ Seg node h pv l (first r nx) ∧ Seg node h (last pv l) r nx := by
  induction l generalizing pv with
  | nil => simp
  | cons b l ih => simp [ih, and_assoc]

/-- A segment depends on its own locations only. -/
theorem Seg.frame {h h' : Heap α} {pv nx : Option ℕ} {bs : List (ℕ × ι)}
    (hs : Seg node h pv bs nx) (hf : ∀ a ∈ locs bs, h'.read a = h.read a) :
    Seg node h' pv bs nx := by
  induction bs generalizing pv with
  | nil => trivial
  | cons b bs ih =>
    obtain ⟨hr, ht⟩ := hs
    exact ⟨(hf b.1 (by simp)).trans hr, ih ht (fun a ha => hf a (by simp [ha]))⟩

theorem Seg.read_isSome {h : Heap α} {pv nx : Option ℕ} {bs : List (ℕ × ι)}
    (hs : Seg node h pv bs nx) {a : ℕ} (ha : a ∈ locs bs) : (h.read a).isSome := by
  induction bs generalizing pv with
  | nil => simp at ha
  | cons b bs ih =>
    rcases List.mem_cons.mp ha with rfl | ha
    · simp [hs.1]
    · exact ih hs.2 ha

theorem Seg.ne_fresh {h : Heap α} {pv nx : Option ℕ} {bs : List (ℕ × ι)}
    (hs : Seg node h pv bs nx) {a : ℕ} (ha : a ∈ locs bs) : a ≠ h.fresh := by
  obtain ⟨x, hx⟩ := Option.isSome_iff_exists.mp (hs.read_isSome ha)
  exact Heap.ne_fresh hx

/-- The node of a segment at a cut. -/
theorem Seg.read_mid {h : Heap α} {pv nx : Option ℕ} {l r : List (ℕ × ι)} {b : ℕ × ι}
    (hs : Seg node h pv (l ++ b :: r) nx) :
    h.read b.1 = some (node b.2 (last pv l) (first r nx)) :=
  ((seg_append h pv nx l (b :: r)).mp hs).2.1

theorem Seg.read_of_mem {h : Heap α} {pv nx : Option ℕ} {bs : List (ℕ × ι)} {b : ℕ × ι}
    (hs : Seg node h pv bs nx) (hb : b ∈ bs) : ∃ pv' nx', h.read b.1 = some (node b.2 pv' nx') := by
  obtain ⟨l, r, rfl⟩ := List.append_of_mem hb
  exact ⟨_, _, hs.read_mid⟩

/-- Replacing the middle of a segment: the two nodes next to it are redirected, and
all other nodes stay as they are. -/
theorem Seg.replace_mid {h h' : Heap α} {pv nx : Option ℕ} {l m m' r : List (ℕ × ι)}
    (hs : Seg node h pv (l ++ (m ++ r)) nx)
    (hl : ∀ l₀ q, l = l₀ ++ [q] →
      h'.read q.1 = some (node q.2 (last pv l₀) (first (m' ++ r) nx)) ∧
        ∀ a ∈ locs l₀, h'.read a = h.read a)
    (hm : Seg node h' (last pv l) m' (first r nx))
    (hr : ∀ q r₀, r = q :: r₀ →
      h'.read q.1 = some (node q.2 (last (last pv l) m') (first r₀ nx)) ∧
        ∀ a ∈ locs r₀, h'.read a = h.read a) :
    Seg node h' pv (l ++ (m' ++ r)) nx := by
  obtain ⟨hsl, hsr⟩ := (seg_append h pv nx l (m ++ r)).mp hs
  have hsr := ((seg_append h _ nx m r).mp hsr).2
  refine (seg_append h' pv nx l (m' ++ r)).mpr ⟨?_, (seg_append h' _ nx m' r).mpr ⟨hm, ?_⟩⟩
  · rcases List.eq_nil_or_concat l with rfl | ⟨l₀, q, rfl⟩
    · trivial
    · obtain ⟨hq, hf⟩ := hl l₀ q (by simp)
      rw [List.concat_eq_append, seg_append] at hsl ⊢
      exact ⟨hsl.1.frame hf, hq, trivial⟩
  · cases r with
    | nil => trivial
    | cons q r₀ =>
      obtain ⟨hq, hf⟩ := hr q r₀ rfl
      exact ⟨hq, hsr.2.frame hf⟩

/-- Replacing two neighbours of a chain by one node: the nodes next to them are redirected to it,
and all other nodes stay as they are. -/
theorem Seg.fuse {h h' : Heap α} {l r : List (ℕ × ι)} {a b k : ℕ} {x y z : ι}
    (hs : Seg node h none (l ++ ([(a, x), (b, y)] ++ r)) none)
    (hnd : (locs l ++ ([a] ++ ([b] ++ locs r))).Nodup)
    (hk : h'.read k = some (node z (last none l) (first r none)))
    (hprev : ∀ c v pv, last none l = some c → h.read c = some (node v pv (some a)) →
      h'.read c = some (node v pv (some k)))
    (hnext : ∀ c v nx, first r none = some c → h.read c = some (node v (some b) nx) →
      h'.read c = some (node v (some k) nx))
    (hkeep : ∀ c, c ≠ a → c ≠ b → last none l ≠ some c → first r none ≠ some c →
      h'.read c = h.read c) :
    Seg node h' none (l ++ ([(k, z)] ++ r)) none := by
  obtain ⟨hl, hab, hdl⟩ := List.nodup_append.mp hnd
  obtain ⟨-, hbr, hda⟩ := List.nodup_append.mp hab
  obtain ⟨-, hr, hdb⟩ := List.nodup_append.mp hbr
  refine hs.replace_mid ?_ ⟨hk, trivial⟩ ?_
  · rintro l₀ ⟨c, v⟩ rfl
    have hc := (((seg_append _ _ _ _ _).mp hs).1).read_mid
    refine ⟨hprev c v _ (by simp) hc, fun d hd => ?_⟩
    have hd' : d ∈ locs (l₀ ++ [(c, v)]) := by simp [hd]
    obtain ⟨-, -, hlast⟩ := List.nodup_append.mp (by simpa using hl : (locs l₀ ++ [c]).Nodup)
    refine hkeep d (hdl d hd' a (by simp)) (hdl d hd' b (by simp)) ?_ fun he => ?_
    · simpa using (hlast d hd c (by simp)).symm
    · exact hdl d hd' d (by simp [mem_of_first he]) rfl
  · rintro ⟨c, v⟩ r₀ rfl
    have hc := ((seg_append _ _ _ _ _).mp hs).2.2.2.1
    refine ⟨hnext c v _ rfl hc, fun d hd => ?_⟩
    have hd' : d ∈ locs ((c, v) :: r₀) := by simp [hd]
    refine hkeep d (hda a (by simp) d (by simp [hd])).symm (hdb b (by simp) d hd').symm
      (fun he => ?_) ?_
    · exact hdl d (mem_of_last he) d (by simp [hd]) rfl
    · have hne : c ≠ d := fun he => (List.nodup_cons.mp hr).1 (he ▸ hd)
      simpa using hne

/-- The nodes of `bs` are met in order along the second link; the first links are
not looked at. -/
def Path (node : ι → Option ℕ → Option ℕ → α) (h : Heap α) : List (ℕ × ι) → Option ℕ → Prop
  | [], _ => True
  | b :: bs, nx => (∃ pv, h.read b.1 = some (node b.2 pv (first bs nx))) ∧ Path node h bs nx

theorem path_append (h : Heap α) (nx : Option ℕ) (l r : List (ℕ × ι)) :
    Path node h (l ++ r) nx ↔ Path node h l (first r nx) ∧ Path node h r nx := by
  induction l with
  | nil => simp [Path]
  | cons b l ih => simp [Path, ih, and_assoc]

theorem Path.frame {h h' : Heap α} {nx : Option ℕ} {bs : List (ℕ × ι)}
    (hs : Path node h bs nx) (hf : ∀ a ∈ locs bs, h'.read a = h.read a) : Path node h' bs nx := by
  induction bs with
  | nil => trivial
  | cons b bs ih =>
    obtain ⟨⟨pv, hr⟩, ht⟩ := hs
    exact ⟨⟨pv, (hf b.1 (by simp)).trans hr⟩, ih ht (fun a ha => hf a (by simp [ha]))⟩

theorem Seg.path {h : Heap α} {pv nx : Option ℕ} {bs : List (ℕ × ι)}
    (hs : Seg node h pv bs nx) : Path node h bs nx := by
  induction bs generalizing pv with
  | nil => trivial
  | cons b bs ih => exact ⟨⟨pv, hs.1⟩, ih hs.2⟩

/-- A chain whose locations are distinct is no longer than the heap. -/
theorem Seg.length_le {h : Heap α} {pv nx : Option ℕ} {bs : List (ℕ × ι)}
    (hs : Seg node h pv bs nx) (hn : (locs bs).Nodup) : bs.length ≤ h.fresh := by
  simpa [locs] using Heap.length_le_fresh hn (fun a ha => hs.read_isSome ha)

end SchoolProjects.LinkedChain
