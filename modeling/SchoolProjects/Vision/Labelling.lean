import SchoolProjects.Vision.UnionFind

/-! Labelling the lit pixels of a picture in one pass, apart from how the picture is
stored. `Assigned` says what the pass does at one pixel, from the labels above, to the
left, and above to the left. The labels given so far always separate what is not
joined (`Sound`). They also bring together what is joined (`Full`), up to the first
pixel that is blind: one whose neighbours above and to the left trace back to the same
first pixel, with nothing lit between them. -/

namespace SchoolProjects.Vision

open Forest

/-! ### Pixels and their neighbours -/

abbrev Pixel := ℕ × ℕ

def IsLeft (q p : Pixel) : Prop := q.1 = p.1 ∧ q.2 + 1 = p.2

def IsTop (q p : Pixel) : Prop := q.1 + 1 = p.1 ∧ q.2 = p.2

def IsDiag (q p : Pixel) : Prop := q.1 + 1 = p.1 ∧ q.2 + 1 = p.2

/-- `q` is to the left of `p`, above it, or above it to the left. -/
def Adjacent (q p : Pixel) : Prop := IsLeft q p ∨ IsTop q p ∨ IsDiag q p

/-- A path of lit pixels, each a neighbour of the next. -/
def Joined (lit : Pixel → Prop) : Pixel → Pixel → Prop :=
  Relation.ReflTransGen fun p q => lit p ∧ lit q ∧ (Adjacent p q ∨ Adjacent q p)

section Picture

variable {lit : Pixel → Prop} {p q r : Pixel}

theorem Joined.symm (h : Joined lit p q) : Joined lit q p := by
  induction h with
  | refl => exact .refl
  | tail _ hstep ih => exact .head ⟨hstep.2.1, hstep.1, hstep.2.2.symm⟩ ih

theorem Joined.trans (h : Joined lit p q) (h' : Joined lit q r) : Joined lit p r :=
  Relation.ReflTransGen.trans h h'

theorem joined_of_adjacent (hp : lit p) (hq : lit q) (h : Adjacent p q) : Joined lit p q :=
  .single ⟨hp, hq, Or.inl h⟩

variable (lit) [DecidablePred lit]

/-- The first pixel a lit pixel goes back to: above to the left where that is lit,
else to the left, else up. -/
def origin : ℕ → ℕ → Pixel
  | i + 1, j + 1 =>
    if lit (i, j) then origin i j
    else if lit (i + 1, j) then origin (i + 1) j
    else if lit (i, j + 1) then origin i (j + 1)
    else (i + 1, j + 1)
  | 0, j + 1 => if lit (0, j) then origin 0 j else (0, j + 1)
  | i + 1, 0 => if lit (i, 0) then origin i 0 else (i + 1, 0)
  | 0, 0 => (0, 0)
termination_by i j => i + j

/-- The neighbours above and to the left are lit and go back to the same pixel, and
the one between them is not lit. -/
def Blind (p : Pixel) : Prop :=
  lit p ∧ ∃ l t d, IsLeft l p ∧ IsTop t p ∧ IsDiag d p ∧ lit l ∧ lit t ∧ ¬ lit d ∧
    origin lit l.1 l.2 = origin lit t.1 t.2

variable {lit}

theorem origin_diag (h : IsDiag q p) (hq : lit q) :
    origin lit p.1 p.2 = origin lit q.1 q.2 := by
  rw [← h.1, ← h.2, origin]
  exact if_pos hq

theorem origin_left (h : IsLeft q p) (hq : lit q) (hd : ∀ d, IsDiag d p → ¬ lit d) :
    origin lit p.1 p.2 = origin lit q.1 q.2 := by
  obtain ⟨i, j⟩ := q
  obtain ⟨i', j'⟩ := p
  obtain ⟨rfl, rfl⟩ : i = i' ∧ j + 1 = j' := h
  cases i with
  | zero => rw [origin, if_pos hq]
  | succ i => rw [origin, if_neg (hd (i, j) ⟨rfl, rfl⟩), if_pos hq]

theorem origin_top (h : IsTop q p) (hq : lit q) (hd : ∀ d, IsDiag d p → ¬ lit d)
    (hl : ∀ l, IsLeft l p → ¬ lit l) : origin lit p.1 p.2 = origin lit q.1 q.2 := by
  obtain ⟨i, j⟩ := q
  obtain ⟨i', j'⟩ := p
  obtain ⟨rfl, rfl⟩ : i + 1 = i' ∧ j = j' := h
  cases j with
  | zero => rw [origin, if_pos hq]
  | succ j =>
    rw [origin, if_neg (hd (i, j) ⟨rfl, rfl⟩), if_neg (hl (i + 1, j) ⟨rfl, rfl⟩), if_pos hq]

theorem origin_self (hd : ∀ d, IsDiag d p → ¬ lit d) (hl : ∀ l, IsLeft l p → ¬ lit l)
    (ht : ∀ t, IsTop t p → ¬ lit t) : origin lit p.1 p.2 = p := by
  obtain ⟨i, j⟩ := p
  cases i with
  | zero =>
    cases j with
    | zero => rw [origin]
    | succ j => rw [origin, if_neg (hl (0, j) ⟨rfl, rfl⟩)]
  | succ i =>
    cases j with
    | zero => rw [origin, if_neg (ht (i, 0) ⟨rfl, rfl⟩)]
    | succ j =>
      rw [origin, if_neg (hd (i, j) ⟨rfl, rfl⟩), if_neg (hl (i + 1, j) ⟨rfl, rfl⟩),
        if_neg (ht (i, j + 1) ⟨rfl, rfl⟩)]

theorem origin_le (i j : ℕ) : (origin lit i j).1 ≤ i ∧ (origin lit i j).2 ≤ j := by
  fun_induction origin lit i j <;> omega

end Picture

/-! ### One pixel -/

/-- What the pass does at a pixel: the label it gives, and the union-find structure
and the pairs it represents afterwards. -/
inductive Assigned (on : Prop) (uf : UnionFind) (pairs : List (ℤ × ℤ)) (top left diag : ℤ) :
    ℤ → UnionFind → List (ℤ × ℤ) → Prop
  | dark : ¬ on → Assigned on uf pairs top left diag (-1) uf pairs
  | fresh {k : ℤ} {uf' : UnionFind} :
      on → top = -1 → left = -1 → diag = -1 → ¬ uf.Known k → 0 < k → uf'.Rep pairs →
      (∀ x, uf'.Known x ↔ uf.Known x ∨ x = k) → Assigned on uf pairs top left diag k uf' pairs
  | diag : on → diag ≠ -1 → Assigned on uf pairs top left diag diag uf pairs
  | left : on → diag = -1 → top = -1 → left ≠ -1 →
      Assigned on uf pairs top left diag left uf pairs
  | top : on → diag = -1 → left = -1 → top ≠ -1 → Assigned on uf pairs top left diag top uf pairs
  | join {uf' : UnionFind} :
      on → diag = -1 → top ≠ -1 → left ≠ -1 → left ≠ top →
      uf'.Rep (pairs ++ [(left, top)]) →
      (∀ x, uf'.Known x ↔ uf.Known x ∨ x = left ∨ x = top) →
      Assigned on uf pairs top left diag left uf' (pairs ++ [(left, top)])
  | skip : on → diag = -1 → top ≠ -1 → left = top →
      Assigned on uf pairs top left diag (-1) uf pairs

/-- `x` is the label of the neighbour of `p` in one direction, or `-1` where the
picture ends. -/
def Reads (dir : Pixel → Pixel → Prop) (label : Pixel → ℤ) (p : Pixel) (x : ℤ) : Prop :=
  (∃ q, dir q p ∧ label q = x) ∨ ((∀ q, ¬ dir q p) ∧ x = -1)

/-- Labels given so far: a lit pixel has a number of the union-find structure or `-1`,
any other has `-1`; numbers in use are on some pixel; and equivalent numbers are on
pixels that are joined. -/
structure Sound (lit : Pixel → Prop) (done : List Pixel) (label : Pixel → ℤ) (uf : UnionFind)
    (pairs : List (ℤ × ℤ)) : Prop where
  rep : uf.Rep pairs
  pos : ∀ k, uf.Known k → 0 < k
  shape : ∀ p ∈ done, label p = -1 ∨ (lit p ∧ uf.Known (label p))
  used : ∀ k, uf.Known k → ∃ p ∈ done, label p = k
  joined : ∀ p ∈ done, ∀ q ∈ done, uf.Known (label p) → Related pairs (label p) (label q) →
    Joined lit p q

section Step

variable {lit : Pixel → Prop} {done : List Pixel} {label : Pixel → ℤ} {uf uf' : UnionFind}
  {pairs pairs' : List (ℤ × ℤ)} {p q : Pixel} {x y z k : ℤ}

theorem Sound.known_of_ne (hs : Sound lit done label uf pairs) (hq : q ∈ done)
    (h : label q ≠ -1) : lit q ∧ uf.Known (label q) :=
  (hs.shape q hq).resolve_left h

/-- A neighbour whose label is not `-1`. -/
theorem Reads.neighbour {dir : Pixel → Pixel → Prop} (hr : Reads dir label p x)
    (hs : Sound lit done label uf pairs) (hdone : ∀ q, dir q p → q ∈ done) (hx : x ≠ -1) :
    ∃ q ∈ done, dir q p ∧ lit q ∧ uf.Known x ∧ label q = x := by
  rcases hr with ⟨q, hq, rfl⟩ | ⟨-, rfl⟩
  · obtain ⟨hl, hk⟩ := hs.known_of_ne (hdone q hq) hx
    exact ⟨q, hdone q hq, hq, hl, hk, rfl⟩
  · exact absurd rfl hx

theorem Reads.known {dir : Pixel → Pixel → Prop} (hr : Reads dir label p x)
    (hs : Sound lit done label uf pairs) (hdone : ∀ q, dir q p → q ∈ done) :
    x = -1 ∨ uf.Known x := by
  by_cases hx : x = -1
  · exact Or.inl hx
  · obtain ⟨q, -, -, -, hk, -⟩ := hr.neighbour hs hdone hx
    exact Or.inr hk

/-- The labels after `p` got the label `k`. -/
theorem update_of_mem (hp : p ∉ done) (hq : q ∈ done) (k : ℤ) :
    Function.update label p k q = label q :=
  Function.update_of_ne (by rintro rfl; exact hp hq) k label

/-- The structure of a new label keeps that no label is `-1`. -/
theorem Sound.unknown_neg (hs : Sound lit done label uf pairs) : uf.nodeLocs (-1) = none := by
  by_contra h
  have := hs.pos (-1) (Option.isSome_iff_ne_none.mpr h)
  omega

/-- A pixel that gets no label. -/
theorem Sound.blank (hs : Sound lit done label uf pairs) (hp : p ∉ done) :
    Sound lit (done ++ [p]) (Function.update label p (-1)) uf pairs where
  rep := hs.rep
  pos := hs.pos
  shape q hq := by
    rcases List.mem_append.mp hq with hq | hq
    · rw [update_of_mem hp hq]
      exact hs.shape q hq
    · rw [List.mem_singleton.mp hq]
      exact Or.inl (Function.update_self ..)
  used k hk := by
    obtain ⟨q, hq, hk⟩ := hs.used k hk
    exact ⟨q, by simp [hq], by rw [update_of_mem hp hq, hk]⟩
  joined q hq r hr hk hrel := by
    have hneg : ∀ {x}, Related pairs (-1) x → x = -1 := fun h =>
      (hs.rep.eq_of_unknown hs.unknown_neg h).symm
    have hkneg : ¬ uf.Known (-1) := by simp [UnionFind.Known, hs.unknown_neg]
    rcases List.mem_append.mp hq with hq | hq
    · rw [update_of_mem hp hq] at hk hrel
      rcases List.mem_append.mp hr with hr | hr
      · rw [update_of_mem hp hr] at hrel
        exact hs.joined q hq r hr hk hrel
      · rw [List.mem_singleton.mp hr, Function.update_self] at hrel
        rw [hneg hrel.symm] at hk
        exact absurd hk hkneg
    · rw [List.mem_singleton.mp hq, Function.update_self] at hk
      exact absurd hk hkneg

/-- A lit pixel that gets the label of a pixel it is joined to. -/
theorem Sound.extend (hs : Sound lit done label uf pairs) (hp : p ∉ done) (hlit : lit p)
    (hq : q ∈ done) (hk : uf.Known (label q)) (hj : Joined lit q p) :
    Sound lit (done ++ [p]) (Function.update label p (label q)) uf pairs where
  rep := hs.rep
  pos := hs.pos
  shape r hr := by
    rcases List.mem_append.mp hr with hr | hr
    · rw [update_of_mem hp hr]
      exact hs.shape r hr
    · rw [List.mem_singleton.mp hr, Function.update_self]
      exact Or.inr ⟨hlit, hk⟩
  used k hk := by
    obtain ⟨r, hr, hk⟩ := hs.used k hk
    exact ⟨r, by simp [hr], by rw [update_of_mem hp hr, hk]⟩
  joined r hr t ht hkr hrel := by
    rcases List.mem_append.mp hr with hr | hr <;> rcases List.mem_append.mp ht with ht | ht
    · rw [update_of_mem hp hr] at hkr hrel
      rw [update_of_mem hp ht] at hrel
      exact hs.joined r hr t ht hkr hrel
    · rw [List.mem_singleton.mp ht] at hrel ⊢
      rw [update_of_mem hp hr] at hkr hrel
      rw [Function.update_self] at hrel
      exact (hs.joined r hr q hq hkr hrel).trans hj
    · rw [List.mem_singleton.mp hr] at hrel ⊢
      rw [update_of_mem hp ht, Function.update_self] at hrel
      exact hj.symm.trans (hs.joined q hq t ht hk hrel)
    · rw [List.mem_singleton.mp hr, List.mem_singleton.mp ht]
      exact .refl

/-- A lit pixel that gets a number not in use. -/
theorem Sound.fresh (hs : Sound lit done label uf pairs) (hp : p ∉ done) (hlit : lit p)
    (hk : ¬ uf.Known k) (hpos : 0 < k) (hrep : uf'.Rep pairs)
    (hknown : ∀ x, uf'.Known x ↔ uf.Known x ∨ x = k) :
    Sound lit (done ++ [p]) (Function.update label p k) uf' pairs where
  rep := hrep
  pos x hx := by
    rcases (hknown x).mp hx with hx | rfl
    · exact hs.pos x hx
    · exact hpos
  shape q hq := by
    rcases List.mem_append.mp hq with hq | hq
    · rw [update_of_mem hp hq]
      exact (hs.shape q hq).imp id fun h => ⟨h.1, (hknown _).mpr (Or.inl h.2)⟩
    · rw [List.mem_singleton.mp hq, Function.update_self]
      exact Or.inr ⟨hlit, (hknown k).mpr (Or.inr rfl)⟩
  used x hx := by
    rcases (hknown x).mp hx with hx | rfl
    · obtain ⟨q, hq, hx⟩ := hs.used x hx
      exact ⟨q, by simp [hq], by rw [update_of_mem hp hq, hx]⟩
    · exact ⟨p, by simp, Function.update_self ..⟩
  joined q hq r hr hkq hrel := by
    have hkn : uf.nodeLocs k = none := by simpa [UnionFind.Known] using hk
    -- the new number is on no other pixel, and related to no other number
    have hne : ∀ q ∈ done, label q ≠ k := fun q hq h => by
      rcases hs.shape q hq with hneg | ⟨-, hkq⟩
      · omega
      · exact hk (h ▸ hkq)
    rcases List.mem_append.mp hq with hq | hq <;> rcases List.mem_append.mp hr with hr | hr
    · rw [update_of_mem hp hq] at hkq hrel
      rw [update_of_mem hp hr] at hrel
      exact hs.joined q hq r hr (((hknown _).mp hkq).resolve_right (hne q hq)) hrel
    · rw [update_of_mem hp hq, List.mem_singleton.mp hr, Function.update_self] at hrel
      exact absurd (hs.rep.eq_of_unknown hkn hrel.symm).symm (hne q hq)
    · rw [update_of_mem hp hr, List.mem_singleton.mp hq, Function.update_self] at hrel
      exact absurd (hs.rep.eq_of_unknown hkn hrel).symm (hne r hr)
    · rw [List.mem_singleton.mp hq, List.mem_singleton.mp hr]
      exact .refl

/-- Uniting the numbers of two pixels that are joined. -/
theorem Sound.unite (hs : Sound lit done label uf pairs) {l t : Pixel} (hl : l ∈ done)
    (ht : t ∈ done) (hkl : uf.Known (label l)) (hkt : uf.Known (label t)) (hj : Joined lit l t)
    (hrep : uf'.Rep (pairs ++ [(label l, label t)]))
    (hknown : ∀ x, uf'.Known x ↔ uf.Known x ∨ x = label l ∨ x = label t) :
    Sound lit done label uf' (pairs ++ [(label l, label t)]) := by
  have hiff : ∀ x, uf'.Known x ↔ uf.Known x := fun x => by
    rw [hknown]
    refine ⟨fun h => ?_, Or.inl⟩
    rcases h with h | rfl | rfl <;> assumption
  refine ⟨hrep, fun k hk => hs.pos k ((hiff k).mp hk), fun q hq => ?_,
    fun k hk => hs.used k ((hiff k).mp hk), fun q hq r hr hk hrel => ?_⟩
  · simpa only [hiff] using hs.shape q hq
  · rw [hiff] at hk
    rcases related_concat.mp hrel with h | ⟨h, h'⟩ | ⟨h, h'⟩
    · exact hs.joined q hq r hr hk h
    · exact ((hs.joined q hq l hl hk h).trans hj).trans (hs.joined t ht r hr hkt h')
    · exact ((hs.joined q hq t ht hk h).trans hj.symm).trans (hs.joined l hl r hr hkl h')

/-- One pixel keeps the labels sound. -/
theorem Sound.step (hs : Sound lit done label uf pairs) (hp : p ∉ done)
    (hdone : ∀ q, Adjacent q p → q ∈ done) {top left diag : ℤ}
    (htop : Reads IsTop label p top) (hleft : Reads IsLeft label p left)
    (hdiag : Reads IsDiag label p diag)
    (ha : Assigned (lit p) uf pairs top left diag k uf' pairs') :
    Sound lit (done ++ [p]) (Function.update label p k) uf' pairs' := by
  have hL := hleft.neighbour hs fun q hq => hdone q (Or.inl hq)
  have hT := htop.neighbour hs fun q hq => hdone q (Or.inr (Or.inl hq))
  have hD := hdiag.neighbour hs fun q hq => hdone q (Or.inr (Or.inr hq))
  cases ha with
  | dark => exact hs.blank hp
  | fresh hon _ _ _ hk hpos hrep hknown => exact hs.fresh hp hon hk hpos hrep hknown
  | diag hon h =>
    obtain ⟨q, hq, hdir, hlit, hk, rfl⟩ := hD h
    exact hs.extend hp hon hq hk (joined_of_adjacent hlit hon (Or.inr (Or.inr hdir)))
  | left hon _ _ h =>
    obtain ⟨q, hq, hdir, hlit, hk, rfl⟩ := hL h
    exact hs.extend hp hon hq hk (joined_of_adjacent hlit hon (Or.inl hdir))
  | top hon _ _ h =>
    obtain ⟨q, hq, hdir, hlit, hk, rfl⟩ := hT h
    exact hs.extend hp hon hq hk (joined_of_adjacent hlit hon (Or.inr (Or.inl hdir)))
  | join hon _ ht hl _ hrep hknown =>
    obtain ⟨l, hld, hldir, hllit, hkl, rfl⟩ := hL hl
    obtain ⟨t, htd, htdir, htlit, hkt, rfl⟩ := hT ht
    have hjl := joined_of_adjacent hllit hon (Or.inl hldir)
    have hjt := joined_of_adjacent htlit hon (Or.inr (Or.inl htdir))
    have hs' := hs.unite hld htd hkl hkt (hjl.trans hjt.symm) hrep hknown
    exact hs'.extend hp hon hld ((hknown _).mpr (Or.inl hkl)) hjl
  | skip => exact hs.blank hp

end Step

/-! ### Bringing together what is joined -/

/-- Labels given so far: every lit pixel has one, the same for the same origin, and
neighbours have equivalent ones. -/
structure Full (lit : Pixel → Prop) [DecidablePred lit] (done : List Pixel) (label : Pixel → ℤ)
    (pairs : List (ℤ × ℤ)) : Prop where
  visible : ∀ p ∈ done, lit p → label p ≠ -1
  same_origin : ∀ p ∈ done, ∀ q ∈ done, lit p → lit q →
    (label p = label q ↔ origin lit p.1 p.2 = origin lit q.1 q.2)
  linked : ∀ p ∈ done, ∀ q ∈ done, lit p → lit q → Adjacent p q →
    Related pairs (label p) (label q)

section FullStep

variable {lit : Pixel → Prop} [DecidablePred lit] {done : List Pixel} {label : Pixel → ℤ}
  {uf uf' : UnionFind} {pairs pairs' : List (ℤ × ℤ)} {p q : Pixel} {x k : ℤ}

theorem IsLeft.unique {q' : Pixel} (h : IsLeft q p) (h' : IsLeft q' p) : q = q' :=
  Prod.ext (by have := h.1; have := h'.1; omega) (by have := h.2; have := h'.2; omega)

theorem IsTop.unique {q' : Pixel} (h : IsTop q p) (h' : IsTop q' p) : q = q' :=
  Prod.ext (by have := h.1; have := h'.1; omega) (by have := h.2; have := h'.2; omega)

theorem IsDiag.unique {q' : Pixel} (h : IsDiag q p) (h' : IsDiag q' p) : q = q' :=
  Prod.ext (by have := h.1; have := h'.1; omega) (by have := h.2; have := h'.2; omega)

theorem Reads.eq_label {dir : Pixel → Pixel → Prop} (hr : Reads dir label p x)
    (huniq : ∀ {q q'}, dir q p → dir q' p → q = q') (hq : dir q p) : label q = x := by
  rcases hr with ⟨q', hq', rfl⟩ | ⟨hno, -⟩
  · rw [huniq hq hq']
  · exact absurd hq (hno q)

theorem Full.dark (hf : Full lit done label pairs) (hp : p ∉ done) (hlit : ¬ lit p) (k : ℤ) :
    Full lit (done ++ [p]) (Function.update label p k) pairs := by
  have hmem : ∀ q ∈ done ++ [p], lit q → q ∈ done := fun q hq hl => by
    rcases List.mem_append.mp hq with hq | hq
    · exact hq
    · exact absurd (List.mem_singleton.mp hq ▸ hl) hlit
  refine ⟨fun q hq hl => ?_, fun q hq r hr hl hl' => ?_, fun q hq r hr hl hl' hadj => ?_⟩
  · rw [update_of_mem hp (hmem q hq hl)]
    exact hf.visible q (hmem q hq hl) hl
  · rw [update_of_mem hp (hmem q hq hl), update_of_mem hp (hmem r hr hl')]
    exact hf.same_origin q (hmem q hq hl) r (hmem r hr hl') hl hl'
  · rw [update_of_mem hp (hmem q hq hl), update_of_mem hp (hmem r hr hl')]
    exact hf.linked q (hmem q hq hl) r (hmem r hr hl') hl hl' hadj

/-- A lit pixel that gets the right label. -/
theorem Full.extend (hf : Full lit done label pairs) (hp : p ∉ done)
    (hlast : ∀ q ∈ done, ¬ Adjacent p q) (hk : k ≠ -1) (hsub : ∀ e ∈ pairs, e ∈ pairs')
    (horigin : ∀ q ∈ done, lit q →
      (k = label q ↔ origin lit p.1 p.2 = origin lit q.1 q.2))
    (hlinked : ∀ q ∈ done, lit q → Adjacent q p → Related pairs' (label q) k) :
    Full lit (done ++ [p]) (Function.update label p k) pairs' := by
  refine ⟨fun q hq hl => ?_, fun q hq r hr hl hl' => ?_, fun q hq r hr hl hl' hadj => ?_⟩
  · rcases List.mem_append.mp hq with hq | hq
    · rw [update_of_mem hp hq]
      exact hf.visible q hq hl
    · rwa [List.mem_singleton.mp hq, Function.update_self]
  · rcases List.mem_append.mp hq with hq | hq <;> rcases List.mem_append.mp hr with hr | hr
    · rw [update_of_mem hp hq, update_of_mem hp hr]
      exact hf.same_origin q hq r hr hl hl'
    · rw [update_of_mem hp hq, List.mem_singleton.mp hr, Function.update_self]
      exact eq_comm.trans ((horigin q hq hl).trans eq_comm)
    · rw [update_of_mem hp hr, List.mem_singleton.mp hq, Function.update_self]
      exact horigin r hr hl'
    · rw [List.mem_singleton.mp hq, List.mem_singleton.mp hr]
      exact iff_of_true rfl rfl
  · rcases List.mem_append.mp hq with hq | hq <;> rcases List.mem_append.mp hr with hr | hr
    · rw [update_of_mem hp hq, update_of_mem hp hr]
      exact (hf.linked q hq r hr hl hl' hadj).mono hsub
    · rw [List.mem_singleton.mp hr] at hadj ⊢
      rw [update_of_mem hp hq, Function.update_self]
      exact hlinked q hq hl hadj
    · rw [List.mem_singleton.mp hq] at hadj
      exact absurd hadj (hlast r hr)
    · rw [List.mem_singleton.mp hq, List.mem_singleton.mp hr]
      exact .refl _ _

/-- Where the neighbours were read: a lit one does not read `-1`. -/
theorem Full.not_lit {dir : Pixel → Pixel → Prop} (hf : Full lit done label pairs)
    (hr : Reads dir label p (-1)) (huniq : ∀ {q q'}, dir q p → dir q' p → q = q')
    (hdone : ∀ q, dir q p → q ∈ done) (q : Pixel) (hq : dir q p) : ¬ lit q := fun hl =>
  hf.visible q (hdone q hq) hl (hr.eq_label huniq hq)

/-- A lit pixel without lit neighbours, which gets a number of its own. -/
theorem Full.isolated (hs : Sound lit done label uf pairs) (hf : Full lit done label pairs)
    (hp : p ∉ done) (hearlier : ∀ q ∈ done, q.1 < p.1 ∨ (q.1 = p.1 ∧ q.2 < p.2))
    (hlast : ∀ q ∈ done, ¬ Adjacent p q) (hnl : ∀ q, IsLeft q p → ¬ lit q)
    (hnt : ∀ q, IsTop q p → ¬ lit q) (hnd : ∀ q, IsDiag q p → ¬ lit q) (hpos : 0 < k)
    (hk : ¬ uf.Known k) : Full lit (done ++ [p]) (Function.update label p k) pairs := by
  refine hf.extend hp hlast (by omega) (fun e he => he) (fun q hq hlit => ?_)
    fun q _ hlit hadj => ?_
  · rw [origin_self hnd hnl hnt]
    refine iff_of_false (fun h => ?_) fun h => ?_
    · exact hk (h ▸ (hs.known_of_ne hq (hf.visible q hq hlit)).2)
    · have hle := @origin_le lit _ q.1 q.2
      have hbefore := hearlier q hq
      rw [← h] at hle
      omega
  · rcases hadj with h | h | h
    · exact absurd hlit (hnl q h)
    · exact absurd hlit (hnt q h)
    · exact absurd hlit (hnd q h)

/-- A lit pixel that gets the label of a lit one with the same origin. -/
theorem Full.copied (hf : Full lit done label pairs) (hp : p ∉ done)
    (hlast : ∀ q ∈ done, ¬ Adjacent p q) {n : Pixel} (hn : n ∈ done) (hlit : lit n)
    (horigin : origin lit p.1 p.2 = origin lit n.1 n.2) (hsub : ∀ e ∈ pairs, e ∈ pairs')
    (hlinked : ∀ q ∈ done, lit q → Adjacent q p → Related pairs' (label q) (label n)) :
    Full lit (done ++ [p]) (Function.update label p (label n)) pairs' := by
  refine hf.extend hp hlast (hf.visible n hn hlit) hsub (fun q hq hl => ?_) hlinked
  rw [horigin]
  exact hf.same_origin n hn q hq hlit hl

/-- One pixel that is not blind keeps the labels full. -/
theorem Full.step (hs : Sound lit done label uf pairs) (hf : Full lit done label pairs)
    (hp : p ∉ done) (hearlier : ∀ q ∈ done, q.1 < p.1 ∨ (q.1 = p.1 ∧ q.2 < p.2))
    (hdone : ∀ q, Adjacent q p → q ∈ done) {top left diag : ℤ}
    (htop : Reads IsTop label p top) (hleft : Reads IsLeft label p left)
    (hdiag : Reads IsDiag label p diag)
    (ha : Assigned (lit p) uf pairs top left diag k uf' pairs') (hblind : ¬ Blind lit p) :
    Full lit (done ++ [p]) (Function.update label p k) pairs' := by
  have hdl : ∀ q, IsLeft q p → q ∈ done := fun q hq => hdone q (Or.inl hq)
  have hdt : ∀ q, IsTop q p → q ∈ done := fun q hq => hdone q (Or.inr (Or.inl hq))
  have hdd : ∀ q, IsDiag q p → q ∈ done := fun q hq => hdone q (Or.inr (Or.inr hq))
  have hlast : ∀ q ∈ done, ¬ Adjacent p q := fun q hq h => by
    have := hearlier q hq
    unfold Adjacent IsLeft IsTop IsDiag at h
    omega
  cases ha with
  | dark hoff => exact hf.dark hp hoff (-1)
  | fresh hon ht hl hd hk hpos _ _ =>
    subst ht hl hd
    exact hf.isolated hs hp hearlier hlast (hf.not_lit hleft IsLeft.unique hdl)
      (hf.not_lit htop IsTop.unique hdt) (hf.not_lit hdiag IsDiag.unique hdd) hpos hk
  | diag hon h =>
    obtain ⟨d, hd, hdir, hlit, -, rfl⟩ := hdiag.neighbour hs hdd h
    refine hf.copied hp hlast hd hlit (origin_diag hdir hlit) (fun e he => he) fun q hq hl hadj => ?_
    rcases hadj with hq' | hq' | hq'
    · refine (hf.linked d hd q hq hlit hl (Or.inr (Or.inl ?_))).symm
      exact ⟨by have := hdir.1; have := hq'.1; omega, by have := hdir.2; have := hq'.2; omega⟩
    · refine (hf.linked d hd q hq hlit hl (Or.inl ?_)).symm
      exact ⟨by have := hdir.1; have := hq'.1; omega, by have := hdir.2; have := hq'.2; omega⟩
    · rw [hq'.unique hdir]
      exact .refl _ _
  | left hon hd ht h =>
    subst hd ht
    have hnt := hf.not_lit htop IsTop.unique hdt
    have hnd := hf.not_lit hdiag IsDiag.unique hdd
    obtain ⟨l, hl, hdir, hlit, -, rfl⟩ := hleft.neighbour hs hdl h
    refine hf.copied hp hlast hl hlit (origin_left hdir hlit hnd) (fun e he => he)
      fun q hq hl' hadj => ?_
    rcases hadj with hq' | hq' | hq'
    · rw [hq'.unique hdir]
      exact .refl _ _
    · exact absurd hl' (hnt q hq')
    · exact absurd hl' (hnd q hq')
  | top hon hd hl h =>
    subst hd hl
    have hnl := hf.not_lit hleft IsLeft.unique hdl
    have hnd := hf.not_lit hdiag IsDiag.unique hdd
    obtain ⟨t, ht, hdir, hlit, -, rfl⟩ := htop.neighbour hs hdt h
    refine hf.copied hp hlast ht hlit (origin_top hdir hlit hnd hnl) (fun e he => he)
      fun q hq hl' hadj => ?_
    rcases hadj with hq' | hq' | hq'
    · exact absurd hl' (hnl q hq')
    · rw [hq'.unique hdir]
      exact .refl _ _
    · exact absurd hl' (hnd q hq')
  | join hon hd ht hl _ _ _ =>
    subst hd
    have hnd := hf.not_lit hdiag IsDiag.unique hdd
    obtain ⟨l, hlm, hldir, hllit, -, rfl⟩ := hleft.neighbour hs hdl hl
    obtain ⟨t, htm, htdir, htlit, -, rfl⟩ := htop.neighbour hs hdt ht
    refine hf.copied hp hlast hlm hllit (origin_left hldir hllit hnd)
      (fun e he => List.mem_append_left _ he) fun q hq hl' hadj => ?_
    rcases hadj with hq' | hq' | hq'
    · rw [hq'.unique hldir]
      exact .refl _ _
    · rw [hq'.unique htdir]
      exact (Related.of_mem (by simp)).symm
    · exact absurd hl' (hnd q hq')
  | skip hon hd ht hlt =>
    -- the labels are equal, so the origins are, and the pixel is blind
    subst hd hlt
    obtain ⟨l, hlm, hldir, hllit, -, hlab⟩ := hleft.neighbour hs hdl ht
    obtain ⟨t, htm, htdir, htlit, -, hlab'⟩ := htop.neighbour hs hdt ht
    have hdir : IsDiag (t.1, l.2) p := ⟨htdir.1, hldir.2⟩
    refine absurd ⟨hon, l, t, (t.1, l.2), hldir, htdir, hdir, hllit, htlit, ?_, ?_⟩ hblind
    · exact hf.not_lit hdiag IsDiag.unique hdd _ hdir
    · exact (hf.same_origin l hlm t htm hllit htlit).mp (hlab.trans hlab'.symm)

/-- A blind pixel gets no label. -/
theorem Full.blind (hs : Sound lit done label uf pairs) (hf : Full lit done label pairs)
    (hdone : ∀ q, Adjacent q p → q ∈ done) {top left diag : ℤ}
    (htop : Reads IsTop label p top) (hleft : Reads IsLeft label p left)
    (hdiag : Reads IsDiag label p diag)
    (ha : Assigned (lit p) uf pairs top left diag k uf' pairs') (hblind : Blind lit p) :
    k = -1 := by
  obtain ⟨hon, l, t, d, hl, ht, hd, hll, hlt, hld, ho⟩ := hblind
  have hlm := hdone l (Or.inl hl)
  have htm := hdone t (Or.inr (Or.inl ht))
  have hleft' := hleft.eq_label IsLeft.unique hl
  have htop' := htop.eq_label IsTop.unique ht
  have hdiag' := hdiag.eq_label IsDiag.unique hd
  have hD : diag = -1 := by
    rw [← hdiag']
    exact (hs.shape d (hdone d (Or.inr (Or.inr hd)))).resolve_right fun h => hld h.1
  have hT : top ≠ -1 := htop' ▸ hf.visible t htm hlt
  have hL : left ≠ -1 := hleft' ▸ hf.visible l hlm hll
  have hLT : left = top := by
    rw [← hleft', ← htop']
    exact (hf.same_origin l hlm t htm hll hlt).mpr ho
  cases ha with
  | dark => rfl
  | fresh _ h => exact absurd h hT
  | diag _ h => exact absurd hD h
  | left _ _ h => exact absurd h hT
  | top _ _ h => exact absurd h hL
  | join _ _ _ _ h => exact absurd hLT h
  | skip => rfl

end FullStep

end SchoolProjects.Vision
