import SchoolProjects.Vision.SecondPass
import SchoolProjects.Vision.UnionFindRuns

/-! Union-find without pointers. A chart gives the number at the root above each
number, the value of each node, and the numbers of the nodes in `collection`. Every
function of `UnionFind` has its counterpart on charts, where `Union` still erases by
value: after a second pass values and numbers differ, and another root can be erased
than the one that was linked. -/

namespace SchoolProjects.Vision

open Forest UnionFind

structure Chart where
  leader : ℤ → Option ℤ
  value : ℤ → ℤ
  collection : List ℤ
  closed : ∀ {k r : ℤ}, leader k = some r → leader r = some r
  known : ∀ k ∈ collection, (leader k).isSome
  nodup : collection.Nodup

namespace Chart

variable {c : Chart} {a b k r x : ℤ}

def empty : Chart := ⟨fun _ => none, id, [], fun h => (by cases h), by simp, List.nodup_nil⟩

/-- The number at the root that `find` returns. -/
def head (c : Chart) (k : ℤ) : ℤ := (c.leader k).getD k

def find (c : Chart) (num : ℤ) : Chart :=
  if h : (c.leader num).isSome then c
  else
    { leader := Function.update c.leader num (some num)
      value := Function.update c.value num num
      collection := c.collection ++ [num]
      closed := fun {k r} hk => by
        by_cases hr : r = num
        · rw [hr, Function.update_self]
        · by_cases hkn : k = num
          · rw [hkn, Function.update_self] at hk
            exact absurd (Option.some.inj hk).symm hr
          · rw [Function.update_of_ne hkn] at hk
            rw [Function.update_of_ne hr]
            exact c.closed hk
      known := fun k hk => by
        rw [Function.update_apply]
        split_ifs with h1
        · rfl
        · exact c.known k (by simpa [h1] using hk)
      nodup := by
        refine List.nodup_append.mpr ⟨c.nodup, List.nodup_singleton _, fun a ha b hb => ?_⟩
        rintro rfl
        rw [List.mem_singleton.mp hb] at ha
        exact h (c.known num ha) }

/-- Putting the root `rb` below the root `ra`. -/
def link (c : Chart) (ra rb : ℤ) (ha : c.leader ra = some ra) : Chart where
  leader k := if c.leader k = some rb then some ra else c.leader k
  value := c.value
  collection := c.collection.eraseP fun k => c.value k = c.value rb
  closed := fun {k r} hk => by
    split_ifs at hk with h
    · obtain rfl := Option.some.inj hk
      rw [ha]
      exact ite_self _
    · rw [c.closed hk, if_neg fun h' => h (hk.trans h')]
  known k hk := by
    have := c.known k (List.mem_of_mem_eraseP hk)
    split_ifs
    · rfl
    · exact this
  nodup := c.nodup.sublist List.eraseP_sublist

theorem leader_head (hk : (c.leader k).isSome) : c.leader k = some (c.head k) := by
  obtain ⟨r, hr⟩ := Option.isSome_iff_exists.mp hk
  simp [head, hr]

theorem find_known (hk : (c.leader k).isSome) : c.find k = c := by
  simp [find, hk]

theorem leader_find (c : Chart) (k x : ℤ) :
    (c.find k).leader x = if x = k then some (c.head k) else c.leader x := by
  by_cases hk : (c.leader k).isSome
  · rw [find_known hk]
    split_ifs with hx
    · rw [hx, leader_head hk]
    · rfl
  · have hn := Option.not_isSome_iff_eq_none.mp hk
    simp [find, hn, head, Function.update_apply]

@[simp] theorem head_find (c : Chart) (k x : ℤ) : (c.find k).head x = c.head x := by
  rw [head, leader_find]
  split_ifs with hx
  · rw [hx, Option.getD_some]
  · rfl

theorem find_isSome (c : Chart) (k x : ℤ) :
    ((c.find k).leader x).isSome ↔ (c.leader x).isSome ∨ x = k := by
  rw [leader_find]
  split_ifs with hx <;> simp [hx]

theorem leader_head_self (hk : (c.leader k).isSome) : c.leader (c.head k) = some (c.head k) :=
  c.closed (leader_head hk)

def Union (c : Chart) (a b : ℤ) : Chart :=
  if c.head a = c.head b then (c.find a).find b
  else ((c.find a).find b).link (c.head a) (c.head b) (by
    have h := @leader_head_self ((c.find a).find b) a (by simp [find_isSome])
    simpa using h)

/-- One call of a client. -/
def call (c : Chart) : Call → Chart
  | .find num => c.find num
  | .Union a b => c.Union a b

/-- The first loop of `secondPass`. -/
def number (c : Chart) : Chart :=
  { c with value := fun k =>
      if k ∈ c.collection then (c.collection.idxOf k : ℤ) + 1 else c.value k }

/-- The value `find` leads to. -/
def reply (c : Chart) (k : ℤ) : ℤ :=
  match c.leader k with
  | none => k
  | some r => c.value r

/-- What the second pass makes of a label. -/
def final (c : Chart) (k : ℤ) : ℤ := if c.reply k < 0 then 0 else c.reply k

theorem value_find (c : Chart) (k x : ℤ) :
    (c.find k).value x = if (c.leader k).isSome then c.value x
      else if x = k then k else c.value x := by
  by_cases hk : (c.leader k).isSome
  · rw [find_known hk, if_pos hk]
  · have hn := Option.not_isSome_iff_eq_none.mp hk
    simp [find, hn, Function.update_apply]

/-- `find` leaves every reply as it is. -/
theorem reply_find (c : Chart) (k x : ℤ) : (c.find k).reply x = c.reply x := by
  by_cases hk : (c.leader k).isSome
  · rw [find_known hk]
  have hn := Option.not_isSome_iff_eq_none.mp hk
  unfold reply
  rw [leader_find]
  by_cases hx : x = k
  · simp [hx, hn, head, value_find]
  · rw [if_neg hx]
    cases hr : c.leader x with
    | none => rfl
    | some r =>
      have hrk : r ≠ k := by
        rintro rfl
        simp [c.closed hr] at hn
      simp [value_find, hn, hrk]

@[simp] theorem final_find (c : Chart) (k x : ℤ) : (c.find k).final x = c.final x := by
  simp only [final, reply_find]

end Chart

/-! ### Charts and pointers -/

/-- The chart `c` describes the structure `uf`. -/
structure Models (uf : UnionFind) (c : Chart) : Prop where
  sane : uf.Sane
  inj : ∀ k k' n, uf.nodeLocs k = some n → uf.nodeLocs k' = some n → k = k'
  unknown : ∀ k, c.leader k = none → uf.nodeLocs k = none
  leader : ∀ k r, c.leader k = some r → ∃ n, uf.nodeLocs r = some n ∧ uf.Root k n
  value : ∀ k n, uf.nodeLocs k = some n → uf.value n = some (c.value k)
  collection : List.Forall₂ (fun n k => uf.nodeLocs k = some n) uf.collection c.collection

section Lists

variable {α β : Type*} {R : α → β → Prop} {l : List α} {l' : List β}

theorem forall₂_eraseP {p : α → Bool} {q : β → Bool} (hpq : ∀ a b, R a b → p a = q b)
    (h : List.Forall₂ R l l') : List.Forall₂ R (l.eraseP p) (l'.eraseP q) := by
  induction h with
  | nil => exact .nil
  | @cons a b l l' hab _ ih =>
    cases hq : q b with
    | true => simpa [List.eraseP_cons, hpq a b hab, hq]
    | false => simpa [List.eraseP_cons, hpq a b hab, hq] using ⟨hab, ih⟩

theorem forall₂_idxOf [DecidableEq α] [DecidableEq β] (hR : Relator.BiUnique R)
    (h : List.Forall₂ R l l') {a : α} {b : β} (hab : R a b) : l.idxOf a = l'.idxOf b := by
  induction h with
  | nil => rfl
  | @cons x y l l' hxy _ ih =>
    by_cases hx : x = a
    · subst hx
      rw [hR.2 hxy hab, List.idxOf_cons_self, List.idxOf_cons_self]
    · have hy : y ≠ b := by
        rintro rfl
        exact hx (hR.1 hxy hab)
      rw [List.idxOf_cons_ne _ hx, List.idxOf_cons_ne _ hy, ih]

end Lists

namespace Models

variable {uf : UnionFind} {c : Chart} {a b k : ℤ}

theorem empty : Models UnionFind.empty Chart.empty where
  sane := empty_sane
  inj k k' n h := by cases h
  unknown k _ := rfl
  leader k r h := by cases h
  value k n h := by cases h
  collection := .nil

theorem biUnique (h : Models uf c) : Relator.BiUnique fun n k => uf.nodeLocs k = some n :=
  ⟨fun _ _ _ hn hm => Option.some.inj (hn.symm.trans hm), fun _ _ _ hn hm => h.inj _ _ _ hn hm⟩

/-- A structure with the same roots and values has the same chart. -/
theorem of_like {uf' : UnionFind} (h : Models uf c) (hl : uf'.Like uf)
    (hup : ∀ n p, uf'.parent n = some p → (uf'.heap.read p).isSome) : Models uf' c where
  sane := h.sane.of_like hl hup
  inj x y m := by
    rw [hl.locs]
    exact h.inj x y m
  unknown x hx := by
    rw [hl.locs]
    exact h.unknown x hx
  leader x s hs := by
    obtain ⟨m, hm, l, hx, hroot⟩ := h.leader x s hs
    exact ⟨m, hl.locs ▸ hm, l, hl.locs ▸ hx, (hl.root l m).mpr hroot⟩
  value x m hx := by
    rw [hl.value]
    exact h.value x m (hl.locs ▸ hx)
  collection := by
    rw [hl.collection, hl.locs]
    exact h.collection

theorem locs_added_self (uf : UnionFind) (k : ℤ) :
    (uf.added k).nodeLocs k = some uf.heap.fresh := by
  rw [added_locs, if_pos rfl]

theorem locs_added (h : Models uf c) (hk : c.leader k = none) {x : ℤ} {m : ℕ}
    (hx : uf.nodeLocs x = some m) : (uf.added k).nodeLocs x = some m := by
  have hxk : x ≠ k := by
    rintro rfl
    simp [h.unknown x hk] at hx
  rw [added_locs, if_neg hxk, hx]

/-- A new number is charted as its own leader. -/
theorem added (h : Models uf c) (hk : c.leader k = none) : Models (uf.added k) (c.find k) where
  sane := h.sane.added k
  inj x y m hx hy := by
    rw [added_locs] at hx hy
    split_ifs at hx hy with h1 h2 h2
    · rw [h1, h2]
    · exact absurd (Option.some.inj hx).symm (h.sane.loc_ne_fresh hy)
    · exact absurd (Option.some.inj hy).symm (h.sane.loc_ne_fresh hx)
    · exact h.inj x y m hx hy
  unknown x hx := by
    rw [Chart.leader_find] at hx
    split_ifs at hx with hxk
    rw [added_locs, if_neg hxk]
    exact h.unknown x hx
  leader x s hs := by
    rw [Chart.leader_find] at hs
    split_ifs at hs with hxk
    · obtain rfl : k = s := by simpa [Chart.head, hk] using hs
      exact ⟨_, locs_added_self uf k, (added_root uf k x _).mpr (Or.inl ⟨hxk, rfl⟩)⟩
    · obtain ⟨m, hm, hroot⟩ := h.leader x s hs
      exact ⟨m, h.locs_added hk hm, (added_root uf k x m).mpr (Or.inr ⟨hxk, hroot⟩)⟩
  value x m hx := by
    rw [added_value, Chart.value_find]
    rw [added_locs] at hx
    split_ifs at hx with hxk
    · obtain rfl := Option.some.inj hx
      simp [hk, hxk]
    · rw [if_neg (h.sane.loc_ne_fresh hx), h.value x m hx]
      simp [hk, hxk]
  collection := by
    simp only [Chart.find, hk, Option.isSome_none, Bool.false_eq_true, dite_false]
    refine List.rel_append (h.collection.imp fun n x hx => h.locs_added hk hx) ?_
    exact .cons (locs_added_self uf k) .nil

theorem find (h : Models uf c) (k : ℤ) :
    ∃ n uf', uf.find k = some (n, uf') ∧ Models uf' (c.find k) ∧
      uf'.nodeLocs (c.head k) = some n ∧
      ∀ x m, uf.nodeLocs x = some m → uf'.nodeLocs x = some m := by
  cases hk : c.leader k with
  | some r =>
    obtain ⟨n, hn, m, hm, hroot⟩ := h.leader k r hk
    obtain ⟨n', uf', hfind, hroot', hl, hup⟩ := find_like h.sane hm
    obtain rfl := hroot.unique hroot'
    rw [Chart.find_known (by simp [hk])]
    refine ⟨n, uf', hfind, h.of_like hl hup, ?_, fun x m' hx => hl.locs ▸ hx⟩
    rw [hl.locs, Chart.head, hk]
    exact hn
  | none =>
    refine ⟨_, _, find_new (h.unknown k hk), h.added hk, ?_, fun x m hx => h.locs_added hk hx⟩
    rw [Chart.head, hk]
    exact locs_added_self uf k

theorem union (h : Models uf c) (a b : ℤ) :
    ∃ uf', uf.Union a b = some (true, uf') ∧ Models uf' (c.Union a b) := by
  obtain ⟨na, uf₁, hfind₁, h₁, ha₁, -⟩ := h.find a
  obtain ⟨nb, uf₂, hfind₂, h₂, hb₂, hkeep⟩ := h₁.find b
  have ha₂ := hkeep _ _ ha₁
  rw [Chart.head_find] at hb₂
  have hiff : na = nb ↔ c.head a = c.head b := by
    constructor
    · rintro rfl
      exact h₂.inj _ _ _ ha₂ hb₂
    · intro heq
      rw [heq] at ha₂
      exact Option.some.inj (ha₂.symm.trans hb₂)
  unfold Chart.Union
  by_cases hab : c.head a = c.head b
  · rw [if_pos hab]
    exact ⟨uf₂, by simp [UnionFind.Union, hfind₁, hfind₂, hiff.mpr hab], h₂⟩
  have hne : na ≠ nb := mt hiff.mp hab
  have hroot : ∀ x n, ((c.find a).find b).leader x = some (c.head x) →
      uf₂.nodeLocs (c.head x) = some n → uf₂.Root x n := fun x n hx hn => by
    obtain ⟨m, hm, hr⟩ := h₂.leader x _ hx
    obtain rfl := Option.some.inj (hm.symm.trans hn)
    exact hr
  have hlead : ∀ x, x = a ∨ x = b → ((c.find a).find b).leader x = some (c.head x) :=
    fun x hx => by
      have := @Chart.leader_head ((c.find a).find b) x (by
        rw [Chart.find_isSome, Chart.find_isSome]
        tauto)
      simpa using this
  obtain ⟨g₁, g₂, n, hm₁, hm₂, hn, herase, hval, hroots, hsane⟩ := link_sane h₂.sane
    (hroot a na (hlead a (Or.inl rfl)) ha₂) (hroot b nb (hlead b (Or.inr rfl)) hb₂) hne
  rw [if_neg hab]
  refine ⟨_, by simp [UnionFind.Union, hfind₁, hfind₂, hne, hm₁, hm₂, hn, herase],
    hsane, h₂.inj, fun x hx => ?_, fun x s hs => ?_, fun x m hx => ?_, ?_⟩
  · simp only [Chart.link] at hx
    split_ifs at hx with hxb
    exact h₂.unknown x hx
  · simp only [Chart.link] at hs
    split_ifs at hs with hxb
    · obtain rfl := Option.some.inj hs
      obtain ⟨m, hm, l, hl, hr⟩ := h₂.leader x _ hxb
      obtain rfl := Option.some.inj (hm.symm.trans hb₂)
      exact ⟨na, ha₂, l, hl, (hroots _ _ l na).mpr (Or.inr ⟨hr, rfl⟩)⟩
    · obtain ⟨m, hm, l, hl, hr⟩ := h₂.leader x s hs
      have hmb : m ≠ nb := by
        rintro rfl
        exact hxb (h₂.inj _ _ _ hm hb₂ ▸ hs)
      exact ⟨m, hm, l, hl, (hroots _ _ l m).mpr (Or.inl ⟨hr, hmb⟩)⟩
  · rw [hval]
    exact h₂.value x m hx
  · refine forall₂_eraseP (fun m x hx => ?_) h₂.collection
    simp [h₂.value x m hx, h₂.value _ nb hb₂]

/-- One call on a structure, and on its chart. -/
theorem call (h : Models uf c) (q : Call) : ∃ uf', uf.call q = some uf' ∧ Models uf' (c.call q) := by
  cases q with
  | find num =>
    obtain ⟨n, uf', hfind, h', -⟩ := h.find num
    exact ⟨uf', by simp [UnionFind.call, hfind], h'⟩
  | Union a b =>
    obtain ⟨uf', hunion, h'⟩ := h.union a b
    exact ⟨uf', by simp [UnionFind.call, hunion], h'⟩

theorem calls (h : Models uf c) (qs : List Call) :
    ∃ uf', qs.foldlM UnionFind.call uf = some uf' ∧ Models uf' (qs.foldl Chart.call c) := by
  induction qs generalizing uf c with
  | nil => exact ⟨uf, rfl, h⟩
  | cons q qs ih =>
    obtain ⟨uf₁, hcall, h₁⟩ := h.call q
    obtain ⟨uf', hrun, h'⟩ := ih h₁
    exact ⟨uf', by simp [hcall, hrun], h'⟩

theorem numberRoots (h : Models uf c) :
    ∃ uf', Image.numberRoots 0 uf.collection uf = some uf' ∧ Models uf' c.number := by
  have hnd : uf.collection.Nodup := (List.rel_nodup h.biUnique h.collection).mpr c.nodup
  obtain ⟨uf', hrun, hloc, hcoll, hpar, hout, hin⟩ :=
    Image.numberRoots_eq hnd h.sane.alloc 0
  have halloc := alloc_of_values h.sane.alloc hout hin
  have hmem : ∀ k n, uf.nodeLocs k = some n → (n ∈ uf.collection ↔ k ∈ c.collection) :=
    fun k n hk => by
      rw [← List.idxOf_lt_length_iff, ← List.idxOf_lt_length_iff,
        forall₂_idxOf h.biUnique h.collection hk, h.collection.length_eq]
  refine ⟨uf', hrun, h.sane.of_parent hloc hcoll hpar halloc, fun k k' n => ?_, fun k hk => ?_,
    fun k r hk => ?_, fun k n hk => ?_, ?_⟩
  · rw [hloc]
    exact h.inj k k' n
  · rw [hloc]
    exact h.unknown k hk
  · simp only [Root, hloc, hpar]
    exact h.leader k r hk
  · rw [hloc] at hk
    simp only [Chart.number]
    by_cases hn : n ∈ uf.collection
    · rw [if_pos ((hmem k n hk).mp hn), hin n hn,
        forall₂_idxOf h.biUnique h.collection hk]
      simp
    · rw [if_neg (mt (hmem k n hk).mpr hn), hout n hn]
      exact h.value k n hk
  · rw [hcoll, hloc]
    exact h.collection

end Models

/-! ### The second pass on charts -/

namespace Image

variable {im : Image} {c : Chart}

theorem relabel_models (h : Models im.labelChart c) (p : Pixel) :
    ∃ uf, im.relabel p =
        some ({ im with labelChart := uf }.putLabel p.1 p.2 (c.final (im.label p))) ∧
      Models uf (c.find (im.label p)) := by
  obtain ⟨n, uf, hfind, h', hn, -⟩ := h.find (im.label p)
  refine ⟨uf, ?_, h'⟩
  have hreply : (c.find (im.label p)).value (c.head (im.label p)) = c.reply (im.label p) := by
    rw [← Chart.reply_find c (im.label p), Chart.reply, Chart.leader_find, if_pos rfl]
  rw [relabel_eq hfind (h'.value _ n hn), hreply]
  rfl

/-- The second pass replaces the labels as the chart says, and leaves behind the numbers
of the roots and a node for each label it has met. -/
theorem secondPass_models (h : Models im.labelChart c) :
    ∃ im', im.secondPass = some (im.labelChart.collection.length, im') ∧
      im'.num_rows = im.num_rows ∧ im'.num_columns = im.num_columns ∧ im'.pixels = im.pixels ∧
      (∀ p ∈ scan im.num_rows im.num_columns, im'.label p = c.number.final (im.label p)) ∧
      Models im'.labelChart ((scan im.num_rows im.num_columns).foldl
        (fun c p => c.find (im.label p)) c.number) := by
  obtain ⟨uf, hnum, hm⟩ := h.numberRoots
  have hfinal : ∀ (ps : List Pixel) (c : Chart) (x : ℤ),
      (ps.foldl (fun c p => c.find (im.label p)) c).final x = c.final x := by
    intro ps
    induction ps with
    | nil => exact fun c x => rfl
    | cons p ps ih => exact fun c x => (ih _ x).trans (Chart.final_find c _ x)
  let P : List Pixel → Image → Prop := fun done im₁ =>
    im₁.num_rows = im.num_rows ∧ im₁.num_columns = im.num_columns ∧ im₁.pixels = im.pixels ∧
    (∀ p ∈ done, im₁.label p = c.number.final (im.label p)) ∧
    (∀ p, p ∉ done → im₁.label p = im.label p) ∧
    Models im₁.labelChart (done.foldl (fun c p => c.find (im.label p)) c.number)
  have hstart : P [] { im with labelChart := uf } :=
    ⟨rfl, rfl, rfl, by simp, fun _ _ => rfl, hm⟩
  obtain ⟨im', hrun, hrows, hcols, hpix, hlab, -, hm'⟩ := foldlM_loop relabel
    (scan im.num_rows im.num_columns) P hstart (by
      rintro done p rest im₁ hscan ⟨hrows, hcols, hpix, hlab, htodo, hm₁⟩
      have hp := not_mem_done hscan
      obtain ⟨uf₁, hrel, hm₂⟩ := relabel_models hm₁ p
      rw [htodo p hp] at hrel hm₂
      refine ⟨_, hrel, hrows, hcols, hpix, fun q hq => ?_, fun q hq => ?_, ?_⟩
      · rw [label_putLabel]
        rcases List.mem_append.mp hq with hq | hq
        · rw [update_of_mem hp hq]
          exact hlab q hq
        · rw [List.mem_singleton.mp hq, Function.update_self, hfinal]
      · obtain ⟨hq, hqp⟩ : q ∉ done ∧ q ≠ p := by simpa using hq
        rw [label_putLabel, Function.update_of_ne hqp]
        exact htodo q hq
      · rw [List.foldl_append]
        exact hm₂)
  exact ⟨im', by simp [secondPass, hnum, hrun], hrows, hcols, hpix, hlab, hm'⟩

end Image

end SchoolProjects.Vision
