import SchoolProjects.Lib.MachineInt
import SchoolProjects.NameTree.Tree

/-! Building a tree from an ascending array (`balance` of `genBST.h`). Each call inserts the
element in the middle of its range from the root. All elements of a range lie between the
same two neighbours in the tree built so far, so they go down the same path, and the range
becomes a subtree at the end of it. The middle is computed with numbers of type `int`, which
are too small for the sum of two places in an array of more than `2 ^ 30` elements. -/

namespace SchoolProjects.NameTree

namespace BST

variable {α : Type*}

/-- `data[i]`; outside the array it is not defined. -/
def element (data : List α) (i : ℤ) : Option α := if 0 ≤ i then data[i.toNat]? else none

/-- The number of nodes on a longest path from the root. -/
def height : BST α → ℕ
  | null => 0
  | node _ left right => max (height left) (height right) + 1

variable [LinearOrder α]

/-- `balance(data, first, last)`, at most `fuel` calls deep. -/
def balance (data : List α) : ℕ → ℤ → ℤ → BST α → Option (BST α)
  | 0, _, _, _ => none
  | fuel + 1, first, last, tree =>
    if first ≤ last then
      let middle := (int32 (first + last)).tdiv 2
      (element data middle).bind fun el =>
        (balance data fuel first (middle - 1) (insert el tree)).bind fun tree =>
          balance data fuel (middle + 1) last tree
    else some tree

/-! ### The place of a range -/

/-- The tree with a subtree in the empty place that a search for `x` comes to. -/
def plug (x : α) (s : BST α) : BST α → BST α
  | null => s
  | node p left right =>
    if x < p then node p (plug x s left) right else node p left (plug x s right)

/-- The searches for both come to the same empty place. -/
def SameGap (t : BST α) (x y : α) : Prop := ∀ z ∈ inorder t, x < z ↔ y < z

variable {t : BST α} {x y : α}

theorem SameGap.node {p : α} {left right : BST α} (h : SameGap (.node p left right) x y) :
    SameGap left x y ∧ (x < p ↔ y < p) ∧ SameGap right x y := by
  refine ⟨fun z hz => h z ?_, h p ?_, fun z hz => h z ?_⟩ <;> simp [*]

theorem insert_eq_plug (x : α) (t : BST α) : insert x t = plug x (.node x null null) t := by
  induction t with
  | null => rfl
  | node p left right ihl ihr => rw [insert, plug, ihl, ihr]

theorem plug_null (x : α) (t : BST α) : plug x null t = t := by
  induction t with
  | null => rfl
  | node p left right ihl ihr => rw [plug, ihl, ihr, ite_self]

theorem plug_congr (h : SameGap t x y) (s : BST α) : plug y s t = plug x s t := by
  induction t with
  | null => rfl
  | node p left right ihl ihr =>
    obtain ⟨hl, hp, hr⟩ := h.node
    simp only [plug, hp, ihl hl, ihr hr]

/-- What is put into the same place goes into what is there. -/
theorem plug_plug (h : SameGap t x y) (s u : BST α) :
    plug y u (plug x s t) = plug x (plug y u s) t := by
  induction t with
  | null => rfl
  | node p left right ihl ihr =>
    obtain ⟨hl, hp, hr⟩ := h.node
    simp only [plug, hp]
    split_ifs with hlt
    · rw [plug, if_pos hlt, ihl hl]
    · rw [plug, if_neg hlt, ihr hr]

theorem mem_inorder_plug {z : α} {s : BST α} (hz : z ∈ inorder (plug x s t)) :
    z ∈ inorder t ∨ z ∈ inorder s := by
  induction t with
  | null => exact Or.inr hz
  | node p left right ihl ihr =>
    unfold plug at hz
    split_ifs at hz <;> simp only [inorder_node, List.mem_append, List.mem_cons] at hz ⊢ <;> tauto

theorem SameGap.trans {z : α} (h : SameGap t x y) (h' : SameGap t x z) : SameGap t y z :=
  fun w hw => (h w hw).symm.trans (h' w hw)

/-! ### The subtree of a range -/

/-- The elements before the middle, the one in the middle, and those after it. -/
inductive Halves : List α → List α → α → List α → Prop
  | intro (l : List α) (m : α) (r : List α) :
      l.length = (l.length + r.length) / 2 → Halves (l ++ m :: r) l m r

omit [LinearOrder α] in
theorem exists_halves {l : List α} (hl : l ≠ []) : ∃ a m b, Halves l a m b := by
  have hlen := List.length_pos_iff.mpr hl
  have hmid : (l.length - 1) / 2 < l.length := by omega
  have hsplit : l.take ((l.length - 1) / 2) ++ l[(l.length - 1) / 2] ::
      l.drop ((l.length - 1) / 2 + 1) = l := by
    rw [← List.drop_eq_getElem_cons hmid, List.take_append_drop]
  have hhalf := Halves.intro (l.take ((l.length - 1) / 2)) l[(l.length - 1) / 2]
    (l.drop ((l.length - 1) / 2 + 1)) (by simp only [List.length_take, List.length_drop]; omega)
  rw [hsplit] at hhalf
  exact ⟨_, _, _, hhalf⟩

/-- The tree that the calls for a range build. -/
inductive Built : List α → BST α → Prop
  | null : Built [] null
  | node {l a b : List α} {m : α} {left right : BST α} :
      Halves l a m b → Built a left → Built b right → Built l (.node m left right)

omit [LinearOrder α] in
theorem Built.inorder_eq {l : List α} {t : BST α} (h : Built l t) : inorder t = l := by
  induction h with
  | null => rfl
  | node hhalf _ _ ihl ihr =>
    obtain ⟨a, m, b, _⟩ := hhalf
    rw [inorder_node, ihl, ihr]

omit [LinearOrder α] in
/-- The subtree is as low as the number of its nodes allows. -/
theorem Built.height_le_iff {l : List α} {t : BST α} (h : Built l t) (k : ℕ) :
    height t ≤ k ↔ l.length < 2 ^ k := by
  induction h generalizing k with
  | null => simp [height]
  | node hhalf _ _ ihl ihr =>
    obtain ⟨a, m, b, hlen⟩ := hhalf
    cases k with
    | zero => simp [height]
    | succ k =>
      rw [height, Nat.add_le_add_iff_right, max_le_iff, ihl, ihr, List.length_append,
        List.length_cons, pow_succ]
      omega

omit [LinearOrder α] in
theorem element_mid (pre post : List α) (m : α) :
    element (pre ++ m :: post) pre.length = some m := by
  simp [element]

/-- The middle of a range, as long as the sum of its ends is an `int`. -/
theorem middle_eq {first last : ℤ} (h0 : 0 ≤ first + last) (h1 : first + last < 2 ^ 31) :
    (int32 (first + last)).tdiv 2 = (first + last) / 2 := by
  rw [int32_of_range (by omega) h1, Int.tdiv_eq_ediv_of_nonneg h0]

/-- Two elements come to one place in a tree and in the subtree that is put into it. -/
theorem SameGap.plug {z : α} {s : BST α} (h : SameGap t x y) (hs : SameGap s x y) :
    SameGap (plug z s t) x y := by
  intro w hw
  rcases mem_inorder_plug hw with hw | hw
  · exact h w hw
  · exact hs w hw

theorem plug_left {m : α} {l : List α} {s : BST α} (hs : Built l s) (hx : l ≠ [] → x < m) :
    plug x s (.node m null null) = .node m s null := by
  cases hs with
  | null => exact plug_null x _
  | node hhalf _ _ =>
    obtain ⟨a, m', b, _⟩ := hhalf
    rw [plug, if_pos (hx (by simp)), plug]

theorem plug_right {m : α} {l : List α} {s left : BST α} (hs : Built l s)
    (hx : l ≠ [] → m < x) : plug x s (.node m left null) = .node m left s := by
  cases hs with
  | null => exact plug_null x _
  | node hhalf _ _ =>
    obtain ⟨a, m', b, _⟩ := hhalf
    rw [plug, if_neg (hx (by simp)).asymm, plug]

/-- An element for a range, which comes to the place of all of them. -/
theorem exists_mem_gap {l : List α} (hgap : ∀ y ∈ l, SameGap t x y) :
    ∃ y, SameGap t x y ∧ (l ≠ [] → y ∈ l) := by
  cases l with
  | nil => exact ⟨x, fun _ _ => Iff.rfl, fun h => absurd rfl h⟩
  | cons y l => exact ⟨y, hgap y List.mem_cons_self, fun _ => List.mem_cons_self⟩

/-- The elements before `m` come to one place also when the node of `m` has been put there. -/
theorem exists_gap_before {l : List α} {m : α} (hgap : ∀ y ∈ l, SameGap t x y)
    (hm : ∀ y ∈ l, y < m) : ∃ y, SameGap t x y ∧ (l ≠ [] → y < m) ∧
      ∀ z ∈ l, SameGap (BST.plug x (.node m null null) t) y z := by
  obtain ⟨y, hxy, hy⟩ := exists_mem_gap hgap
  refine ⟨y, hxy, fun hne => hm y (hy hne), fun z hz => ?_⟩
  refine (hxy.trans (hgap z hz)).plug fun w hw => ?_
  obtain rfl : w = m := by simpa using hw
  exact iff_of_true (hm y (hy (List.ne_nil_of_mem hz))) (hm z hz)

/-- The elements after a subtree come to one place also when the subtree has been put there. -/
theorem exists_gap_after {l : List α} {s : BST α} (hgap : ∀ y ∈ l, SameGap t x y)
    (hs : ∀ y ∈ l, ∀ w ∈ inorder s, w < y) : ∃ y, SameGap t x y ∧ (l ≠ [] → y ∈ l) ∧
      ∀ z ∈ l, SameGap (BST.plug x s t) y z := by
  obtain ⟨y, hxy, hy⟩ := exists_mem_gap hgap
  refine ⟨y, hxy, hy, fun z hz => ?_⟩
  exact (hxy.trans (hgap z hz)).plug fun w hw =>
    iff_of_false (hs y (hy (List.ne_nil_of_mem hz)) w hw).asymm (hs z hz w hw).asymm

/-- The calls for a range of the array put its elements, as a subtree, into the place that
they all come to. -/
theorem balance_range (fuel : ℕ) (pre l post : List α) {t : BST α} {x : α}
    (hfuel : l.length < fuel) (hint : pre.length + l.length ≤ 2 ^ 30)
    (hl : l.Pairwise (· < ·)) (hgap : ∀ y ∈ l, SameGap t x y) :
    ∃ s, Built l s ∧ balance (pre ++ (l ++ post)) fuel pre.length (pre.length + l.length - 1) t =
      some (plug x s t) := by
  induction fuel generalizing pre l post t x with
  | zero => omega
  | succ fuel ih =>
    unfold balance
    by_cases hnil : l = []
    · subst hnil
      refine ⟨null, .null, ?_⟩
      rw [if_neg (by simp), plug_null]
    · obtain ⟨a, m, b, hhalf⟩ := exists_halves hnil
      obtain ⟨a, m, b, hlen⟩ := id hhalf
      rw [List.length_append, List.length_cons] at hfuel hint
      obtain ⟨ha, hmiddle, hab⟩ := List.pairwise_append.mp hl
      obtain ⟨hmb, hb⟩ := List.pairwise_cons.mp hmiddle
      have hmiddle : (int32 ((pre.length : ℤ) + (pre.length + (a ++ m :: b).length - 1))).tdiv 2 =
          (pre ++ a).length := by
        rw [middle_eq] <;> simp only [List.length_append, List.length_cons] <;> push_cast <;> omega
      have helement : element (pre ++ (a ++ m :: b ++ post)) (pre ++ a).length = some m := by
        have := element_mid (pre ++ a) (b ++ post) m
        simpa using this
      have hfirst : (pre.length : ℤ) ≤ pre.length + (a ++ m :: b).length - 1 := by
        simp only [List.length_append, List.length_cons]
        push_cast
        omega
      rw [if_pos hfirst]
      simp only [hmiddle, helement, Option.bind_some]
      rw [insert_eq_plug, plug_congr (hgap m (by simp))]
      -- the elements before the middle go to the left of its node
      obtain ⟨left, hleft, hrun⟩ : ∃ left, Built a left ∧
          balance (pre ++ (a ++ m :: b ++ post)) fuel pre.length ((pre ++ a).length - 1)
            (plug x (.node m null null) t) = some (plug x (.node m left null) t) := by
        obtain ⟨y, hxy, hy, hsame⟩ := exists_gap_before (fun y hy => hgap y (by simp [hy]))
          fun y hy => hab y hy m (by simp)
        obtain ⟨left, hleft, hrun⟩ := ih pre a (m :: b ++ post) (by omega) (by omega) ha hsame
        refine ⟨left, hleft, ?_⟩
        rw [plug_plug hxy, plug_left hleft hy] at hrun
        simpa using hrun
      rw [hrun, Option.bind_some]
      -- and those after it to the right
      have hafter : ∀ z ∈ b, ∀ w ∈ inorder (.node m left null), w < z := by
        intro z hz w hw
        rw [inorder_node, hleft.inorder_eq, List.mem_append] at hw
        rcases hw with hw | hw
        · exact hab w hw z (by simp [hz])
        · obtain rfl : w = m := by simpa using hw
          exact hmb z hz
      obtain ⟨y, hxy, hy, hsame⟩ := exists_gap_after (fun y hy => hgap y (by simp [hy])) hafter
      obtain ⟨right, hright, hrun⟩ := ih (pre ++ a ++ [m]) b post (by omega)
        (by simp only [List.length_append, List.length_singleton]; omega) hb hsame
      refine ⟨.node m left right, .node hhalf hleft hright, ?_⟩
      rw [plug_plug hxy, plug_right hright fun hne => hmb y (hy hne)] at hrun
      convert hrun using 2
      · simp
      · simp [add_assoc]
      · simp only [List.length_append, List.length_cons, List.length_nil]
        push_cast
        ring

/-! ### The whole array -/

/-- With more than `2 ^ 30` elements to the end of the range the calls come to a sum that is
no `int`, and read outside the array. -/
theorem balance_overflow (data : List α) (fuel : ℕ) {first last : ℤ} (h0 : 0 ≤ first)
    (hfirst : first ≤ last) (hlow : 2 ^ 30 ≤ last) (hhigh : last < 2 ^ 31) (t : BST α) :
    balance data fuel first last t = none := by
  induction fuel generalizing first t with
  | zero => rfl
  | succ fuel ih =>
    unfold balance
    rw [if_pos hfirst]
    by_cases hsum : first + last < 2 ^ 31
    · have hmiddle := middle_eq (by omega : 0 ≤ first + last) hsum
      have hlast : balance data fuel ((first + last) / 2 + 1) last = fun _ => none := by
        funext t
        exact ih (by omega) (by omega) t
      simp only [hmiddle, hlast, Option.bind_fun_none]
    · have hmiddle : (int32 (first + last)).tdiv 2 < 0 := by
        obtain ⟨k, hk⟩ := int32_eq (first + last)
        have hrange := (int32_eq_iff.mp (rfl : int32 (first + last) = _)).2
        have hneg : int32 (first + last) ≤ -2 := by omega
        have hdiv := Int.tdiv_eq_ediv_of_nonneg (a := -int32 (first + last)) (b := 2) (by omega)
        rw [Int.neg_tdiv] at hdiv
        omega
      have houtside : element data ((int32 (first + last)).tdiv 2) = none :=
        if_neg (not_le.mpr hmiddle)
      simp only [houtside, Option.bind_none]

/-- Deeper calls change nothing once the calls come to an end. -/
theorem balance_mono {data : List α} {fuel fuel' : ℕ} (hfuel : fuel ≤ fuel') {first last : ℤ}
    {s : BST α} (h : balance data fuel first last t = some s) :
    balance data fuel' first last t = some s := by
  induction fuel generalizing fuel' first last t s with
  | zero => cases h
  | succ fuel ih =>
    obtain ⟨fuel', rfl⟩ := Nat.exists_eq_succ_of_ne_zero (by omega : fuel' ≠ 0)
    unfold balance at h ⊢
    split_ifs at h ⊢ with hle
    · obtain ⟨el, hel, h⟩ := Option.bind_eq_some_iff.mp h
      obtain ⟨t₁, hleft, hright⟩ := Option.bind_eq_some_iff.mp h
      simp only [hel, Option.bind_some, ih (Nat.le_of_succ_le_succ hfuel) hleft]
      exact ih (Nat.le_of_succ_le_succ hfuel) hright
    · exact h

/-- From the empty tree a range at the front of the array becomes the whole tree. -/
theorem balance_front {data : List α} (hdata : data.Pairwise (· < ·)) (last : ℤ)
    (hlast : last < 2 ^ 30) (hlen : last < data.length) :
    ∃ s, Built (data.take (last + 1).toNat) s ∧
      balance data ((last + 1).toNat + 1) 0 last null = some s := by
  by_cases hneg : last < 0
  · refine ⟨null, ?_, ?_⟩
    · rw [show (last + 1).toNat = 0 by omega, List.take_zero]
      exact .null
    · unfold balance
      rw [if_neg (by omega)]
  · have hlength : (data.take (last + 1).toNat).length = (last + 1).toNat := by
      rw [List.length_take]
      omega
    obtain ⟨x, hx⟩ : ∃ x, x ∈ data := List.exists_mem_of_length_pos (by omega)
    obtain ⟨s, hs, hrun⟩ := balance_range ((last + 1).toNat + 1) [] (data.take (last + 1).toNat)
      (data.drop (last + 1).toNat) (x := x) (by omega) (by simp only [List.length_nil]; omega)
      (hdata.sublist (List.take_sublist _ _)) (t := null) fun _ _ _ hz => absurd hz List.not_mem_nil
    refine ⟨s, hs, ?_⟩
    rw [List.nil_append, List.take_append_drop, hlength] at hrun
    have hends : (([] : List α).length : ℤ) + (last + 1).toNat - 1 = last := by
      simp only [List.length_nil]
      omega
    rwa [hends] at hrun

/-- The tree that is built from an ascending array is a search tree of its elements of the
least height, if and only if the array has at most `2 ^ 30` elements. -/
theorem balance_minimal_iff {data : List α} (hdata : data.Pairwise (· < ·)) :
    (∃ fuel t, balance data fuel 0 (int32 (data.length - 1)) null = some t ∧ Ascending t ∧
      inorder t = data ∧ IsLeast {h | data.length ≤ 2 ^ h - 1} (height t)) ↔
    data.length ≤ 2 ^ 30 := by
  obtain ⟨k, hk⟩ := int32_eq (data.length - 1)
  have hrange := (int32_eq_iff.mp (rfl : int32 ((data.length : ℤ) - 1) = _)).2
  constructor
  · rintro ⟨fuel, t, hrun, -, horder, -⟩
    by_cases hlast : int32 ((data.length : ℤ) - 1) < 2 ^ 30
    · obtain ⟨s, hs, hrun'⟩ := balance_front hdata _ hlast (by omega)
      have heq : t = s := Option.some.inj
        ((balance_mono (Nat.le_max_left fuel _) hrun).symm.trans
          (balance_mono (Nat.le_max_right fuel _) hrun'))
      have hlength := congrArg List.length (hs.inorder_eq.symm.trans (heq ▸ horder))
      rw [List.length_take] at hlength
      omega
    · rw [balance_overflow data fuel le_rfl (by omega) (not_lt.mp hlast) hrange.2] at hrun
      cases hrun
  · intro hlen
    have hlast : int32 ((data.length : ℤ) - 1) = data.length - 1 :=
      int32_of_range (by omega) (by omega)
    obtain ⟨s, hs, hrun⟩ := balance_front hdata (data.length - 1) (by omega) (by omega)
    rw [show ((data.length : ℤ) - 1 + 1).toNat = data.length by omega, List.take_length] at hs
    rw [hlast]
    refine ⟨_, s, hrun, ?_, hs.inorder_eq, ?_⟩
    · rw [Ascending, hs.inorder_eq]
      exact hdata.imp le_of_lt
    · have hheight : ∀ h, data.length ≤ 2 ^ h - 1 ↔ height s ≤ h := by
        intro h
        have hpos := Nat.two_pow_pos h
        rw [hs.height_le_iff]
        omega
      exact ⟨(hheight _).mpr le_rfl, fun h hh => (hheight h).mp hh⟩

/-- Three names. -/
theorem balance_minimal_three :
    (∃ fuel t, balance [2, 3, 5] fuel 0 (int32 ([2, 3, 5].length - 1)) null = some t ∧
      Ascending t ∧ inorder t = [2, 3, 5] ∧
      IsLeast {h | [2, 3, 5].length ≤ 2 ^ h - 1} (height t)) ↔ [2, 3, 5].length ≤ 2 ^ 30 :=
  balance_minimal_iff (by decide)

/-- An array of `2 ^ 30 + 1` numbers. -/
theorem balance_too_long : ¬ ∀ data : List ℕ, data.Pairwise (· < ·) →
    ∃ fuel t, balance data fuel 0 (int32 (data.length - 1)) null = some t ∧ Ascending t ∧
      inorder t = data ∧ IsLeast {h | data.length ≤ 2 ^ h - 1} (height t) := by
  intro h
  obtain ⟨fuel, t, hrun, -⟩ := h (List.range (2 ^ 30 + 1)) List.pairwise_lt_range
  have hlast : int32 (((List.range (2 ^ 30 + 1)).length : ℤ) - 1) = 2 ^ 30 := by
    rw [List.length_range]
    exact int32_of_range (by norm_num) (by norm_num)
  rw [hlast, balance_overflow _ fuel le_rfl (by norm_num) le_rfl (by norm_num)] at hrun
  cases hrun

end BST

end SchoolProjects.NameTree
