import SchoolProjects.Vision.Provisional

/-! What the structure of one picture does to the labels of the next one. The calls of
a picture are run on an empty chart and on one that is left over, and the labels of the
second pass are compared. After a second pass the node of `-1` stands in the
collection, and the roots have their places for values, so that `Union` can erase a
root for another that has its value. -/

namespace SchoolProjects.Vision.Chart

open UnionFind Provisional

variable {c : Chart} {a b k r x first next : ℤ} {qs : List Call}

/-! ### `Union` of numbers that have nodes -/

section Known

variable (ha : (c.leader a).isSome) (hb : (c.leader b).isSome)

include ha hb

theorem value_union : (c.Union a b).value = c.value := by
  unfold Union
  split_ifs
  · rw [find_known ha, find_known hb]
  · simp only [link, find_known ha, find_known hb]

theorem leader_union (k : ℤ) : (c.Union a b).leader k =
    if c.leader k = some (c.head b) then some (c.head a) else c.leader k := by
  unfold Union
  split_ifs with h hk hk
  · rw [find_known ha, find_known hb, h, hk]
  · rw [find_known ha, find_known hb]
  · simp [link, find_known ha, find_known hb, hk]
  · simp [link, find_known ha, find_known hb, hk]

theorem collection_union : (c.Union a b).collection =
    if c.head a = c.head b then c.collection
    else c.collection.eraseP fun k => c.value k = c.value (c.head b) := by
  unfold Union
  split_ifs with h
  · rw [find_known ha, find_known hb]
  · simp only [link, find_known ha, find_known hb]

end Known

theorem collection_find (c : Chart) (k : ℤ) : (c.find k).collection =
    if (c.leader k).isSome then c.collection else c.collection ++ [k] := by
  unfold find
  split_ifs <;> rfl

/-! ### The chart of one picture -/

/-- The numbers from `first` up to, not including, `next` have nodes, each holds its
number, and the collection lists the roots. -/
structure Plain (first next : ℤ) (c : Chart) : Prop where
  isSome : ∀ k, (c.leader k).isSome ↔ first ≤ k ∧ k < next
  value : ∀ k, (c.leader k).isSome → c.value k = k
  roots : ∀ k, k ∈ c.collection ↔ c.leader k = some k

theorem Plain.unknown (h : Plain first next c) (hk : ¬ (first ≤ k ∧ k < next)) :
    c.leader k = none :=
  Option.not_isSome_iff_eq_none.mp (mt (h.isSome k).mp hk)

theorem Plain.head_mem (h : Plain first next c) (hk : (c.leader k).isSome) :
    c.head k ∈ c.collection :=
  (h.roots _).mpr (leader_head_self hk)

theorem Plain.find (h : Plain first next c) (hle : first ≤ next) :
    Plain first (next + 1) (c.find next) where
  isSome k := by
    rw [find_isSome, h.isSome]
    omega
  value k hk := by
    have hnone := h.unknown (k := next) (by omega)
    rw [value_find, hnone]
    by_cases hkn : k = next
    · simp [hkn]
    · have hk' := (find_isSome c next k).mp hk
      simpa [hkn] using h.value k (hk'.resolve_right hkn)
  roots k := by
    have hnone := h.unknown (k := next) (by omega)
    rw [collection_find, leader_find, hnone]
    by_cases hkn : k = next
    · simp [hkn, head, hnone]
    · simp [hkn, h.roots]

/-- The values of a plain chart tell its roots apart. -/
theorem Plain.collection_union (h : Plain first next c) (ha : (c.leader a).isSome)
    (hb : (c.leader b).isSome) : (c.Union a b).collection =
      if c.head a = c.head b then c.collection else c.collection.erase (c.head b) := by
  rw [Chart.collection_union ha hb]
  split_ifs
  · rfl
  · apply eraseP_eq_erase
    intro k hk
    rw [h.value k (c.known k hk), h.value _ (c.known _ (h.head_mem hb))]

theorem Plain.union (h : Plain first next c) (ha : (c.leader a).isSome)
    (hb : (c.leader b).isSome) : Plain first next (c.Union a b) := by
  have hsome : ∀ k, ((c.Union a b).leader k).isSome ↔ (c.leader k).isSome := fun k => by
    rw [leader_union ha hb]
    split_ifs with hk <;> simp [hk]
  refine ⟨fun k => (hsome k).trans (h.isSome k), fun k hk => ?_, fun k => ?_⟩
  · rw [value_union ha hb]
    exact h.value k ((hsome k).mp hk)
  · rw [h.collection_union ha hb, leader_union ha hb]
    by_cases hab : c.head a = c.head b
    · rw [if_pos hab, h.roots, hab]
      split_ifs with hk
      · rw [hk]
      · rfl
    · have hself := leader_head_self ha
      rw [if_neg hab, c.nodup.mem_erase_iff, h.roots]
      split_ifs with hk
      · rw [hk]
        constructor
        · rintro ⟨hne, heq⟩
          exact absurd (Option.some.inj heq).symm hne
        · intro heq
          obtain rfl := Option.some.inj heq
          exact absurd (Option.some.inj (hself.symm.trans hk)) hab
      · refine ⟨And.right, fun heq => ⟨?_, heq⟩⟩
        rintro rfl
        exact hk heq

/-- The calls of one picture on an empty chart. -/
theorem plain_calls (h : Orderly first next qs) : Plain first next (qs.foldl call empty) := by
  induction h with
  | nil => exact ⟨fun k => by simp [empty], fun k _ => rfl, fun k => by simp [empty]⟩
  | find h ih =>
    rw [List.foldl_append]
    exact ih.find h.le
  | union h h1 h2 h3 h4 ih =>
    rw [List.foldl_append]
    exact ih.union ((ih.isSome _).mpr ⟨h1, h2⟩) ((ih.isSome _).mpr ⟨h3, h4⟩)

/-- A number that is not there yet changes no final label. -/
theorem Plain.final_find (h : Plain first next c) (hk : (c.leader k).isSome)
    (hx : c.leader x = none) : (c.find x).number.final k = c.number.final k := by
  have hkx : k ≠ x := by
    rintro rfl
    simp [hx] at hk
  have hmem := h.head_mem hk
  have hlead := leader_head hk
  have hmem' : c.head k ∈ (c.find x).collection := by
    rw [collection_find, hx]
    simp [hmem]
  have hidx : (c.find x).collection.idxOf (c.head k) = c.collection.idxOf (c.head k) := by
    rw [collection_find, hx]
    simpa using List.idxOf_append_of_mem hmem
  have hreply : (c.find x).number.reply k = c.number.reply k := by
    simp only [reply, number, leader_find, if_neg hkx, hlead, if_pos hmem, if_pos hmem', hidx]
  rw [final, final, hreply]

/-- The final label of a number under a root in the collection. -/
theorem final_of_mem (hk : c.leader k = some r) (hr : r ∈ c.collection) :
    c.number.final k = c.collection.idxOf r + 1 := by
  have hreply : c.number.reply k = c.collection.idxOf r + 1 := by
    simp [reply, number, hk, hr]
  rw [final, hreply]
  exact if_neg (by omega)

/-- The final label of a number that has no node. -/
theorem final_unknown (hk : c.leader k = none) (hneg : k < 0) : c.number.final k = 0 := by
  have hreply : c.number.reply k = k := by
    simp [reply, number, hk]
  rw [final, hreply]
  exact if_pos hneg

/-- No call removes a node. -/
theorem isSome_call (q : Call) (hk : (c.leader k).isSome) : ((c.call q).leader k).isSome := by
  cases q with
  | find num => exact (find_isSome c num k).mpr (Or.inl hk)
  | Union a b =>
    have hfind : (((c.find a).find b).leader k).isSome := by
      simp [find_isSome, hk]
    change ((c.Union a b).leader k).isSome
    unfold Union
    split_ifs
    · exact hfind
    · simp only [link]
      split_ifs
      · rfl
      · exact hfind

/-- The numbers of a picture have nodes after its calls. -/
theorem calls_isSome (h : Orderly first next qs) (h1 : first ≤ k) (h2 : k < next) :
    ((qs.foldl call c).leader k).isSome := by
  induction h with
  | nil => omega
  | @find next qs h ih =>
    rw [List.foldl_append]
    apply (find_isSome _ _ _).mpr
    by_cases hk : k = next
    · exact Or.inr hk
    · exact Or.inl (ih (by omega))
  | @union next a b qs h _ _ _ _ ih =>
    rw [List.foldl_append]
    exact isSome_call (.Union a b) (ih h2)

/-! ### A chart with a node for `-1` -/

/-- The node of `-1` is in the collection, and no other node has its value. -/
structure Marked (c : Chart) : Prop where
  mem : -1 ∈ c.collection
  leader : c.leader (-1) = some (-1)
  value : c.value (-1) = -1
  other : ∀ k r, c.leader k = some r → k ≠ -1 → 0 < c.value r

theorem Marked.head_other (h : Marked c) (hk : (c.leader k).isSome) (hne : k ≠ -1) :
    0 < c.value (c.head k) ∧ c.head k ≠ -1 := by
  have hpos := h.other k _ (leader_head hk) hne
  refine ⟨hpos, fun heq => ?_⟩
  rw [heq, h.value] at hpos
  omega

theorem Marked.find (h : Marked c) (hk : 0 < k) : Marked (c.find k) := by
  by_cases hs : (c.leader k).isSome
  · rwa [find_known hs]
  have hnone := Option.not_isSome_iff_eq_none.mp hs
  have hneg : (-1 : ℤ) ≠ k := by omega
  refine ⟨?_, ?_, ?_, fun x r hx hne => ?_⟩
  · rw [collection_find, hnone]
    simp [h.mem]
  · rw [leader_find, if_neg hneg, h.leader]
  · rw [value_find, hnone]
    simp [hneg, h.value]
  · rw [leader_find] at hx
    rw [value_find, hnone]
    split_ifs at hx with hxk
    · obtain rfl : k = r := by simpa [head, hnone] using hx
      simpa using hk
    · have hrk : r ≠ k := by
        rintro rfl
        simp [c.closed hx] at hnone
      simpa [hrk] using h.other x r hx hne

theorem Marked.union (h : Marked c) (ha : (c.leader a).isSome) (hb : (c.leader b).isSome)
    (ha0 : a ≠ -1) (hb0 : b ≠ -1) : Marked (c.Union a b) := by
  obtain ⟨hvb, hneb⟩ := h.head_other hb hb0
  refine ⟨?_, ?_, ?_, fun x r hx hne => ?_⟩
  · rw [collection_union ha hb]
    split_ifs
    · exact h.mem
    · rw [List.mem_eraseP_of_neg]
      · exact h.mem
      · rw [h.value]
        simp
        omega
  · rw [leader_union ha hb, h.leader, if_neg fun heq => hneb (Option.some.inj heq).symm]
  · rw [value_union ha hb, h.value]
  · rw [leader_union ha hb] at hx
    rw [value_union ha hb]
    split_ifs at hx with hxb
    · obtain rfl := Option.some.inj hx
      exact (h.head_other ha ha0).1
    · exact h.other x r hx hne

/-- The calls of a picture leave the node of `-1` in the collection. -/
theorem Marked.calls (h : Marked c) (hqs : Orderly first next qs) (hfirst : 0 < first) :
    Marked (qs.foldl call c) := by
  induction hqs with
  | nil => exact h
  | find hqs ih =>
    rw [List.foldl_append]
    exact ih.find (hfirst.trans_le hqs.le)
  | union hqs h1 h2 h3 h4 ih =>
    rw [List.foldl_append]
    exact ih.union (calls_isSome hqs h1 h2) (calls_isSome hqs h3 h4) (by omega) (by omega)

/-- A pixel without a label gets a positive final label. -/
theorem Marked.final (h : Marked c) : c.number.final (-1) ≠ 0 := by
  rw [final_of_mem h.leader h.mem]
  omega

/-- The second pass of a picture with a pixel without label leaves the node behind. -/
theorem Plain.marked (h : Plain first next c) (hfirst : 0 < first) :
    Marked (c.number.find (-1)) := by
  have hnone : c.number.leader (-1) = none := h.unknown (by omega)
  refine ⟨?_, ?_, ?_, fun k r hk hne => ?_⟩
  · rw [collection_find, hnone]
    simp
  · rw [leader_find, if_pos rfl, head, hnone]
    rfl
  · rw [value_find, hnone]
    simp
  · rw [leader_find, if_neg hne] at hk
    have hr : r ∈ c.collection := (h.roots r).mpr (c.closed hk)
    have hrne : r ≠ -1 := by
      rintro rfl
      have := c.closed hk
      simp [show c.leader (-1) = none from hnone] at this
    rw [value_find, hnone]
    simp only [Option.isSome_none, Bool.false_eq_true, if_false, if_neg hrne, number, if_pos hr]
    omega

theorem idxOf_eq_zero {l : List ℤ} (hr : r ∈ l) : l.idxOf r = 0 ↔ l.head? = some r := by
  cases l with
  | nil => cases hr
  | cons x l =>
    by_cases hx : x = r
    · simp [hx]
    · rw [List.idxOf_cons_ne _ hx]
      simp [hx]

/-- After such a picture, the single number of a picture with lit pixels only comes
first just when its root did. -/
theorem Plain.final_two (h : Plain first next c) (hfirst : 0 < first) :
    ((c.number.find (-1)).find 2).number.final 2 = 1 ↔
      ∃ r, c.leader 2 = some r ∧ c.collection.head? = some r := by
  have hnone : c.number.leader (-1) = none := h.unknown (by omega)
  have hcoll : (c.number.find (-1)).collection = c.collection ++ [-1] := by
    rw [collection_find, hnone]
    rfl
  have hlead : (c.number.find (-1)).leader 2 = c.leader 2 := by
    rw [leader_find, if_neg (by norm_num)]
    rfl
  cases h2 : c.leader 2 with
  | some r =>
    have hr : r ∈ c.collection := (h.roots r).mpr (c.closed h2)
    rw [find_known (by simp [hlead, h2]),
      final_of_mem (hlead.trans h2) (by simp [hcoll, hr]), hcoll,
      List.idxOf_append_of_mem hr]
    have hzero := idxOf_eq_zero hr
    constructor
    · exact fun heq => ⟨r, rfl, hzero.mp (by omega)⟩
    · rintro ⟨s, hs, hhead⟩
      obtain rfl := Option.some.inj hs
      have := hzero.mpr hhead
      omega
  | none =>
    have hout : (2 : ℤ) ∉ c.collection ++ [-1] := fun hm => by
      rcases List.mem_append.mp hm with hm | hm
      · rw [h.roots, h2] at hm
        cases hm
      · simp at hm
    have hcoll' : ((c.number.find (-1)).find 2).collection = c.collection ++ [-1] ++ [2] := by
      rw [collection_find, hlead, h2, hcoll]
      rfl
    have hlead' : ((c.number.find (-1)).find 2).leader 2 = some 2 := by
      rw [leader_find, if_pos rfl, head, hlead, h2]
      rfl
    rw [final_of_mem hlead' (by simp [hcoll']), hcoll', List.idxOf_append_of_notMem hout]
    refine iff_of_false (fun heq => ?_) (by simp)
    simp only [List.length_append, List.length_singleton] at heq
    omega

/-! ### A chart left by a picture with lit pixels only -/

/-- What such a picture leaves: the number 2, whose node has the value 1. -/
def full : Chart := (empty.find 2).number

/-- The collection of a new chart to which 2 was added, and of the chart left over after
the same calls. The node of 1 is there or not. -/
inductive Paired (one : Prop) : List ℤ → List ℤ → Prop
  | alone {l : List ℤ} : ¬ one → (∀ k ∈ l, 3 ≤ k) → Paired one (2 :: l) (2 :: l)
  | both {l : List ℤ} : one → (∀ k ∈ l, 3 ≤ k) → Paired one (1 :: 2 :: l) (2 :: 1 :: l)
  | either {r : ℤ} {l : List ℤ} :
      one → r = 1 ∨ r = 2 → (∀ k ∈ l, 3 ≤ k) → Paired one (r :: l) (1 :: l)
  | neither {l : List ℤ} : (∀ k ∈ l, 3 ≤ k) → Paired one l l

/-- The two charts after the same calls. -/
structure Twin (A B : Chart) : Prop where
  leader : B.leader = A.leader
  one : (A.leader 1).isSome → B.value 1 = 1
  two : B.value 2 = 1
  value : ∀ k, 3 ≤ k → (A.leader k).isSome → B.value k = k
  collection : Paired (A.leader 1).isSome A.collection B.collection

section Twin

variable {A B : Chart} {one : Prop} {l l' : List ℤ}

theorem Paired.append (h : Paired one l l') (hk : 3 ≤ k) : Paired one (l ++ [k]) (l' ++ [k]) := by
  have hmem : ∀ l : List ℤ, (∀ x ∈ l, 3 ≤ x) → ∀ x ∈ l ++ [k], 3 ≤ x := fun l hl x hx => by
    rcases List.mem_append.mp hx with hx | hx
    · exact hl x hx
    · rwa [List.mem_singleton.mp hx]
  cases h with
  | alone h1 hl => exact .alone h1 (hmem _ hl)
  | both h1 hl => exact .both h1 (hmem _ hl)
  | either h1 hr hl => exact .either h1 hr (hmem _ hl)
  | neither hl => exact .neither (hmem _ hl)

/-- Erasing by number and by value is the same where numbers and values agree. -/
theorem erase_large {f : ℤ → ℤ} {m : List ℤ} (h3 : ∀ k ∈ m, 3 ≤ k)
    (hf : ∀ k ∈ m, 3 ≤ k → f k = k) (hb : b ∈ m) : f b = b ∧ 3 ≤ b ∧
      (m.eraseP fun k => f k = f b) = m.erase b ∧ ∀ k ∈ m.erase b, 3 ≤ k := by
  have hval : ∀ k ∈ m, f k = k := fun k hk => hf k hk (h3 k hk)
  refine ⟨hval b hb, h3 b hb, eraseP_eq_erase fun k hk => ?_, fun k hk => ?_⟩
  · rw [hval k hk, hval b hb]
  · exact h3 k (List.mem_of_mem_erase hk)

/-- Erasing by number in the one, by value in the other. Where 1 or 2 goes first, its
place is taken by 1. -/
theorem Paired.erase {f : ℤ → ℤ} (h : Paired one l l') (hone : one → f 1 = 1) (htwo : f 2 = 1)
    (hval : ∀ k ∈ l, 3 ≤ k → f k = k) (hb : b ∈ l) :
    Paired one (l.erase b) (l'.eraseP fun k => f k = f b) := by
  cases h with
  | @alone m h1 h3 =>
    rcases List.mem_cons.mp hb with rfl | hb
    · simpa using .neither h3
    · obtain ⟨hfb, hb3, herase, h3'⟩ := erase_large h3 (fun k hk => hval k (by simp [hk])) hb
      rw [List.erase_cons_tail (by simp; omega), List.eraseP_cons_of_neg (by simp; omega), herase]
      exact .alone h1 h3'
  | @both m h1 h3 =>
    rcases List.mem_cons.mp hb with rfl | hb
    · rw [List.erase_cons_head, List.eraseP_cons_of_pos (by simp [htwo, hone h1])]
      exact .either h1 (Or.inr rfl) h3
    rcases List.mem_cons.mp hb with rfl | hb
    · rw [List.eraseP_cons_of_pos (by simp)]
      simpa using .either h1 (Or.inl rfl) h3
    · obtain ⟨hfb, hb3, herase, h3'⟩ := erase_large h3 (fun k hk => hval k (by simp [hk])) hb
      rw [List.erase_cons_tail (by simp; omega), List.erase_cons_tail (by simp; omega),
        List.eraseP_cons_of_neg (by simp; omega),
        List.eraseP_cons_of_neg (by have := hone h1; simp; omega), herase]
      exact .both h1 h3'
  | @either r m h1 hr h3 =>
    rcases List.mem_cons.mp hb with rfl | hb
    · have hfb : f 1 = f b := by
        rcases hr with rfl | rfl
        · rfl
        · rw [hone h1, htwo]
      rw [List.erase_cons_head, List.eraseP_cons_of_pos (by simp [hfb])]
      exact .neither h3
    · obtain ⟨hfb, hb3, herase, h3'⟩ := erase_large h3 (fun k hk => hval k (by simp [hk])) hb
      rw [List.erase_cons_tail (by simp; omega),
        List.eraseP_cons_of_neg (by have := hone h1; simp; omega), herase]
      exact .either h1 hr h3'
  | neither h3 =>
    obtain ⟨-, -, herase, h3'⟩ := erase_large h3 hval hb
    rw [herase]
    exact .neither h3'

/-- `find` of a new number. -/
theorem Twin.find (h : Twin A B) (hk : 3 ≤ k) (hnone : A.leader k = none) :
    Twin (A.find k) (B.find k) := by
  have hB : B.leader k = none := by rw [h.leader, hnone]
  have hone : ((A.find k).leader 1).isSome ↔ (A.leader 1).isSome := by
    rw [find_isSome]
    exact or_iff_left (by omega)
  refine ⟨?_, fun h1 => ?_, ?_, fun x hx hs => ?_, ?_⟩
  · funext x
    rw [leader_find, leader_find, head, head, h.leader]
  · rw [value_find, hB]
    have hne : (1 : ℤ) ≠ k := by omega
    simpa [hne] using h.one (hone.mp h1)
  · rw [value_find, hB]
    have hne : (2 : ℤ) ≠ k := by omega
    simpa [hne] using h.two
  · rw [value_find, hB]
    by_cases hxk : x = k
    · simp [hxk]
    · simpa [hxk] using h.value x hx (((find_isSome A k x).mp hs).resolve_right hxk)
  · rw [collection_find, collection_find, hnone, hB]
    simp only [hone]
    exact h.collection.append hk

/-- `Union` of numbers that are there. -/
theorem Twin.union (h : Twin A B) (hA : Plain first next A) (ha : (A.leader a).isSome)
    (hb : (A.leader b).isSome) : Twin (A.Union a b) (B.Union a b) := by
  have haB : (B.leader a).isSome := by rwa [h.leader]
  have hbB : (B.leader b).isSome := by rwa [h.leader]
  have hhead : B.head = A.head := by
    funext x
    rw [head, head, h.leader]
  have hsome : ∀ k, ((A.Union a b).leader k).isSome ↔ (A.leader k).isSome := fun k => by
    rw [leader_union ha hb]
    split_ifs with hk <;> simp [hk]
  refine ⟨?_, fun h1 => ?_, ?_, fun x hx hs => ?_, ?_⟩
  · funext x
    rw [leader_union ha hb, leader_union haB hbB, hhead, h.leader]
  · rw [value_union haB hbB]
    exact h.one ((hsome 1).mp h1)
  · rw [value_union haB hbB]
    exact h.two
  · rw [value_union haB hbB]
    exact h.value x hx ((hsome x).mp hs)
  · rw [hA.collection_union ha hb, collection_union haB hbB, hhead]
    simp only [hsome]
    split_ifs
    · exact h.collection
    exact h.collection.erase h.one h.two (fun k hk h3 => h.value k h3 (A.known k hk))
      (hA.head_mem hb)

theorem union_self (ha : (c.leader a).isSome) : c.Union a a = c := by
  unfold Union
  rw [if_pos rfl, find_known ha, find_known ha]

theorem orderly_first (h : Orderly first first qs) : qs = [] := by
  cases h with
  | nil => rfl
  | find h =>
    have := h.le
    omega
  | union _ _ _ _ _ => omega

/-- The first call of a picture with a dark corner, on both charts. -/
theorem twin_find_one : Twin ((empty.find 1).find 2) (full.find 1) where
  leader := by
    funext x
    have h1 : full.leader = (empty.find 2).leader := rfl
    simp only [leader_find, h1, head]
    by_cases hx1 : x = 1
    · simp [hx1, empty]
    · by_cases hx2 : x = 2 <;> simp [hx1, hx2, empty]
  one _ := rfl
  two := rfl
  value k h3 hk := by
    simp only [find_isSome] at hk
    rcases hk with (hk | hk) | hk
    · cases hk
    · omega
    · omega
  collection := .both rfl (by simp)

/-- The calls of a picture on a new chart to which 2 was added, and on the chart left
over. -/
theorem twin_calls (h : Orderly first next qs) (hfirst : first = 1 ∨ first = 2) :
    Twin ((qs.foldl call empty).find 2) (qs.foldl call full) := by
  induction h with
  | nil =>
    refine ⟨rfl, fun _ => rfl, rfl, fun k h3 hk => ?_, .alone (by decide) (by simp)⟩
    rcases (find_isSome _ _ _).mp hk with hk | hk
    · cases hk
    · omega
  | @find next qs h ih =>
    rw [List.foldl_append, List.foldl_append]
    change Twin (((qs.foldl call empty).find next).find 2) ((qs.foldl call full).find next)
    have hle := h.le
    by_cases h3 : 3 ≤ next
    · have h2 : ((qs.foldl call empty).leader 2).isSome := calls_isSome h (by omega) (by omega)
      rw [find_known h2] at ih
      rw [find_known ((find_isSome _ _ _).mpr (Or.inl h2))]
      exact ih.find h3 ((plain_calls h).unknown (by omega))
    by_cases h2 : next = 2
    · subst h2
      have hB : ((qs.foldl call full).leader 2).isSome := by
        rw [ih.leader, find_isSome]
        exact Or.inr rfl
      rwa [find_known ((find_isSome _ _ _).mpr (Or.inr rfl)), find_known hB]
    · obtain rfl : next = first := by omega
      obtain rfl : next = 1 := by omega
      rw [orderly_first h]
      exact twin_find_one
  | @union next a b qs h h1 h2 h3 h4 ih =>
    rw [List.foldl_append, List.foldl_append]
    change Twin (((qs.foldl call empty).Union a b).find 2) ((qs.foldl call full).Union a b)
    have ha : ((qs.foldl call empty).leader a).isSome := calls_isSome h h1 h2
    have hb : ((qs.foldl call empty).leader b).isSome := calls_isSome h h3 h4
    by_cases h5 : 3 ≤ next
    · have hA : ((qs.foldl call empty).leader 2).isSome := calls_isSome h (by omega) (by omega)
      rw [find_known hA] at ih
      have hA' : (((qs.foldl call empty).Union a b).leader 2).isSome :=
        isSome_call (.Union a b) hA
      rw [find_known hA']
      exact ih.union (plain_calls h) ha hb
    · obtain rfl : a = b := by omega
      have haB : ((qs.foldl call full).leader a).isSome := calls_isSome h h1 h2
      rwa [union_self ha, union_self haB]

/-- With 1 and 2 both roots, the order of the two differs. -/
theorem Twin.final_one (h : Twin A B) (hA : Plain first next A) (h1 : A.leader 1 = some 1)
    (h2 : A.leader 2 = some 2) : A.number.final 1 = 1 ∧ B.number.final 1 = 2 := by
  have hm1 := (hA.roots 1).mpr h1
  have hm2 := (hA.roots 2).mpr h2
  have hB : B.leader 1 = some 1 := by rw [h.leader, h1]
  have hp := h.collection
  generalize hcA : A.collection = cA at hp hm1 hm2
  generalize hcB : B.collection = cB at hp
  cases hp with
  | alone hone => simp [h1] at hone
  | both _ h3 =>
    constructor
    · rw [final_of_mem h1 (by simp [hcA]), hcA]
      simp
    · rw [final_of_mem hB (by simp [hcB]), hcB]
      rfl
  | either _ hr h3 =>
    have hne : ∀ k : ℤ, k < 3 → k ∉ _ := fun k hk hm => by
      have := h3 k hm
      omega
    have hr1 := (List.mem_cons.mp hm1).resolve_right (hne 1 (by norm_num))
    have hr2 := (List.mem_cons.mp hm2).resolve_right (hne 2 (by norm_num))
    omega
  | neither h3 =>
    have := h3 1 hm1
    omega

/-- Otherwise the final labels are the same. -/
theorem Twin.final (h : Twin A B) (hA : Plain first next A) (hfirst : 0 < first)
    (hk : k = -1 ∨ (A.leader k).isSome) (hnot : ¬ (A.leader 1 = some 1 ∧ A.leader 2 = some 2)) :
    B.number.final k = A.number.final k := by
  rcases hk with rfl | hk
  · have hnone : A.leader (-1) = none := hA.unknown (by omega)
    rw [final_unknown hnone (by norm_num), final_unknown (by rw [h.leader, hnone]) (by norm_num)]
  have hlead := leader_head hk
  have hlead' : B.leader k = some (A.head k) := by rw [h.leader, hlead]
  have hmem := hA.head_mem hk
  have hsame : A.head k ∈ B.collection →
      B.collection.idxOf (A.head k) = A.collection.idxOf (A.head k) →
      B.number.final k = A.number.final k := fun hB hidx => by
    rw [final_of_mem hlead hmem, final_of_mem hlead' hB, hidx]
  have hp := h.collection
  generalize hcA : A.collection = cA at hp hmem hsame
  generalize hcB : B.collection = cB at hp hsame
  cases hp with
  | alone => exact hsame hmem rfl
  | both =>
    exact absurd ⟨(hA.roots 1).mp (by simp [hcA]), (hA.roots 2).mp (by simp [hcA])⟩ hnot
  | @either r l hone hr h3 =>
    rcases List.mem_cons.mp hmem with hhead | hhead
    · rcases hr with rfl | rfl
      · exact hsame (by simp [hhead]) rfl
      · -- the root 2 has left the collection, and keeps the value 1
        have hout : (2 : ℤ) ∉ 1 :: l := fun h2 => by
          have := h3 2 ((List.mem_cons.mp h2).resolve_left (by norm_num))
          omega
        have hreply : B.number.reply k = 1 := by
          simp only [reply, number, hlead', hhead, hcB, if_neg hout, h.two]
        rw [Chart.final, hreply, final_of_mem hlead (by simp [hcA, hhead]), hcA, hhead]
        simp
    · have := h3 _ hhead
      apply hsame (by simp [hhead])
      rw [List.idxOf_cons_ne _ (by omega), List.idxOf_cons_ne _ (by omega)]
  | neither => exact hsame hmem rfl

/-- Adding 2 to the chart of a picture. -/
theorem plain_find_two (h : Orderly first next qs) (hfirst : first = 1 ∨ first = 2) :
    ∃ m n, 0 < m ∧ Plain m n ((qs.foldl call empty).find 2) := by
  have hle := h.le
  by_cases h3 : 3 ≤ next
  · rw [find_known (calls_isSome h (by omega) (by omega))]
    exact ⟨first, next, by omega, plain_calls h⟩
  by_cases h2 : next = 2
  · subst h2
    exact ⟨first, 3, by omega, (plain_calls h).find hle⟩
  · obtain rfl : next = first := by omega
    rw [orderly_first h]
    have horderly : Orderly 2 (2 + 1) ([] ++ [.find 2]) := .find .nil
    exact ⟨2, 2 + 1, by norm_num, plain_calls horderly⟩

/-- It changes no final label of the picture. -/
theorem final_find_two (h : Orderly first next qs) (hfirst : 0 < first)
    (hk : k = -1 ∨ ((qs.foldl call empty).leader k).isSome) :
    ((qs.foldl call empty).find 2).number.final k = (qs.foldl call empty).number.final k := by
  have hplain := plain_calls h
  cases h2 : (qs.foldl call empty).leader 2 with
  | some r => rw [find_known (by simp [h2])]
  | none =>
    rcases hk with rfl | hk
    · have hnone : (qs.foldl call empty).leader (-1) = none := hplain.unknown (by omega)
      rw [final_unknown hnone (by norm_num), final_unknown _ (by norm_num)]
      rw [leader_find, if_neg (by norm_num), hnone]
    · exact hplain.final_find hk h2

theorem leader_find_two (A : Chart) :
    (A.find 2).leader 1 = A.leader 1 ∧ (A.find 2).leader 2 = some (A.head 2) := by
  rw [leader_find, leader_find, if_neg (by norm_num), if_pos rfl]
  exact ⟨rfl, rfl⟩

/-- The labels of a picture on the chart left over are those on a new chart, unless 1 and
2 are both roots at the end. -/
theorem full_final (h : Orderly first next qs) (hfirst : first = 1 ∨ first = 2)
    (hroots : (qs.foldl call empty).leader 1 = some 1 → (qs.foldl call empty).head 2 ≠ 2)
    (hk : k = -1 ∨ (first ≤ k ∧ k < next)) :
    (qs.foldl call full).number.final k = (qs.foldl call empty).number.final k := by
  obtain ⟨m, n, hm, hfind⟩ := plain_find_two h hfirst
  obtain ⟨h1, h2⟩ := leader_find_two (qs.foldl call empty)
  have hk' : k = -1 ∨ ((qs.foldl call empty).leader k).isSome :=
    hk.imp id ((plain_calls h).isSome k).mpr
  rw [← final_find_two h (by omega) hk']
  apply (twin_calls h hfirst).final hfind hm
  · exact hk'.imp id fun hs => (find_isSome _ _ _).mpr (Or.inl hs)
  · rw [h1, h2]
    rintro ⟨hone, htwo⟩
    exact hroots hone (Option.some.inj htwo)

/-- With 1 and 2 both roots, or 1 alone, the label 1 differs. -/
theorem full_final_ne (h : Orderly first next qs) (hfirst : first = 1 ∨ first = 2)
    (hone : (qs.foldl call empty).leader 1 = some 1) (htwo : (qs.foldl call empty).head 2 = 2) :
    (qs.foldl call full).number.final 1 ≠ (qs.foldl call empty).number.final 1 := by
  obtain ⟨m, n, hm, hfind⟩ := plain_find_two h hfirst
  obtain ⟨h1, h2⟩ := leader_find_two (qs.foldl call empty)
  obtain ⟨hA, hB⟩ := (twin_calls h hfirst).final_one hfind (h1.trans hone) (by rw [h2, htwo])
  rw [hB, ← final_find_two h (by omega) (Or.inr (by simp [hone])), hA]
  norm_num

end Twin

end SchoolProjects.Vision.Chart
