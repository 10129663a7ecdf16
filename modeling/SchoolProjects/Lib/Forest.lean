import Mathlib.Tactic

/-! Forests given by a parent function, and the equivalence closure of a list of
pairs. The two operations of a union-find structure keep every node below a root:
redirecting a node to its own root changes no root, and putting one root below
another merges the trees of the two. Lists of children that are only added to agree with
the parents until a node with a parent gets another one, and never again after that. -/

namespace SchoolProjects.Forest

variable {α : Type*}

/-! ### Roots -/

/-- `n` steps along `parent` lead from `a` to the root `r`. -/
inductive Up (parent : α → Option α) : ℕ → α → α → Prop
  | root {a : α} : parent a = none → Up parent 0 a a
  | step {n : ℕ} {a p r : α} : parent a = some p → Up parent n p r → Up parent (n + 1) a r

def RootOf (parent : α → Option α) (a r : α) : Prop := ∃ n, Up parent n a r

variable {parent : α → Option α} {a b p r s : α} {m n : ℕ}

theorem Up.parent_root (h : Up parent n a r) : parent r = none := by
  induction h with
  | root h => exact h
  | step _ _ ih => exact ih

/-- A node has one root, at one distance. -/
theorem Up.unique (h : Up parent n a r) (h' : Up parent m a s) : n = m ∧ r = s := by
  induction h generalizing m with
  | root h =>
    cases h' with
    | root => exact ⟨rfl, rfl⟩
    | step hp _ => simp [h] at hp
  | step hp _ ih =>
    cases h' with
    | root h => simp [hp] at h
    | step hp' h' =>
      obtain rfl := Option.some.inj (hp.symm.trans hp')
      obtain ⟨rfl, rfl⟩ := ih h'
      exact ⟨rfl, rfl⟩

theorem RootOf.unique (h : RootOf parent a r) (h' : RootOf parent a s) : r = s := by
  obtain ⟨n, h⟩ := h
  obtain ⟨m, h'⟩ := h'
  exact (h.unique h').2

theorem RootOf.parent_root (h : RootOf parent a r) : parent r = none := by
  obtain ⟨n, h⟩ := h
  exact h.parent_root

theorem rootOf_self (h : parent a = none) : RootOf parent a a := ⟨0, .root h⟩

theorem RootOf.step (hp : parent a = some p) (h : RootOf parent p r) : RootOf parent a r := by
  obtain ⟨n, h⟩ := h
  exact ⟨n + 1, .step hp h⟩

theorem rootOf_root (h : parent a = none) : RootOf parent a r ↔ r = a :=
  ⟨fun hr => hr.unique (rootOf_self h), by rintro rfl; exact rootOf_self h⟩

/-- The nodes passed on the way to the root are distinct. -/
theorem Up.path (h : Up parent n a r) :
    ∃ l : List α, l.length = n ∧ l.Nodup ∧
      ∀ x ∈ l, parent x ≠ none ∧ ∃ m ≤ n, Up parent m x r := by
  induction h with
  | root => exact ⟨[], rfl, List.nodup_nil, by simp⟩
  | @step n a p r hp h ih =>
    obtain ⟨l, hlen, hnd, hl⟩ := ih
    refine ⟨a :: l, by simp [hlen], List.nodup_cons.mpr ⟨fun ha => ?_, hnd⟩, fun x hx => ?_⟩
    · obtain ⟨-, m, hm, hup⟩ := hl a ha
      have := (hup.unique (.step hp h)).1
      omega
    · rcases List.mem_cons.mp hx with rfl | hx
      · exact ⟨by simp [hp], n + 1, le_rfl, .step hp h⟩
      · obtain ⟨hne, m, hm, hup⟩ := hl x hx
        exact ⟨hne, m, by omega, hup⟩

/-! ### Changing the forest -/

section Update

variable {parent' : α → Option α}

/-- Redirecting a node to its root leaves all roots as they are. -/
theorem rootOf_compress (hr : RootOf parent b r) (hb : parent b ≠ none)
    (hb' : parent' b = some r) (hk : ∀ x, x ≠ b → parent' x = parent x) :
    RootOf parent' a s ↔ RootOf parent a s := by
  have hrb : r ≠ b := by
    rintro rfl
    exact hb hr.parent_root
  have hr' : RootOf parent' r r := rootOf_self ((hk r hrb).trans hr.parent_root)
  have hdown : ∀ {x y}, RootOf parent x y → RootOf parent' x y := by
    rintro x y ⟨n, h⟩
    induction h with
    | @root x h =>
      refine rootOf_self ((hk x ?_).trans h)
      rintro rfl
      exact hb h
    | @step n x p y hp h ih =>
      by_cases hx : x = b
      · subst hx
        obtain rfl := hr.unique ⟨n + 1, .step hp h⟩
        exact hr'.step hb'
      · exact ih.step ((hk x hx).trans hp)
  refine ⟨?_, hdown⟩
  rintro ⟨n, h⟩
  induction h with
  | @root x h =>
    have hx : x ≠ b := by
      rintro rfl
      simp [hb'] at h
    exact rootOf_self ((hk x hx).symm.trans h)
  | @step n x p y hp h ih =>
    by_cases hx : x = b
    · subst hx
      obtain rfl := Option.some.inj (hb'.symm.trans hp)
      obtain rfl := ih.unique (rootOf_self hr.parent_root)
      exact hr
    · exact ih.step ((hk x hx).symm.trans hp)

/-- Putting the root `b` below the root `a` sends the tree of `b` to `a`. -/
theorem rootOf_link (ha : parent a = none) (hb : parent b = none) (hab : a ≠ b)
    (hb' : parent' b = some a) (hk : ∀ x, x ≠ b → parent' x = parent x) {x y : α} :
    RootOf parent' x y ↔ (RootOf parent x y ∧ y ≠ b) ∨ (RootOf parent x b ∧ y = a) := by
  have ha' : RootOf parent' a a := rootOf_self ((hk a hab).trans ha)
  have hup : ∀ {x y}, RootOf parent x y → (y ≠ b → RootOf parent' x y) ∧
      (y = b → RootOf parent' x a) := by
    rintro x y ⟨n, h⟩
    induction h with
    | @root x h =>
      refine ⟨fun hx => rootOf_self ((hk x hx).trans h), ?_⟩
      rintro rfl
      exact ha'.step hb'
    | @step n x p y hp h ih =>
      have hx : x ≠ b := by
        rintro rfl
        simp [hb] at hp
      exact ih.imp (fun ih hy => (ih hy).step ((hk x hx).trans hp))
        fun ih hy => (ih hy).step ((hk x hx).trans hp)
  constructor
  · rintro ⟨n, h⟩
    induction h with
    | @root x h =>
      have hx : x ≠ b := by
        rintro rfl
        simp [hb'] at h
      exact Or.inl ⟨rootOf_self ((hk x hx).symm.trans h), hx⟩
    | @step n x p y hp h ih =>
      by_cases hx : x = b
      · subst hx
        obtain rfl := Option.some.inj (hb'.symm.trans hp)
        exact Or.inr ⟨rootOf_self hb, RootOf.unique ⟨n, h⟩ ha'⟩
      · have hp' := (hk x hx).symm.trans hp
        exact ih.imp (fun h => ⟨h.1.step hp', h.2⟩) fun h => ⟨h.1.step hp', h.2⟩
  · rintro (⟨h, hy⟩ | ⟨h, rfl⟩)
    · exact (hup h).1 hy
    · exact (hup h).2 rfl

end Update

/-! ### Lists of children -/

section Children

variable [DecidableEq α] {children : α → List α}

/-- Every node is once in the list of its parent, and in no other list. -/
def Mirrors (parent : α → Option α) (children : α → List α) : Prop :=
  ∀ m n, (children m).count n = if parent n = some m then 1 else 0

/-- A node is still in the list of a node that was its parent. -/
def Stale (parent : α → Option α) (children : α → List α) : Prop :=
  ∃ n m, n ∈ children m ∧ parent m ≠ none ∧ parent n ≠ none ∧ parent n ≠ some m

/-- Put `n` at the end of the list of `r`. -/
def attach (children : α → List α) (r n : α) : α → List α :=
  Function.update children r (children r ++ [n])

theorem attach_self (children : α → List α) (r n : α) :
    attach children r n r = children r ++ [n] := Function.update_self ..

theorem attach_ne (children : α → List α) (n : α) (h : a ≠ r) :
    attach children r n a = children a := Function.update_of_ne h ..

theorem mem_attach {x : α} (h : x ∈ children a) (r n : α) : x ∈ attach children r n a := by
  by_cases har : a = r
  · subst har
    rw [attach_self]
    exact List.mem_append_left _ h
  · rwa [attach_ne _ _ har]

theorem Stale.not_mirrors (h : Stale parent children) : ¬ Mirrors parent children := by
  obtain ⟨n, m, hmem, -, -, hne⟩ := h
  intro hm
  have hcount := hm m n
  rw [if_neg hne] at hcount
  exact List.count_eq_zero.mp hcount hmem

/-- A root gets a parent. -/
theorem Mirrors.attach {b : α} (h : Mirrors parent children) (hb : parent b = none) (r : α) :
    Mirrors (Function.update parent b (some r)) (attach children r b) := by
  have hnew : ∀ m, (children m).count b = 0 := by
    intro m
    rw [h m b, hb, if_neg (by simp)]
  intro m n
  have hold := h m n
  by_cases hn : n = b
  · subst hn
    rw [Function.update_self]
    by_cases hm : m = r
    · subst hm
      rw [attach_self, List.count_append, hnew]
      simp
    · rw [attach_ne _ _ hm, hnew, if_neg fun hrm => hm (Option.some.inj hrm).symm]
  · rw [Function.update_of_ne hn, ← hold]
    by_cases hm : m = r
    · subst hm
      rw [attach_self, List.count_append, List.count_singleton]
      simp [Ne.symm hn]
    · rw [attach_ne _ _ hm]

/-- A node gets another parent, and stays in the list of the one that it had. -/
theorem Mirrors.stale {b : α} (h : Mirrors parent children) (hb : parent b = some p)
    (hp : parent p ≠ none) (hpr : p ≠ r) :
    Stale (Function.update parent b (some r)) (Forest.attach children r b) := by
  have hmem : b ∈ children p := by
    rw [← List.count_pos_iff, h p b, if_pos hb]
    exact Nat.one_pos
  refine ⟨b, p, mem_attach hmem r b, ?_, ?_, ?_⟩
  · by_cases hpb : p = b
    · simp [hpb]
    · rwa [Function.update_of_ne hpb]
  · simp
  · rw [Function.update_self]
    exact fun hrp => hpr (Option.some.inj hrp).symm

/-- What a list has too many stays in it, as only roots get further children. -/
theorem Stale.attach (h : Stale parent children) (hr : parent r = none) (b : α) :
    Stale (Function.update parent b (some r)) (Forest.attach children r b) := by
  obtain ⟨n, m, hmem, hm, hn, hne⟩ := h
  have hmr : r ≠ m := by
    rintro rfl
    exact hm hr
  have hkeep : ∀ x, parent x ≠ none → Function.update parent b (some r) x ≠ none := by
    intro x hx
    by_cases hxb : x = b
    · simp [hxb]
    · rwa [Function.update_of_ne hxb]
  refine ⟨n, m, mem_attach hmem r b, hkeep m hm, hkeep n hn, ?_⟩
  by_cases hnb : n = b
  · subst hnb
    rw [Function.update_self]
    exact fun hrm => hmr (Option.some.inj hrm)
  · rwa [Function.update_of_ne hnb]

end Children

/-! ### The equivalence generated by a list of pairs -/

/-- The least equivalence that relates the two members of every pair. -/
def Related (pairs : List (α × α)) : α → α → Prop := Relation.EqvGen fun a b => (a, b) ∈ pairs

section Related

variable {pairs : List (α × α)} {c d u v : α}

theorem Related.refl (pairs : List (α × α)) (a : α) : Related pairs a a :=
  Relation.EqvGen.refl a

theorem Related.symm (h : Related pairs a b) : Related pairs b a := Relation.EqvGen.symm _ _ h

theorem Related.trans (h : Related pairs a b) (h' : Related pairs b c) : Related pairs a c :=
  Relation.EqvGen.trans _ _ _ h h'

theorem Related.of_mem (h : (a, b) ∈ pairs) : Related pairs a b := .rel a b h

theorem Related.mono {pairs' : List (α × α)} (h : Related pairs a b)
    (hs : ∀ q ∈ pairs, q ∈ pairs') : Related pairs' a b :=
  Relation.EqvGen.mono (fun _ _ h => hs _ h) _ _ h

/-- One more pair joins the classes of its two members. -/
theorem related_concat : Related (pairs ++ [(u, v)]) a b ↔ Related pairs a b ∨
    (Related pairs a u ∧ Related pairs v b) ∨ (Related pairs a v ∧ Related pairs u b) := by
  constructor
  · intro h
    induction h with
    | rel a b h =>
      rcases List.mem_append.mp h with h | h
      · exact Or.inl (.of_mem h)
      · obtain ⟨rfl, rfl⟩ : a = u ∧ b = v := by simpa using h
        exact Or.inr (Or.inl ⟨.refl _ _, .refl _ _⟩)
    | refl a => exact Or.inl (.refl _ a)
    | symm a b _ ih =>
      rcases ih with h | ⟨h, h'⟩ | ⟨h, h'⟩
      · exact Or.inl h.symm
      · exact Or.inr (Or.inr ⟨h'.symm, h.symm⟩)
      · exact Or.inr (Or.inl ⟨h'.symm, h.symm⟩)
    | trans a b c _ _ ih ih' =>
      rcases ih with h | ⟨h, h'⟩ | ⟨h, h'⟩ <;> rcases ih' with k | ⟨k, k'⟩ | ⟨k, k'⟩
      · exact Or.inl (h.trans k)
      · exact Or.inr (Or.inl ⟨h.trans k, k'⟩)
      · exact Or.inr (Or.inr ⟨h.trans k, k'⟩)
      · exact Or.inr (Or.inl ⟨h, h'.trans k⟩)
      · exact Or.inr (Or.inl ⟨h, k'⟩)
      · exact Or.inl (h.trans k')
      · exact Or.inr (Or.inr ⟨h, h'.trans k⟩)
      · exact Or.inl (h.trans k')
      · exact Or.inr (Or.inr ⟨h, k'⟩)
  · have hmono : ∀ {x y}, Related pairs x y → Related (pairs ++ [(u, v)]) x y := fun h =>
      h.mono fun q hq => List.mem_append_left _ hq
    have huv : Related (pairs ++ [(u, v)]) u v := .of_mem (by simp)
    rintro (h | ⟨h, h'⟩ | ⟨h, h'⟩)
    · exact hmono h
    · exact ((hmono h).trans huv).trans (hmono h')
    · exact ((hmono h).trans huv.symm).trans (hmono h')

/-- Only members of pairs are related to anything else. -/
theorem Related.eq_of_not_mem (h : Related pairs a b)
    (ha : ∀ q ∈ pairs, q.1 ≠ a ∧ q.2 ≠ a) : a = b := by
  have hiff : ∀ {x y}, Related pairs x y → (x = a ↔ y = a) := by
    intro x y h
    induction h with
    | rel x y h => exact iff_of_false (ha _ h).1 (ha _ h).2
    | refl => rfl
    | symm _ _ _ ih => exact ih.symm
    | trans _ _ _ _ _ ih ih' => exact ih.trans ih'
  exact ((hiff h).mp rfl).symm

end Related

end SchoolProjects.Forest
