import SchoolProjects.NameTree.Morris

/-! A place in a tree in memory. What is above and beside a subtree is a tree with a hole, and
the pointer that leads into the hole is what a reference `BSTNode<T>*&` stands for. An
assignment through it exchanges the subtree and touches no other node. The nodes of a tree are
labelled with their addresses and names. -/

namespace SchoolProjects.NameTree

variable {α β γ : Type*}

/-- The same tree with other labels. -/
def BST.map (f : β → γ) : BST β → BST γ
  | .null => .null
  | .node x l r => .node (f x) (BST.map f l) (BST.map f r)

@[simp] theorem BST.inorder_map (f : β → γ) (t : BST β) :
    BST.inorder (BST.map f t) = (BST.inorder t).map f := by
  induction t with
  | null => rfl
  | node x l r ihl ihr => simp [BST.map, ihl, ihr]

/-! ### A tree with a hole -/

/-- The way up from a hole, with the subtrees beside it. -/
inductive Place (β : Type*)
  | top
  | left (up : Place β) (x : β) (right : BST β)
  | right (up : Place β) (x : β) (left : BST β)

namespace Place

/-- The tree with `t` in the hole. -/
def fill : Place β → BST β → BST β
  | top, t => t
  | left up x r, t => up.fill (.node x t r)
  | right up x l, t => up.fill (.node x l t)

def map (f : β → γ) : Place β → Place γ
  | top => top
  | left up x r => left (up.map f) (f x) (BST.map f r)
  | right up x l => right (up.map f) (f x) (BST.map f l)

/-- The labels outside the hole. -/
def labels : Place β → List β
  | top => []
  | left up x r => x :: (BST.inorder r ++ up.labels)
  | right up x l => x :: (BST.inorder l ++ up.labels)

theorem map_fill (f : β → γ) (P : Place β) (t : BST β) :
    BST.map f (P.fill t) = (P.map f).fill (BST.map f t) := by
  induction P generalizing t with
  | top => rfl
  | left up x r ih => exact ih _
  | right up x l ih => exact ih _

theorem inorder_fill_perm (P : Place β) (t : BST β) :
    (BST.inorder (P.fill t)).Perm (BST.inorder t ++ P.labels) := by
  induction P generalizing t with
  | top => simp [fill, labels]
  | left up x r ih =>
    refine (ih _).trans ?_
    simp [labels]
  | right up x l ih =>
    refine (ih _).trans ?_
    rw [BST.inorder_node, labels, List.append_assoc, List.cons_append]
    exact List.perm_middle.trans (((List.perm_append_comm_assoc _ _ _).cons x).trans
      List.perm_middle.symm)

end Place

/-! ### The object in memory -/

/-- An object of the class `BST`: the nodes in memory and the member `root`. -/
structure TreeState (α : Type*) where
  heap : Heap (BSTNode α)
  root : Option ℕ

/-- What a reference `BSTNode<T>*&` can stand for. -/
inductive Slot
  | root
  | left (a : ℕ)
  | right (a : ℕ)

/-- `a->left = p`. -/
def setLeft (h : Heap (BSTNode α)) (a : ℕ) (p : Option ℕ) : Option (Heap (BSTNode α)) :=
  h.modify a fun x => { x with left := p }

namespace TreeState

def load (s : TreeState α) : Slot → Option (Option ℕ)
  | .root => some s.root
  | .left a => (s.heap.read a).map BSTNode.left
  | .right a => (s.heap.read a).map BSTNode.right

def store (s : TreeState α) (node : Slot) (p : Option ℕ) : Option (TreeState α) :=
  match node with
  | .root => some { s with root := p }
  | .left a => (setLeft s.heap a p).map fun heap => { s with heap := heap }
  | .right a => (setRight s.heap a p).map fun heap => { s with heap := heap }

/-- `delete`. -/
def free (s : TreeState α) (a : ℕ) : Option (TreeState α) :=
  (s.heap.free a).map fun heap => { s with heap := heap }

end TreeState

/-- The node of a place in the tree: its address and its name. -/
abbrev Cell (α : Type*) := ℕ × α

def addrs (t : BST (Cell α)) : List ℕ := (BST.inorder t).map Prod.fst

def Place.addrs (P : Place (Cell α)) : List ℕ := P.labels.map Prod.fst

/-- From the pointer one finds the nodes of the tree. -/
def Linked (h : Heap (BSTNode α)) : Option ℕ → BST (Cell α) → Prop
  | p, .null => p = none
  | p, .node c l r => p = some c.1 ∧ ∃ x, h.read c.1 = some x ∧ x.el = c.2 ∧
      Linked h x.left l ∧ Linked h x.right r

/-- From `root` one finds the nodes outside the hole, and in the hole the pointer `p`. -/
def Place.Linked (h : Heap (BSTNode α)) (root : Option ℕ) : Place (Cell α) → Option ℕ → Prop
  | .top, p => root = p
  | .left up c r, p => up.Linked h root (some c.1) ∧ ∃ x, h.read c.1 = some x ∧ x.el = c.2 ∧
      x.left = p ∧ NameTree.Linked h x.right r
  | .right up c l, p => up.Linked h root (some c.1) ∧ ∃ x, h.read c.1 = some x ∧ x.el = c.2 ∧
      NameTree.Linked h x.left l ∧ x.right = p

/-- The pointer into the hole. -/
def Place.slot : Place (Cell α) → Slot
  | .top => .root
  | .left _ c _ => .left c.1
  | .right _ c _ => .right c.1

/-- The node above the hole. -/
def Place.parent : Place (Cell α) → Option ℕ
  | .top => none
  | .left _ c _ => some c.1
  | .right _ c _ => some c.1

section Linked

variable {h h' : Heap (BSTNode α)} {root p q : Option ℕ} {P : Place (Cell α)} {t l r : BST (Cell α)}
  {c : Cell α} {a : ℕ} {s : TreeState α}

@[simp] theorem addrs_null : addrs (.null : BST (Cell α)) = [] := rfl

@[simp] theorem addrs_node : addrs (.node c l r) = addrs l ++ c.1 :: addrs r := by
  simp [addrs]

@[simp] theorem Place.addrs_top : (Place.top : Place (Cell α)).addrs = [] := rfl

@[simp] theorem Place.addrs_left :
    (Place.left P c r).addrs = c.1 :: (NameTree.addrs r ++ P.addrs) := by
  simp [Place.addrs, Place.labels, NameTree.addrs]

@[simp] theorem Place.addrs_right :
    (Place.right P c l).addrs = c.1 :: (NameTree.addrs l ++ P.addrs) := by
  simp [Place.addrs, Place.labels, NameTree.addrs]

theorem addrs_fill_perm (P : Place (Cell α)) (t : BST (Cell α)) :
    (addrs (P.fill t)).Perm (addrs t ++ P.addrs) := by
  rw [addrs, addrs, Place.addrs, ← List.map_append]
  exact (P.inorder_fill_perm t).map Prod.fst

theorem linked_fill : Linked h root (P.fill t) ↔ ∃ p, P.Linked h root p ∧ Linked h p t := by
  induction P generalizing t with
  | top => exact ⟨fun ht => ⟨root, rfl, ht⟩, fun ⟨_, hp, ht⟩ => hp ▸ ht⟩
  | left up c r ih =>
    rw [Place.fill, ih]
    constructor
    · rintro ⟨_, hup, rfl, x, hx, hel, hl, hr⟩
      exact ⟨x.left, ⟨hup, x, hx, hel, rfl, hr⟩, hl⟩
    · rintro ⟨_, ⟨hup, x, hx, hel, rfl, hr⟩, hl⟩
      exact ⟨_, hup, rfl, x, hx, hel, hl, hr⟩
  | right up c l ih =>
    rw [Place.fill, ih]
    constructor
    · rintro ⟨_, hup, rfl, x, hx, hel, hl, hr⟩
      exact ⟨x.right, ⟨hup, x, hx, hel, hl, rfl⟩, hr⟩
    · rintro ⟨_, ⟨hup, x, hx, hel, hl, rfl⟩, hr⟩
      exact ⟨_, hup, rfl, x, hx, hel, hl, hr⟩

/-- Only the nodes of the tree count. -/
theorem Linked.congr (ht : Linked h p t) (hread : ∀ a ∈ addrs t, h'.read a = h.read a) :
    Linked h' p t := by
  induction t generalizing p with
  | null => exact ht
  | node c l r ihl ihr =>
    obtain ⟨hp, x, hx, hel, hl, hr⟩ := ht
    exact ⟨hp, x, (hread c.1 (by simp)).trans hx, hel, ihl hl fun b hb => hread b (by simp [hb]),
      ihr hr fun b hb => hread b (by simp [hb])⟩

theorem Place.Linked.congr (hP : P.Linked h root p)
    (hread : ∀ a ∈ P.addrs, h'.read a = h.read a) : P.Linked h' root p := by
  induction P generalizing p with
  | top => exact hP
  | left up c r ih =>
    obtain ⟨hup, x, hx, hel, hl, hr⟩ := hP
    exact ⟨ih hup fun b hb => hread b (by simp [hb]), x, (hread c.1 (by simp)).trans hx, hel, hl,
      hr.congr fun b hb => hread b (by simp [hb])⟩
  | right up c l ih =>
    obtain ⟨hup, x, hx, hel, hl, hr⟩ := hP
    exact ⟨ih hup fun b hb => hread b (by simp [hb]), x, (hread c.1 (by simp)).trans hx, hel,
      hl.congr fun b hb => hread b (by simp [hb]), hr⟩

theorem Linked.read (ht : Linked h p t) (ha : a ∈ addrs t) : ∃ x, h.read a = some x := by
  induction t generalizing p with
  | null => simp at ha
  | node c l r ihl ihr =>
    obtain ⟨-, x, hx, -, hl, hr⟩ := ht
    rw [addrs_node, List.mem_append, List.mem_cons] at ha
    rcases ha with ha | rfl | ha
    · exact ihl hl ha
    · exact ⟨x, hx⟩
    · exact ihr hr ha

theorem Place.Linked.read (hP : P.Linked h root p) (ha : a ∈ P.addrs) : ∃ x, h.read a = some x := by
  induction P generalizing p with
  | top => simp at ha
  | left up c r ih =>
    obtain ⟨hup, x, hx, -, -, hr⟩ := hP
    rw [Place.addrs_left, List.mem_cons, List.mem_append] at ha
    rcases ha with rfl | ha | ha
    · exact ⟨x, hx⟩
    · exact hr.read ha
    · exact ih hup ha
  | right up c l ih =>
    obtain ⟨hup, x, hx, -, hl, -⟩ := hP
    rw [Place.addrs_right, List.mem_cons, List.mem_append] at ha
    rcases ha with rfl | ha | ha
    · exact ⟨x, hx⟩
    · exact hl.read ha
    · exact ih hup ha

theorem Place.Linked.load (hP : P.Linked s.heap s.root p) : s.load P.slot = some p := by
  cases P with
  | top => exact congrArg some hP
  | left up c r =>
    obtain ⟨-, x, hx, -, rfl, -⟩ := hP
    simp [Place.slot, TreeState.load, hx]
  | right up c l =>
    obtain ⟨-, x, hx, -, -, rfl⟩ := hP
    simp [Place.slot, TreeState.load, hx]

/-! ### Assignments -/

/-- The name that is found through a pointer. -/
def TreeState.name (s : TreeState α) (a : ℕ) : Option α := (s.heap.read a).map BSTNode.el

/-- What an assignment through the pointer into the hole leaves. -/
structure Stored (s : TreeState α) (P : Place (Cell α)) (q : Option ℕ) (s' : TreeState α) : Prop where
  place : P.Linked s'.heap s'.root q
  read : ∀ a ∉ P.addrs, s'.heap.read a = s.heap.read a
  name : ∀ a, s'.name a = s.name a

theorem Place.Linked.store (hP : P.Linked s.heap s.root p) (hnd : P.addrs.Nodup) (q : Option ℕ) :
    ∃ s', s.store P.slot q = some s' ∧ Stored s P q s' := by
  cases P with
  | top => exact ⟨{ s with root := q }, rfl, rfl, fun _ _ => rfl, fun _ => rfl⟩
  | left up c r =>
    obtain ⟨hup, x, hx, hel, -, hr⟩ := hP
    rw [Place.addrs_left, List.nodup_cons, List.mem_append, not_or] at hnd
    obtain ⟨⟨hcr, hcup⟩, -⟩ := hnd
    let heap := s.heap.put c.1 (some { x with left := q }) (Heap.lt_fresh hx)
    have hne (b : ℕ) (hb : b ≠ c.1) : heap.read b = s.heap.read b := by
      rw [Heap.read_put, if_neg hb]
    have hself : heap.read c.1 = some { x with left := q } := by rw [Heap.read_put, if_pos rfl]
    refine ⟨{ s with heap := heap }, ?_, ⟨?_, _, hself, hel, rfl, ?_⟩, fun b hb => ?_, fun b => ?_⟩
    · simp only [Place.slot, TreeState.store, setLeft, Heap.modify_of_read _ hx, Option.map_some]
      rfl
    · exact hup.congr fun b hb => hne b (ne_of_mem_of_not_mem hb hcup)
    · exact hr.congr fun b hb => hne b (ne_of_mem_of_not_mem hb hcr)
    · exact hne b fun h => hb (by simp [h])
    · by_cases hb : b = c.1
      · simp [TreeState.name, hb, hself, hx]
      · simp [TreeState.name, hne b hb]
  | right up c l =>
    obtain ⟨hup, x, hx, hel, hl, -⟩ := hP
    rw [Place.addrs_right, List.nodup_cons, List.mem_append, not_or] at hnd
    obtain ⟨⟨hcl, hcup⟩, -⟩ := hnd
    have hne (b : ℕ) (hb : b ≠ c.1) : (relinked s.heap hx q).read b = s.heap.read b :=
      read_relinked_ne hx q hb
    refine ⟨{ s with heap := relinked s.heap hx q }, ?_,
      ⟨?_, _, read_relinked_self hx q, hel, ?_, rfl⟩, fun b hb => ?_, fun b => ?_⟩
    · simp only [Place.slot, TreeState.store, setRight_eq hx, Option.map_some]
    · exact hup.congr fun b hb => hne b (ne_of_mem_of_not_mem hb hcup)
    · exact hl.congr fun b hb => hne b (ne_of_mem_of_not_mem hb hcl)
    · exact hne b fun h => hb (by simp [h])
    · by_cases hb : b = c.1
      · simp [TreeState.name, hb, read_relinked_self, hx]
      · simp [TreeState.name, hne b hb]

/-! ### The whole heap -/

/-- The nodes of the tree are all different, and all there is in the heap. -/
structure Owns (s : TreeState α) (t : BST (Cell α)) : Prop where
  linked : Linked s.heap s.root t
  nodup : (addrs t).Nodup
  only : ∀ a, (s.name a).isSome → a ∈ addrs t

/-- The same for the nodes outside the hole and those of the subtree in it. -/
structure Focused (s : TreeState α) (P : Place (Cell α)) (p : Option ℕ) (t : BST (Cell α)) :
    Prop where
  place : P.Linked s.heap s.root p
  linked : Linked s.heap p t
  nodup : (addrs t ++ P.addrs).Nodup
  only : ∀ a, (s.name a).isSome → a ∈ addrs t ++ P.addrs

theorem owns_fill : Owns s (P.fill t) ↔ ∃ p, Focused s P p t := by
  have hperm := addrs_fill_perm P t
  constructor
  · rintro ⟨hlinked, hnd, honly⟩
    obtain ⟨p, hP, ht⟩ := linked_fill.1 hlinked
    exact ⟨p, hP, ht, hperm.nodup_iff.1 hnd, fun a ha => hperm.mem_iff.1 (honly a ha)⟩
  · rintro ⟨p, hP, ht, hnd, honly⟩
    exact ⟨linked_fill.2 ⟨p, hP, ht⟩, hperm.nodup_iff.2 hnd, fun a ha => hperm.mem_iff.2 (honly a ha)⟩

theorem Focused.owns (h : Focused s P p t) : Owns s (P.fill t) := owns_fill.2 ⟨p, h⟩

theorem Owns.focused (h : Owns s t) : Focused s .top s.root t := by
  obtain ⟨p, hp⟩ := (owns_fill (P := .top)).1 h
  obtain rfl : s.root = p := hp.place
  exact hp

/-- Down to a child. -/
theorem Focused.down (h : Focused s P p (.node c l r)) : p = some c.1 ∧ ∃ x,
    s.heap.read c.1 = some x ∧ x.el = c.2 ∧ Focused s (P.left c r) x.left l ∧
      Focused s (P.right c l) x.right r := by
  obtain ⟨hP, ⟨rfl, x, hx, hel, hl, hr⟩, hnd, honly⟩ := h
  have hleft : (addrs (.node c l r) ++ P.addrs).Perm (addrs l ++ (P.left c r).addrs) := by simp
  have hright : (addrs (.node c l r) ++ P.addrs).Perm (addrs r ++ (P.right c l).addrs) := by
    rw [addrs_node, Place.addrs_right, List.append_assoc, List.cons_append]
    exact List.perm_middle.trans (((List.perm_append_comm_assoc _ _ _).cons c.1).trans
      List.perm_middle.symm)
  refine ⟨rfl, x, hx, hel, ⟨⟨hP, x, hx, hel, rfl, hr⟩, hl, hleft.nodup_iff.1 hnd, ?_⟩,
    ⟨⟨hP, x, hx, hel, hl, rfl⟩, hr, hright.nodup_iff.1 hnd, ?_⟩⟩
  · exact fun a ha => hleft.mem_iff.1 (honly a ha)
  · exact fun a ha => hright.mem_iff.1 (honly a ha)

/-- What is found through pointers: the names of the tree at their nodes. -/
theorem Owns.name_eq_some_iff (h : Owns s t) (a : ℕ) (e : α) :
    s.name a = some e ↔ (a, e) ∈ BST.inorder t := by
  have hcell {p : Option ℕ} {u : BST (Cell α)} (hu : Linked s.heap p u) (c : Cell α)
      (hc : c ∈ BST.inorder u) : s.name c.1 = some c.2 := by
    induction u generalizing p with
    | null => simp at hc
    | node d l r ihl ihr =>
      obtain ⟨-, x, hx, hel, hl, hr⟩ := hu
      rw [BST.inorder_node, List.mem_append, List.mem_cons] at hc
      rcases hc with hc | rfl | hc
      · exact ihl hl hc
      · simp [TreeState.name, hx, hel]
      · exact ihr hr hc
  constructor
  · intro ha
    have hmem := h.only a (by rw [ha]; rfl)
    obtain ⟨⟨b, e'⟩, hc, rfl⟩ := List.mem_map.1 hmem
    have he : s.name b = some e' := hcell h.linked _ hc
    rw [ha, Option.some.injEq] at he
    rwa [he]
  · exact hcell h.linked (a, e)

end Linked

end SchoolProjects.NameTree
