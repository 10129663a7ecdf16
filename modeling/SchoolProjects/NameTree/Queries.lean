import SchoolProjects.NameTree.Tree

/-! What the tree is asked (`genBST.h`): `search`, and the numbers of nodes and leaves. The
search finds a name wherever the traversal is in ascending order, also where deletion by
copying has left equal names on both sides. The helpers of the two counts add up what they
should, but only the call for an empty tree comes to a `return`. -/

namespace SchoolProjects.NameTree

namespace BST

variable {α : Type*}

/-! ### Search -/

section Search

variable [LinearOrder α]

/-- `search`; `none` is the null pointer. -/
def search (el : α) : BST α → Option α
  | null => none
  | node p left right =>
    if el = p then some p
    else if el < p then search el left
    else search el right

/-- In an ascending tree the search finds what is there. -/
theorem Ascending.search_isSome {t : BST α} (ht : Ascending t) (el : α) :
    (search el t).isSome ↔ el ∈ names t := by
  induction t with
  | null => simp [search]
  | node p left right ihl ihr =>
    obtain ⟨hl, hr, hlp, hp⟩ := ascending_node.mp ht
    rw [names_node, Multiset.mem_cons, Multiset.mem_add]
    unfold search
    split_ifs with heq hlt
    · simp [heq]
    · have hright : el ∉ names right := fun h => absurd (hp el h) (not_le.mpr hlt)
      rw [ihl hl]
      simp [heq, hright]
    · have hlt' : p < el := lt_of_le_of_ne (not_lt.mp hlt) (Ne.symm heq)
      have hleft : el ∉ names left := fun h => absurd (hlp el h) (not_le.mpr hlt')
      rw [ihr hr]
      simp [heq, hleft]

/-- Deletion of a name that is not in the tree leaves it as it is, whatever its order. -/
theorem findAndDelete_of_notMem {el : α} {t : BST α} (h : el ∉ names t) :
    findAndDeleteByCopying el t = t := by
  induction t with
  | null => rfl
  | node p left right ihl ihr =>
    rw [names_node, Multiset.mem_cons, Multiset.mem_add] at h
    obtain ⟨hne, hleft, hright⟩ : el ≠ p ∧ el ∉ names left ∧ el ∉ names right := by tauto
    unfold findAndDeleteByCopying
    rw [if_neg (Ne.symm hne), ihl hleft, ihr hright, ite_self]

/-- A tree whose traversal is in ascending order is a sorted multiset of names for all three
operations. -/
theorem ascending_operations {t : BST α} (ht : Ascending t) (el : α) :
    (names (insert el t) = el ::ₘ names t ∧ Ascending (insert el t)) ∧
    ((el ∈ names t → el ::ₘ names (findAndDeleteByCopying el t) = names t) ∧
      (el ∉ names t → findAndDeleteByCopying el t = t) ∧
      Ascending (findAndDeleteByCopying el t)) ∧
    ((search el t).isSome ↔ el ∈ names t) := by
  refine ⟨⟨names_insert el t, ht.insert el⟩, ⟨fun hmem => ?_, findAndDelete_of_notMem,
    ht.findAndDelete el⟩, ht.search_isSome el⟩
  rw [ht.names_findAndDelete el, Multiset.cons_erase hmem]

/-- A name with an equal one on each side. -/
def twins : BST ℕ := node 1 (node 1 null null) (node 1 null null)

theorem ascending_operations_twins :
    (names (insert 1 twins) = 1 ::ₘ names twins ∧ Ascending (insert 1 twins)) ∧
    ((1 ∈ names twins → 1 ::ₘ names (findAndDeleteByCopying 1 twins) = names twins) ∧
      (1 ∉ names twins → findAndDeleteByCopying 1 twins = twins) ∧
      Ascending (findAndDeleteByCopying 1 twins)) ∧
    ((search 1 twins).isSome ↔ 1 ∈ names twins) :=
  ascending_operations (by decide) 1

end Search

/-! ### Counts -/

/-- `countNodesHelper`: the value of the call, `none` where it flows off its end, and
`total`. -/
def countNodesHelper : BST α → ℕ → Option ℕ × ℕ
  | null, total => (some total, total)
  | node _ left right, total =>
    let total := total + 1
    let total := (countNodesHelper left total).2
    let total := (countNodesHelper right total).2
    (none, total)

def countNodes (t : BST α) : Option ℕ := (countNodesHelper t 0).1

/-- `countLeafsHelper`, in the same way. -/
def countLeafsHelper : BST α → ℕ → Option ℕ × ℕ
  | null, total => (some total, total)
  | node _ left right, total =>
    let total := match left, right with
      | null, null => total + 1
      | _, _ => total
    let total := (countLeafsHelper left total).2
    let total := (countLeafsHelper right total).2
    (none, total)

def countLeafs (t : BST α) : Option ℕ := (countLeafsHelper t 0).1

/-- The number of nodes. -/
def size : BST α → ℕ
  | null => 0
  | node _ left right => size left + size right + 1

/-- The number of nodes without children. -/
def leafs : BST α → ℕ
  | null => 0
  | node _ null null => 1
  | node _ left right => leafs left + leafs right

/-- The helper adds the nodes to `total`. -/
theorem countNodesHelper_total (t : BST α) (total : ℕ) :
    (countNodesHelper t total).2 = total + size t := by
  induction t generalizing total with
  | null => rfl
  | node el left right ihl ihr =>
    simp only [countNodesHelper, size, ihl, ihr]
    omega

theorem leafs_node (el : α) (left right : BST α) : leafs (node el left right) =
    (match left, right with | null, null => 1 | _, _ => 0) + leafs left + leafs right := by
  cases left <;> cases right <;> simp [leafs]

/-- The helper adds the leaves to `total`. -/
theorem countLeafsHelper_total (t : BST α) (total : ℕ) :
    (countLeafsHelper t total).2 = total + leafs t := by
  induction t generalizing total with
  | null => rfl
  | node el left right ihl ihr =>
    rw [leafs_node]
    simp only [countLeafsHelper, ihl, ihr]
    cases left <;> cases right <;> simp only <;> omega

/-- The counts are returned for the empty tree, and for no other. -/
theorem counts_iff (t : BST α) :
    (countNodes t = some (size t) ∧ countLeafs t = some (leafs t)) ↔ t = null := by
  cases t with
  | null => simp [countNodes, countNodesHelper, size, countLeafs, countLeafsHelper, leafs]
  | node el left right => simp [countNodes, countNodesHelper]

/-- A tree of one node has no count. -/
theorem count_not_returned : countNodes (node 7 null null) ≠ some (size (node 7 null null)) ∧
    countLeafs (node 7 null null) ≠ some (leafs (node 7 null null)) := by
  decide

end BST

end SchoolProjects.NameTree
