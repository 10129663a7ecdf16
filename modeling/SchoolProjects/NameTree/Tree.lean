import Mathlib.Tactic
import Mathlib.Data.Multiset.AddSub

/-! The binary search tree behind the name menu: insertion, deletion by copying
and the mirror operation. The nodes have one owner each, so a subtree is a value
and an assignment through a child pointer is the rebuilt parent. Only the order
of the names decides where an operation goes. -/

namespace SchoolProjects.NameTree

/-- A `BSTNode` with everything below it; `null` is the null pointer. -/
inductive BST (α : Type*) where
  | null
  | node (el : α) (left right : BST α)
  deriving DecidableEq

namespace BST

variable {α : Type*}

/-- The names in the order in which `inorder` visits them. -/
def inorder : BST α → List α
  | null => []
  | node el left right => inorder left ++ el :: inorder right

/-- `reverseTreeHelper`: the children of every node change places. -/
def reverseTree : BST α → BST α
  | null => null
  | node el left right => node el (reverseTree right) (reverseTree left)

/-- The walk along `right` from the node `el` in `deleteByCopying`: the last
name on it, and the tree in which the left child of the last node has taken its
place. -/
def takeLast (el : α) (left : BST α) : BST α → α × BST α
  | null => (el, left)
  | node el' left' right' =>
    let tmp := takeLast el' left' right'
    (tmp.1, node el left tmp.2)

def deleteByCopying : BST α → BST α
  | null => null
  | node _ left null => left
  | node _ null right => right
  | node _ (node el left right') right =>
    let tmp := takeLast el left right'
    node tmp.1 tmp.2 right

section Search

variable [LinearOrder α]

/-- `insert`: a name equal to the one in the node goes to the right. -/
def insert (el : α) : BST α → BST α
  | null => node el null null
  | node p left right =>
    if el < p then node p (insert el left) right else node p left (insert el right)

def findAndDeleteByCopying (el : α) : BST α → BST α
  | null => null
  | node p left right =>
    if p = el then deleteByCopying (node p left right)
    else if el < p then node p (findAndDeleteByCopying el left) right
    else node p left (findAndDeleteByCopying el right)

end Search

/-- The invariant of a search tree, with equal names allowed on both sides:
the traversal is in ascending order. -/
def Ascending [LE α] (t : BST α) : Prop := (inorder t).Pairwise (· ≤ ·)

instance [LE α] [DecidableLE α] : DecidablePred (Ascending (α := α)) := fun t =>
  inferInstanceAs (Decidable ((inorder t).Pairwise (· ≤ ·)))

/-- The names in the tree, with their number of occurrences. -/
def names (t : BST α) : Multiset α := inorder t

@[simp] theorem inorder_null : inorder (null : BST α) = [] := rfl

@[simp] theorem inorder_node (el : α) (left right : BST α) :
    inorder (node el left right) = inorder left ++ el :: inorder right := rfl

@[simp] theorem inorder_reverseTree (t : BST α) :
    inorder (reverseTree t) = (inorder t).reverse := by
  induction t with
  | null => rfl
  | node el left right ihl ihr => simp [reverseTree, ihl, ihr]

@[simp] theorem names_null : names (null : BST α) = 0 := rfl

theorem names_node (el : α) (left right : BST α) :
    names (node el left right) = el ::ₘ (names left + names right) :=
  Multiset.coe_eq_coe.mpr List.perm_middle

@[simp] theorem names_reverseTree (t : BST α) : names (reverseTree t) = names t := by
  apply Multiset.coe_eq_coe.mpr
  rw [inorder_reverseTree]
  exact List.reverse_perm _

theorem inorder_takeLast (el : α) (left right : BST α) :
    inorder (takeLast el left right).2 ++ [(takeLast el left right).1] =
      inorder (node el left right) := by
  induction right generalizing el left with
  | null => rfl
  | node el' left' right' _ ihr =>
    have h := ihr el' left'
    simp only [takeLast, inorder_node, List.append_assoc, List.cons_append] at h ⊢
    rw [h]

/-- Deleting a node takes its name out of the traversal and moves no other. -/
theorem inorder_deleteByCopying (el : α) (left right : BST α) :
    inorder (deleteByCopying (node el left right)) = inorder left ++ inorder right := by
  cases right with
  | null => simp [deleteByCopying]
  | node er lr rr =>
    cases left with
    | null => rfl
    | node el' left' right' =>
      have h := inorder_takeLast el' left' right'
      simp only [deleteByCopying, inorder_node] at h ⊢
      rw [← h, List.append_assoc, List.singleton_append]

section Search

variable [LinearOrder α]

/-- Insertion adds the name and loses none, whatever the shape of the tree. -/
theorem inorder_insert_perm (el : α) (t : BST α) :
    (inorder (insert el t)).Perm (el :: inorder t) := by
  induction t with
  | null => rfl
  | node p left right ihl ihr =>
    unfold insert
    split_ifs
    · exact (ihl.append_right _).trans (by simp)
    · rw [inorder_node, inorder_node]
      exact ((ihr.cons p).append_left _).trans
        (((List.Perm.swap el p _).append_left _).trans List.perm_middle)

@[simp] theorem names_insert (el : α) (t : BST α) : names (insert el t) = el ::ₘ names t :=
  Multiset.coe_eq_coe.mpr (inorder_insert_perm el t)

theorem mem_inorder_insert {el x : α} {t : BST α} :
    x ∈ inorder (insert el t) ↔ x = el ∨ x ∈ inorder t := by
  rw [(inorder_insert_perm el t).mem_iff, List.mem_cons]

/-- What an ascending traversal says at the root. -/
theorem ascending_node {p : α} {left right : BST α} :
    Ascending (node p left right) ↔ Ascending left ∧ Ascending right ∧
      (∀ x ∈ inorder left, x ≤ p) ∧ (∀ x ∈ inorder right, p ≤ x) := by
  simp only [Ascending, inorder_node, List.pairwise_append, List.pairwise_cons, List.mem_cons]
  constructor
  · rintro ⟨hl, ⟨hp, hr⟩, hc⟩
    exact ⟨hl, hr, fun x hx => hc x hx p (.inl rfl), hp⟩
  · rintro ⟨hl, hr, hlp, hp⟩
    apply And.intro hl
    apply And.intro ⟨hp, hr⟩
    rintro x hx y (rfl | hy)
    · exact hlp x hx
    · exact (hlp x hx).trans (hp y hy)

theorem Ascending.insert {t : BST α} (ht : Ascending t) (el : α) : Ascending (insert el t) := by
  induction t with
  | null => simp [BST.insert, Ascending]
  | node p left right ihl ihr =>
    obtain ⟨hl, hr, hlp, hp⟩ := ascending_node.mp ht
    unfold BST.insert
    split_ifs with hlt
    · apply ascending_node.mpr ⟨ihl hl, hr, _, hp⟩
      intro x hx
      rcases mem_inorder_insert.mp hx with rfl | hx
      · exact hlt.le
      · exact hlp x hx
    · apply ascending_node.mpr ⟨hl, ihr hr, hlp, _⟩
      intro x hx
      rcases mem_inorder_insert.mp hx with rfl | hx
      · exact not_lt.mp hlt
      · exact hp x hx

/-- Deletion only takes names away, and keeps the others in their order. -/
theorem inorder_findAndDelete_sublist (el : α) (t : BST α) :
    (inorder (findAndDeleteByCopying el t)).Sublist (inorder t) := by
  induction t with
  | null => exact List.Sublist.refl _
  | node p left right ihl ihr =>
    unfold findAndDeleteByCopying
    split_ifs
    · rw [inorder_deleteByCopying, inorder_node]
      exact (List.sublist_cons_self p _).append_left _
    · exact ihl.append_right _
    · exact (ihr.cons_cons p).append_left _

theorem Ascending.findAndDelete {t : BST α} (ht : Ascending t) (el : α) :
    Ascending (findAndDeleteByCopying el t) :=
  ht.sublist (inorder_findAndDelete_sublist el t)

/-- A name that the search does not reach is not in an ascending tree, and one
that it reaches loses one occurrence. -/
theorem Ascending.names_findAndDelete {t : BST α} (ht : Ascending t) (el : α) :
    names (findAndDeleteByCopying el t) = (names t).erase el := by
  induction t with
  | null => rfl
  | node p left right ihl ihr =>
    obtain ⟨hl, hr, hlp, hp⟩ := ascending_node.mp ht
    unfold findAndDeleteByCopying
    split_ifs with heq hlt
    · subst heq
      rw [names_node, Multiset.erase_cons_head, names, inorder_deleteByCopying]
      rfl
    · have hmem : el ∉ names right := fun h => absurd (hp el h) (not_le.mpr hlt)
      rw [names_node, names_node, Multiset.erase_cons_tail _ heq,
        Multiset.erase_add_left_neg _ hmem, ihl hl]
    · have hlt' : p < el := lt_of_le_of_ne (not_lt.mp hlt) heq
      have hmem : el ∉ names left := fun h => absurd (hlp el h) (not_le.mpr hlt')
      rw [names_node, names_node, Multiset.erase_cons_tail _ heq,
        Multiset.erase_add_right_neg _ hmem, ihr hr]

end Search

end BST

end SchoolProjects.NameTree
