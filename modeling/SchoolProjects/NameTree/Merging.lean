import SchoolProjects.NameTree.Balance

/-! Deletion by merging (`genBST.h`). The right subtree of the node becomes the right subtree
of the last node of the left one. On every tree, ordered or not, the names that are left and
their order are those that deletion by copying leaves; the shapes differ. Copying never makes
the tree higher, and merging can nearly double its height. -/

namespace SchoolProjects.NameTree

namespace BST

variable {α : Type*}

/-- The walk along `right` in `deleteByMerging`, and the link from the node at its end. -/
def attach (right : BST α) : BST α → BST α
  | null => right
  | node el left' right' => node el left' (attach right right')

def deleteByMerging : BST α → BST α
  | null => null
  | node _ left null => left
  | node _ null right => right
  | node _ left right => attach right left

@[simp] theorem attach_null (t : BST α) : attach null t = t := by
  induction t with
  | null => rfl
  | node el left' right' _ ihr => rw [attach, ihr]

/-- All three branches hang the right subtree on the left one. -/
theorem deleteByMerging_node (el : α) (left right : BST α) :
    deleteByMerging (node el left right) = attach right left := by
  cases right with
  | null => rw [deleteByMerging, attach_null]
  | node er lr rr =>
    cases left with
    | null => rfl
    | node el' left' right' => rfl

@[simp] theorem inorder_attach (right t : BST α) :
    inorder (attach right t) = inorder t ++ inorder right := by
  induction t with
  | null => rfl
  | node el left' right' _ ihr => simp [attach, ihr]

/-- Merging takes the name out of the traversal as copying does. -/
theorem inorder_deleteByMerging (t : BST α) :
    inorder (deleteByMerging t) = inorder (deleteByCopying t) := by
  cases t with
  | null => rfl
  | node el left right =>
    rw [deleteByMerging_node, inorder_attach, inorder_deleteByCopying]

/-! ### Heights -/

theorem height_takeLast_le (el : α) (left right : BST α) :
    height (takeLast el left right).2 ≤ height (node el left right) := by
  induction right generalizing el left with
  | null => simp [takeLast, height]
  | node el' left' right' _ ihr =>
    have h := ihr el' left'
    simp only [takeLast, height] at h ⊢
    omega

theorem height_deleteByCopying_le (t : BST α) : height (deleteByCopying t) ≤ height t := by
  cases t with
  | null => exact le_rfl
  | node el left right =>
    cases right with
    | null => simp [deleteByCopying, height]
    | node er lr rr =>
      cases left with
      | null => simp [deleteByCopying, height]
      | node el' left' right' =>
        have h := height_takeLast_le el' left' right'
        simp only [deleteByCopying, height] at h ⊢
        omega

theorem height_attach_le (right t : BST α) : height (attach right t) ≤ height t + height right := by
  induction t with
  | null => simp [attach, height]
  | node el left' right' _ ihr =>
    simp only [attach, height]
    omega

theorem height_deleteByMerging_le (t : BST α) :
    height (deleteByMerging t) ≤ max (height t) (2 * height t - 2) := by
  cases t with
  | null => simp [deleteByMerging, height]
  | node el left right =>
    have h := height_attach_le right left
    rw [deleteByMerging_node]
    simp only [height]
    omega

/-! ### Searching for the node -/

section Search

variable [LinearOrder α]

def findAndDeleteByMerging (el : α) : BST α → BST α
  | null => null
  | node p left right =>
    if p = el then deleteByMerging (node p left right)
    else if el < p then node p (findAndDeleteByMerging el left) right
    else node p left (findAndDeleteByMerging el right)

theorem inorder_findAndDeleteByMerging (el : α) (t : BST α) :
    inorder (findAndDeleteByMerging el t) = inorder (findAndDeleteByCopying el t) := by
  induction t with
  | null => rfl
  | node p left right ihl ihr =>
    unfold findAndDeleteByMerging findAndDeleteByCopying
    split_ifs
    · exact inorder_deleteByMerging _
    · simp [ihl]
    · simp [ihr]

theorem height_findAndDeleteByCopying_le (el : α) (t : BST α) :
    height (findAndDeleteByCopying el t) ≤ height t := by
  induction t with
  | null => exact le_rfl
  | node p left right ihl ihr =>
    unfold findAndDeleteByCopying
    split_ifs
    · exact height_deleteByCopying_le _
    · simp only [height]
      omega
    · simp only [height]
      omega

theorem height_findAndDeleteByMerging_le (el : α) (t : BST α) :
    height (findAndDeleteByMerging el t) ≤ max (height t) (2 * height t - 2) := by
  induction t with
  | null => simp [findAndDeleteByMerging, height]
  | node p left right ihl ihr =>
    unfold findAndDeleteByMerging
    split_ifs
    · exact height_deleteByMerging_le _
    · simp only [height]
      omega
    · simp only [height]
      omega

end Search

/-- `n` nodes, each the right child of the one before. -/
def chain (el : α) : ℕ → BST α
  | 0 => null
  | n + 1 => node el null (chain el n)

theorem height_chain (el : α) (n : ℕ) : height (chain el n) = n := by
  induction n with
  | zero => rfl
  | succ n ih => simp [chain, height, ih]

theorem height_attach_chain (el : α) (n : ℕ) (right : BST α) :
    height (attach right (chain el n)) = n + height right := by
  induction n with
  | zero => simp [chain, attach]
  | succ n ih =>
    simp only [chain, attach, height, ih]
    omega

/-- Both deletions leave the same listing of every tree. Copying keeps the height, merging at
most nearly doubles it, and does so for two chains below the node. -/
theorem deletions_agree [LinearOrder α] (el : α) :
    (∀ t : BST α, inorder (findAndDeleteByMerging el t) = inorder (findAndDeleteByCopying el t) ∧
      height (findAndDeleteByCopying el t) ≤ height t ∧
      height (findAndDeleteByMerging el t) ≤ max (height t) (2 * height t - 2)) ∧
    ∀ n, height (node el (chain el n) (chain el n)) = n + 1 ∧
      height (findAndDeleteByMerging el (node el (chain el n) (chain el n))) = 2 * (n + 1) - 2 := by
  constructor
  · exact fun t => ⟨inorder_findAndDeleteByMerging el t, height_findAndDeleteByCopying_le el t,
      height_findAndDeleteByMerging_le el t⟩
  · intro n
    constructor
    · simp [height, height_chain]
    · rw [findAndDeleteByMerging, if_pos rfl, deleteByMerging_node, height_attach_chain,
        height_chain]
      omega

end BST

end SchoolProjects.NameTree
