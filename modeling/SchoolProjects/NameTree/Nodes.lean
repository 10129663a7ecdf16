import SchoolProjects.Lib.Heap
import SchoolProjects.Lib.Loop
import SchoolProjects.NameTree.Tree

/-! The nodes of the tree in memory (`genBST.h`), and the recursive traversals. A tree of
addresses says to which nodes a pointer leads; the right pointer of the last of them may lead
on to another node. -/

namespace SchoolProjects.NameTree

structure BSTNode (α : Type*) where
  el : α
  left : Option ℕ
  right : Option ℕ

variable {α : Type*}

/-- From `p` one finds the nodes of `t`, and behind the last of them in order the pointer
`nx` in the place of null. -/
def Segment (h : Heap (BSTNode α)) : Option ℕ → BST ℕ → Option ℕ → Prop
  | p, .null, nx => p = nx
  | p, .node a l r, nx => p = some a ∧ ∃ x, h.read a = some x ∧
      Segment h x.left l none ∧ Segment h x.right r nx

/-- The nodes below `p` are those of `t`, and all different. -/
structure TreeAt (h : Heap (BSTNode α)) (p : Option ℕ) (t : BST ℕ) : Prop where
  segment : Segment h p t none
  nodup : (BST.inorder t).Nodup

/-! ### The recursive traversals -/

/-- The order of a node and the nodes of its subtrees, for each of the traversals. -/
def inOrder (a : ℕ) (l r : List ℕ) : List ℕ := l ++ a :: r

def preOrder (a : ℕ) (l r : List ℕ) : List ℕ := a :: (l ++ r)

def postOrder (a : ℕ) (l r : List ℕ) : List ℕ := l ++ (r ++ [a])

/-- A call with the pointer `p` visits the nodes `vs`. -/
inductive Recursive (order : ℕ → List ℕ → List ℕ → List ℕ) (h : Heap (BSTNode α)) :
    Option ℕ → List ℕ → Prop
  | null : Recursive order h none []
  | node {a : ℕ} {x : BSTNode α} {l r : List ℕ} : h.read a = some x →
      Recursive order h x.left l → Recursive order h x.right r →
      Recursive order h (some a) (order a l r)

/-- The methods `inorder(p)`, `preorder(p)` and `postorder(p)`. -/
def Inorder (h : Heap (BSTNode α)) : Option ℕ → List ℕ → Prop := Recursive inOrder h

def Preorder (h : Heap (BSTNode α)) : Option ℕ → List ℕ → Prop := Recursive preOrder h

def Postorder (h : Heap (BSTNode α)) : Option ℕ → List ℕ → Prop := Recursive postOrder h

/-- The nodes of a tree in an order. -/
def visits (order : ℕ → List ℕ → List ℕ → List ℕ) : BST ℕ → List ℕ
  | .null => []
  | .node a l r => order a (visits order l) (visits order r)

theorem Segment.recursive {order : ℕ → List ℕ → List ℕ → List ℕ} {h : Heap (BSTNode α)}
    {p : Option ℕ} {t : BST ℕ} (ht : Segment h p t none) :
    Recursive order h p (visits order t) := by
  induction t generalizing p with
  | null =>
    obtain rfl : p = none := ht
    exact .null
  | node a l r ihl ihr =>
    obtain ⟨rfl, x, hx, hl, hr⟩ := ht
    exact .node hx (ihl hl) (ihr hr)

/-! ### Segments -/

section Segments

variable {h h' : Heap (BSTNode α)} {p nx : Option ℕ} {t : BST ℕ}

theorem visits_inOrder (t : BST ℕ) : visits inOrder t = BST.inorder t := by
  induction t with
  | null => rfl
  | node a l r ihl ihr => rw [visits, ihl, ihr, BST.inorder_node, inOrder]

theorem Segment.null_of_none (ht : Segment h none t none) : t = .null := by
  cases t with
  | null => rfl
  | node a l r => exact absurd ht.1 (by simp)

theorem Segment.mem {a : ℕ} (ht : Segment h (some a) t none) : a ∈ BST.inorder t := by
  cases t with
  | null => exact absurd ht (by simp [Segment])
  | node b l r =>
    obtain rfl : a = b := Option.some.inj ht.1
    simp

theorem Segment.read {a : ℕ} (ht : Segment h p t nx) (ha : a ∈ BST.inorder t) :
    ∃ x, h.read a = some x := by
  induction t generalizing p nx with
  | null => simp at ha
  | node b l r ihl ihr =>
    obtain ⟨-, x, hx, hl, hr⟩ := ht
    rcases List.mem_append.1 ha with ha | ha
    · exact ihl hl ha
    · rcases List.mem_cons.1 ha with rfl | ha
      · exact ⟨x, hx⟩
      · exact ihr hr ha

theorem nodup_node {a : ℕ} {l r : BST ℕ} : (BST.inorder (.node a l r)).Nodup ↔
    (BST.inorder l).Nodup ∧ (BST.inorder r).Nodup ∧ a ∉ BST.inorder l ∧ a ∉ BST.inorder r ∧
      ∀ b ∈ BST.inorder l, b ∉ BST.inorder r := by
  rw [BST.inorder_node, List.nodup_append, List.nodup_cons]
  constructor
  · rintro ⟨hl, ⟨ha, hr⟩, hdisj⟩
    exact ⟨hl, hr, fun h => hdisj a h a (by simp) rfl, ha,
      fun b hb hb' => hdisj b hb b (by simp [hb']) rfl⟩
  · rintro ⟨hl, hr, hal, har, hdisj⟩
    refine ⟨hl, ⟨har, hr⟩, fun b hb c hc => ?_⟩
    rintro rfl
    rcases List.mem_cons.1 hc with rfl | hc
    · exact hal hb
    · exact hdisj b hb hc

/-- Only the nodes of the tree count. -/
theorem Segment.congr (ht : Segment h p t nx)
    (hread : ∀ a ∈ BST.inorder t, h'.read a = h.read a) : Segment h' p t nx := by
  induction t generalizing p nx with
  | null => exact ht
  | node a l r ihl ihr =>
    obtain ⟨hp, x, hx, hl, hr⟩ := ht
    refine ⟨hp, x, (hread a (by simp)).trans hx, ihl hl fun b hb => hread b (by simp [hb]),
      ihr hr fun b hb => hread b (by simp [hb])⟩

end Segments

/-! ### Three nodes -/

/-- A root with two children. -/
def smallHeap : Heap (BSTNode ℕ) :=
  ((Heap.empty.alloc ⟨3, none, none⟩).alloc ⟨7, none, none⟩).alloc ⟨5, some 0, some 1⟩

def smallTree : BST ℕ := .node 2 (.node 0 .null .null) (.node 1 .null .null)

theorem treeAt_small : TreeAt smallHeap (some 2) smallTree where
  segment := by simp [smallHeap, smallTree, Segment, Heap.empty, Heap.fresh_alloc]
  nodup := by decide

end SchoolProjects.NameTree
