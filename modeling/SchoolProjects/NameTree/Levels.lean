import SchoolProjects.NameTree.Balance
import SchoolProjects.NameTree.Nodes

/-! The traversal with a queue (`genBST.h`). When the queue holds the nodes of one level, a
round for each of them visits the level and leaves the nodes of the next in the queue. -/

namespace SchoolProjects.NameTree

open BST (height inorder)
open Loop

variable {α : Type*}

structure LevelState where
  queue : List ℕ
  visited : List ℕ

def breadthFirstBody (h : Heap (BSTNode α)) (s : LevelState) : LevelState ⊕ Option (List ℕ) :=
  match s.queue with
  | [] => .inr (some s.visited)
  | p :: queue =>
    match h.read p with
    | none => .inr none
    | some x => .inl ⟨queue ++ x.left.toList ++ x.right.toList, s.visited ++ [p]⟩

/-- `breadthFirst` ends with the result `r`. -/
def BreadthFirst (h : Heap (BSTNode α)) (root : Option ℕ) (r : Option (List ℕ)) : Prop :=
  Ends (breadthFirstBody h) ⟨root.toList, []⟩ r

/-- The nodes at a distance from the root, from left to right. -/
def level : BST ℕ → ℕ → List ℕ
  | .null, _ => []
  | .node a _ _, 0 => [a]
  | .node _ l r, d + 1 => level l d ++ level r d

/-- All levels, one after the other. -/
def levels (t : BST ℕ) : List ℕ := (List.range (height t)).flatMap (level t)

/-- The levels are the nodes of the tree. -/
theorem flatMap_level_perm (t : BST ℕ) {n : ℕ} (h : height t ≤ n) :
    ((List.range n).flatMap (level t)).Perm (inorder t) := by
  induction t generalizing n with
  | null => simp [level]
  | node a l r ihl ihr =>
    rw [height] at h
    obtain ⟨n, rfl⟩ : ∃ m, n = m + 1 := ⟨n - 1, by omega⟩
    rw [List.range_succ_eq_map, List.flatMap_cons, List.flatMap_map]
    have hsides := ((ihl (n := n) (by omega)).append (ihr (n := n) (by omega)))
    have hlevel := (List.flatMap_append_perm (List.range n) (level l) (level r)).symm
    exact ((hlevel.trans hsides).cons a).trans List.perm_middle.symm

/-! ### A forest in the queue -/

/-- Pointers with the trees that they lead to. -/
abbrev Pending := List (Option ℕ × BST ℕ)

def Pending.Holds (h : Heap (BSTNode α)) (f : Pending) : Prop := ∀ x ∈ f, Segment h x.1 x.2 none

/-- The null pointers are not put into the queue. -/
def Pending.queue (f : Pending) : List ℕ := f.flatMap fun x => x.1.toList

def Pending.level (f : Pending) (d : ℕ) : List ℕ := f.flatMap fun x => NameTree.level x.2 d

/-- A level of the forest is visited, and the trees below it are queued. -/
theorem leads_level {h : Heap (BSTNode α)} (f g : Pending) (hf : f.Holds h) (visited : List ℕ) :
    ∃ f' : Pending, f'.Holds h ∧ (∀ d, f'.level d = f.level (d + 1)) ∧
      (∀ n, (∀ x ∈ f, height x.2 ≤ n + 1) → ∀ x ∈ f', height x.2 ≤ n) ∧
      Leads (breadthFirstBody h) ⟨f.queue ++ g.queue, visited⟩
        ⟨g.queue ++ f'.queue, visited ++ f.level 0⟩ := by
  induction f generalizing g visited with
  | nil =>
    refine ⟨[], hf, fun _ => rfl, fun _ _ => by simp, ?_⟩
    simpa [Pending.queue, Pending.level] using Leads.refl _
  | cons x f ih =>
    obtain ⟨p, t⟩ := x
    have hrest : Pending.Holds h f := fun y hy => hf y (by simp [hy])
    have ht : Segment h p t none := hf (p, t) (by simp)
    cases t with
    | null =>
      obtain rfl : p = none := ht
      obtain ⟨f', hholds, hlevel, hheight, hleads⟩ := ih g hrest visited
      refine ⟨f', hholds, fun d => hlevel d, fun n hn => ?_, hleads⟩
      exact hheight n fun y hy => hn y (by simp [hy])
    | node a l r =>
      obtain ⟨rfl, x, hx, hl, hr⟩ := ht
      let children : Pending := [(x.left, l), (x.right, r)]
      obtain ⟨f', hholds, hlevel, hheight, hleads⟩ := ih (g ++ children) hrest (visited ++ [a])
      refine ⟨children ++ f', ?_, fun d => ?_, fun n hn => ?_, ?_⟩
      · intro y hy
        rcases List.mem_append.1 hy with hy | hy
        · rcases List.mem_pair.1 hy with rfl | rfl
          · exact hl
          · exact hr
        · exact hholds y hy
      · have hd := hlevel d
        simp only [Pending.level, children, List.flatMap_append, List.flatMap_cons,
          List.flatMap_nil, List.append_nil, NameTree.level] at hd ⊢
        rw [hd]
      · intro y hy
        have hnode : height (.node a l r) ≤ n + 1 := hn (some a, .node a l r) (by simp)
        rw [height] at hnode
        rcases List.mem_append.1 hy with hy | hy
        · rcases List.mem_pair.1 hy with rfl | rfl
          · simp only
            omega
          · simp only
            omega
        · exact hheight n (fun z hz => hn z (by simp [hz])) y hy
      · have hround : breadthFirstBody h
            ⟨Pending.queue ((some a, .node a l r) :: f) ++ g.queue, visited⟩ =
              .inl ⟨Pending.queue f ++ Pending.queue (g ++ children), visited ++ [a]⟩ := by
          simp [breadthFirstBody, Pending.queue, hx, children]
        refine .again hround ?_
        simpa [Pending.queue, Pending.level, NameTree.level] using hleads

/-- Level by level the whole forest is visited. -/
theorem leads_levels {h : Heap (BSTNode α)} (n : ℕ) (f : Pending) (hf : f.Holds h)
    (hn : ∀ x ∈ f, height x.2 ≤ n) (visited : List ℕ) :
    Leads (breadthFirstBody h) ⟨f.queue, visited⟩
      ⟨[], visited ++ (List.range n).flatMap f.level⟩ := by
  induction n generalizing f visited with
  | zero =>
    have hnull : f.queue = [] := by
      rw [Pending.queue, List.flatMap_eq_nil_iff]
      rintro ⟨p, t⟩ hx
      have hzero : height t = 0 := Nat.le_zero.1 (hn _ hx)
      cases t with
      | null =>
        obtain rfl : p = none := hf _ hx
        rfl
      | node a l r => rw [height] at hzero; omega
    rw [hnull, List.range_zero, List.flatMap_nil, List.append_nil]
    exact .refl _
  | succ n ih =>
    obtain ⟨f', hholds, hlevel, hheight, hleads⟩ := leads_level f [] hf visited
    have hrest := ih f' hholds (hheight n hn) (visited ++ f.level 0)
    rw [List.range_succ_eq_map, List.flatMap_cons, List.flatMap_map, ← List.append_assoc]
    simp only [Pending.queue, List.flatMap_nil, List.append_nil, List.nil_append] at hleads hrest ⊢
    simp only [← hlevel]
    exact hleads.trans hrest

/-- The traversal with a queue ends, uses no pointer that leads nowhere, and visits each node
once, level by level and on each level from left to right. -/
theorem breadthFirst_iff (h : Heap (BSTNode α)) (root : Option ℕ) (t : BST ℕ)
    (ht : TreeAt h root t) : (∀ r, BreadthFirst h root r ↔ r = some (levels t)) ∧
      (levels t).Perm (inorder t) ∧ (levels t).Nodup := by
  have hperm : (levels t).Perm (inorder t) := flatMap_level_perm t le_rfl
  have hends : BreadthFirst h root (some (levels t)) := by
    have hleads := leads_levels (height t) [(root, t)]
      (by simpa [Pending.Holds] using ht.segment) (by simp) []
    have hlevel : Pending.level [(root, t)] = level t := by
      funext d
      simp [Pending.level]
    have hqueue : Pending.queue [(root, t)] = root.toList := by simp [Pending.queue]
    rw [hlevel, hqueue, List.nil_append] at hleads
    exact hleads.ends_iff.2 (.exit rfl)
  refine ⟨fun r => ⟨fun hr => hr.functional hends, ?_⟩, hperm, hperm.nodup_iff.2 ht.nodup⟩
  rintro rfl
  exact hends

theorem breadthFirst_small :
    (∀ r, BreadthFirst smallHeap (some 2) r ↔ r = some (levels smallTree)) ∧
      (levels smallTree).Perm (inorder smallTree) ∧ (levels smallTree).Nodup :=
  breadthFirst_iff smallHeap (some 2) smallTree treeAt_small

end SchoolProjects.NameTree
