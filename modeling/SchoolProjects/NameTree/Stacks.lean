import SchoolProjects.NameTree.Nodes

/-! The traversals with a stack (`genBST.h`). Each nested loop is a place in the code of its
own. A result `none` is the use of a pointer that leads to no node, or a `pop` of an empty
stack. -/

namespace SchoolProjects.NameTree

open Loop

variable {α : Type*}

/-- `travStack.push(p)` where `p` is not null. -/
def push : Option ℕ → List ℕ → List ℕ
  | none, travStack => travStack
  | some p, travStack => p :: travStack

/-! ### `iterativePreorder` -/

structure PreorderState where
  travStack : List ℕ
  visited : List ℕ

def preorderBody (h : Heap (BSTNode α)) (s : PreorderState) : PreorderState ⊕ Option (List ℕ) :=
  match s.travStack with
  | [] => .inr (some s.visited)
  | p :: travStack =>
    match h.read p with
    | none => .inr none
    | some x => .inl ⟨push x.left (push x.right travStack), s.visited ++ [p]⟩

/-- `iterativePreorder` ends with the result `r`. -/
def IterativePreorder (h : Heap (BSTNode α)) (root : Option ℕ) (r : Option (List ℕ)) : Prop :=
  Ends (preorderBody h) ⟨push root [], []⟩ r

/-- A subtree on top of the stack is visited before what is below it. -/
theorem leads_preorder {h : Heap (BSTNode α)} {p : Option ℕ} {t : BST ℕ} (ht : Segment h p t none)
    (travStack visited : List ℕ) : Leads (preorderBody h) ⟨push p travStack, visited⟩
      ⟨travStack, visited ++ visits preOrder t⟩ := by
  induction t generalizing p travStack visited with
  | null =>
    obtain rfl : p = none := ht
    rw [visits, List.append_nil]
    exact .refl _
  | node a l r ihl ihr =>
    obtain ⟨rfl, x, hx, hl, hr⟩ := ht
    have hround : preorderBody h ⟨push (some a) travStack, visited⟩ =
        .inl ⟨push x.left (push x.right travStack), visited ++ [a]⟩ := by
      simp only [preorderBody, push, hx]
    have hleft := ihl hl (push x.right travStack) (visited ++ [a])
    have hright := ihr hr travStack (visited ++ [a] ++ visits preOrder l)
    have heq : visited ++ visits preOrder (.node a l r) =
        visited ++ [a] ++ visits preOrder l ++ visits preOrder r := by
      simp [visits, preOrder]
    rw [heq]
    exact .again hround (hleft.trans hright)

/-! ### `iterativeInorder` -/

/-- The places in `iterativeInorder`: the outer loop, the loop that goes to the left, and the
loop that visits nodes without a right child. -/
inductive InorderPlace
  | outer (p : Option ℕ)
  | descend (p : Option ℕ)
  | drain (p : ℕ)

structure InorderState where
  place : InorderPlace
  travStack : List ℕ
  visited : List ℕ

def inorderBody (h : Heap (BSTNode α)) (s : InorderState) : InorderState ⊕ Option (List ℕ) :=
  match s.place with
  | .outer none => .inr (some s.visited)
  | .outer (some p) => .inl { s with place := .descend (some p) }
  | .descend none =>
    match s.travStack with
    | [] => .inr none
    | p :: travStack => .inl { s with place := .drain p, travStack := travStack }
  | .descend (some p) =>
    match h.read p with
    | none => .inr none
    | some x => .inl { s with place := .descend x.left, travStack := p :: push x.right s.travStack }
  | .drain p =>
    match h.read p with
    | none => .inr none
    | some x =>
      match s.travStack, x.right with
      | [], _ => .inl ⟨.outer none, [], s.visited ++ [p]⟩
      | top :: travStack, none => .inl ⟨.drain top, travStack, s.visited ++ [p]⟩
      | top :: travStack, some _ => .inl ⟨.outer (some top), travStack, s.visited ++ [p]⟩

/-- `iterativeInorder` ends with the result `r`. -/
def IterativeInorder (h : Heap (BSTNode α)) (root : Option ℕ) (r : Option (List ℕ)) : Prop :=
  Ends (inorderBody h) ⟨.outer root, [], []⟩ r

/-- Where a subtree is left: the node below it on the stack is next, if there is one. -/
def inorderResume (travStack visited : List ℕ) : InorderState :=
  match travStack with
  | [] => ⟨.outer none, [], visited⟩
  | p :: travStack => ⟨.drain p, travStack, visited⟩

/-- From the top of a subtree its nodes are visited in order. -/
theorem leads_inorder {h : Heap (BSTNode α)} {p : Option ℕ} {t : BST ℕ} (ht : Segment h p t none)
    (travStack visited : List ℕ) (hne : p ≠ none ∨ travStack ≠ []) :
    Leads (inorderBody h) ⟨.descend p, travStack, visited⟩
      (inorderResume travStack (visited ++ visits inOrder t)) := by
  induction t generalizing p travStack visited with
  | null =>
    obtain rfl : p = none := ht
    obtain ⟨top, travStack, rfl⟩ := List.exists_cons_of_ne_nil (hne.resolve_left (by simp))
    rw [visits, List.append_nil]
    exact .again rfl (.refl _)
  | node a l r ihl ihr =>
    obtain ⟨rfl, x, hx, hl, hr⟩ := ht
    have hround : inorderBody h ⟨.descend (some a), travStack, visited⟩ =
        .inl ⟨.descend x.left, a :: push x.right travStack, visited⟩ := by
      simp only [inorderBody, hx]
    have hleft := ihl hl (a :: push x.right travStack) visited (.inr (by simp))
    refine .again hround (hleft.trans ?_)
    generalize hv : visited ++ visits inOrder l = visited' at *
    have hvisits : visited ++ visits inOrder (.node a l r) =
        visited' ++ [a] ++ visits inOrder r := by
      rw [← hv]
      simp [visits, inOrder]
    rw [hvisits]
    rcases hright : x.right with _ | c
    · -- a node without a right child is visited in the loop, or last
      rw [hright] at hr
      rw [hr.null_of_none, visits, List.append_nil]
      cases travStack with
      | nil => exact .again (by simp only [inorderBody, push, inorderResume, hx]) (.refl _)
      | cons top travStack =>
        exact .again (by simp only [inorderBody, push, inorderResume, hx, hright]) (.refl _)
    · rw [hright] at hr
      have hvisit : inorderBody h (inorderResume (a :: push (some c) travStack) visited') =
          .inl ⟨.outer (some c), travStack, visited' ++ [a]⟩ := by
        simp only [inorderBody, push, inorderResume, hx, hright]
      exact .again hvisit (.again rfl (ihr hr travStack _ (.inl (by simp))))

/-! ### `iterativePostorder` -/

/-- The places in `iterativePostorder`: the outer loop, the loop that goes to the left, and
the loop that visits nodes whose right subtree is done. -/
inductive PostorderPlace
  | outer (p : Option ℕ)
  | descend (p : ℕ)
  | climb (p : ℕ)

structure PostorderState where
  place : PostorderPlace
  q : Option ℕ
  travStack : List ℕ
  visited : List ℕ

def postorderBody (h : Heap (BSTNode α)) (s : PostorderState) :
    PostorderState ⊕ Option (List ℕ) :=
  match s.place with
  | .outer none => .inr (some s.visited)
  | .outer (some p) => .inl { s with place := .descend p }
  | .descend p =>
    match h.read p with
    | none => .inr none
    | some x =>
      match x.left with
      | some left => .inl { s with place := .descend left, travStack := p :: s.travStack }
      | none => .inl { s with place := .climb p }
  | .climb p =>
    match h.read p with
    | none => .inr none
    | some x =>
      if x.right = none ∨ x.right = s.q then
        match s.travStack with
        | [] => .inr (some (s.visited ++ [p]))
        | top :: travStack => .inl ⟨.climb top, some p, travStack, s.visited ++ [p]⟩
      else .inl { s with place := .outer x.right, travStack := p :: s.travStack }

/-- `iterativePostorder` ends with the result `r`. -/
def IterativePostorder (h : Heap (BSTNode α)) (root : Option ℕ) (r : Option (List ℕ)) : Prop :=
  Ends (postorderBody h) ⟨.outer root, root, [], []⟩ r

/-- What is left when the subtree at `a` is done: to go on with the node below it on the
stack, or to return. -/
def PostorderResume (h : Heap (BSTNode α)) (a : ℕ) (travStack visited : List ℕ)
    (r : Option (List ℕ)) : Prop :=
  match travStack with
  | [] => r = some visited
  | top :: travStack => Ends (postorderBody h) ⟨.climb top, some a, travStack, visited⟩ r

theorem ends_outer (h : Heap (BSTNode α)) (p : ℕ) (q : Option ℕ) (travStack visited : List ℕ)
    (r : Option (List ℕ)) : Ends (postorderBody h) ⟨.outer (some p), q, travStack, visited⟩ r ↔
      Ends (postorderBody h) ⟨.descend p, q, travStack, visited⟩ r := ends_again_iff rfl

/-- A node whose right subtree is done is visited. -/
theorem ends_climb {h : Heap (BSTNode α)} {a : ℕ} {x : BSTNode α} (hx : h.read a = some x)
    {q : Option ℕ} (hq : x.right = none ∨ x.right = q) (travStack visited : List ℕ)
    (r : Option (List ℕ)) : Ends (postorderBody h) ⟨.climb a, q, travStack, visited⟩ r ↔
      PostorderResume h a travStack (visited ++ [a]) r := by
  cases travStack with
  | nil => exact ends_exit_iff (by simp only [postorderBody, hx, if_pos hq])
  | cons top travStack => exact ends_again_iff (by simp only [postorderBody, hx, if_pos hq])

/-- From the top of a subtree its nodes are visited in post-order, when the last node visited
before is none of those below the top. -/
theorem ends_postorder {h : Heap (BSTNode α)} {a : ℕ} {t : BST ℕ} (ht : Segment h (some a) t none)
    (hnd : (BST.inorder t).Nodup) {q : Option ℕ} (hq : ∀ b ∈ BST.inorder t, b ≠ a → q ≠ some b)
    (travStack visited : List ℕ) (res : Option (List ℕ)) :
    Ends (postorderBody h) ⟨.descend a, q, travStack, visited⟩ res ↔
      PostorderResume h a travStack (visited ++ visits postOrder t) res := by
  induction t generalizing a q travStack visited with
  | null => exact absurd ht (by simp [Segment])
  | node b l r ihl ihr =>
    obtain ⟨hab, x, hx, hl, hr⟩ := ht
    obtain rfl : a = b := Option.some.inj hab
    obtain ⟨hndl, hndr, hal, har, hdisj⟩ := nodup_node.1 hnd
    -- the left subtree, after which the last node visited is still not in the right one
    have hleft : ∃ q', (∀ c ∈ BST.inorder r, q' ≠ some c) ∧
        (Ends (postorderBody h) ⟨.descend a, q, travStack, visited⟩ res ↔
          Ends (postorderBody h)
            ⟨.climb a, q', travStack, visited ++ visits postOrder l⟩ res) := by
      rcases hxl : x.left with _ | b
      · rw [hxl] at hl
        have hqr : ∀ c ∈ BST.inorder r, q ≠ some c :=
          fun c hc => hq c (by simp [hc]) (by rintro rfl; exact har hc)
        rw [hl.null_of_none, visits, List.append_nil]
        exact ⟨q, hqr, ends_again_iff (by simp only [postorderBody, hx, hxl])⟩
      · rw [hxl] at hl
        have hql : ∀ c ∈ BST.inorder l, c ≠ b → q ≠ some c :=
          fun c hc _ => hq c (by simp [hc]) (by rintro rfl; exact hal hc)
        have hround : postorderBody h ⟨.descend a, q, travStack, visited⟩ =
            .inl ⟨.descend b, q, a :: travStack, visited⟩ := by
          simp only [postorderBody, hx, hxl]
        refine ⟨some b, fun c hc hbc => ?_, ?_⟩
        · rw [Option.some.inj hbc] at hl
          exact hdisj c hl.mem hc
        · rw [ends_again_iff hround]
          exact ihl hl hndl hql (a :: travStack) visited
    obtain ⟨q', hq', hleft⟩ := hleft
    rw [hleft]
    have hvisits : visited ++ visits postOrder (.node a l r) =
        visited ++ visits postOrder l ++ visits postOrder r ++ [a] := by
      simp [visits, postOrder]
    rw [hvisits]
    rcases hxr : x.right with _ | c
    · rw [hxr] at hr
      rw [hr.null_of_none, visits, List.append_nil]
      exact ends_climb hx (.inl hxr) travStack _ res
    · rw [hxr] at hr
      have hne : ¬ (some c = none ∨ some c = q') := by
        rintro (h | h)
        · cases h
        · exact hq' c hr.mem h.symm
      have hround : postorderBody h
          ⟨.climb a, q', travStack, visited ++ visits postOrder l⟩ =
            .inl ⟨.outer (some c), q', a :: travStack, visited ++ visits postOrder l⟩ := by
        simp only [postorderBody, hx, hxr, if_neg hne]
      rw [ends_again_iff hround, ends_outer]
      refine (ihr hr hndr (fun d hd _ => hq' d hd) (a :: travStack) _).trans ?_
      exact ends_climb hx (.inr hxr) travStack _ res

/-! ### Whole trees -/

variable {h : Heap (BSTNode α)} {root : Option ℕ} {t : BST ℕ}

theorem TreeAt.iterativePreorder (ht : TreeAt h root t) :
    IterativePreorder h root (some (visits preOrder t)) := by
  have hleads := leads_preorder ht.segment [] []
  exact hleads.ends_iff.2 (.exit rfl)

theorem TreeAt.iterativeInorder (ht : TreeAt h root t) :
    IterativeInorder h root (some (visits inOrder t)) := by
  cases root with
  | none =>
    rw [ht.segment.null_of_none]
    exact .exit rfl
  | some p =>
    have hleads := leads_inorder ht.segment [] [] (.inl (by simp))
    exact .again rfl (hleads.ends_iff.2 (.exit rfl))

theorem TreeAt.iterativePostorder (ht : TreeAt h root t) :
    IterativePostorder h root (some (visits postOrder t)) := by
  cases root with
  | none =>
    rw [ht.segment.null_of_none]
    exact .exit rfl
  | some p =>
    have hq : ∀ b ∈ BST.inorder t, b ≠ p → some p ≠ some b := by
      intro b _ hb hpb
      exact hb (Option.some.inj hpb).symm
    exact .again rfl ((ends_postorder ht.segment ht.nodup hq [] [] _).2 rfl)

/-- The traversals with a stack end, without a `pop` of an empty stack, and visit what the
recursive ones visit. -/
theorem iterative_traversals (h : Heap (BSTNode α)) (root : Option ℕ) (t : BST ℕ)
    (ht : TreeAt h root t) :
    (∃ vs, IterativePreorder h root (some vs) ∧ Preorder h root vs) ∧
      (∃ vs, IterativeInorder h root (some vs) ∧ Inorder h root vs) ∧
      ∃ vs, IterativePostorder h root (some vs) ∧ Postorder h root vs :=
  ⟨⟨_, ht.iterativePreorder, ht.segment.recursive⟩, ⟨_, ht.iterativeInorder, ht.segment.recursive⟩,
    ⟨_, ht.iterativePostorder, ht.segment.recursive⟩⟩

theorem iterative_traversals_small :
    (∃ vs, IterativePreorder smallHeap (some 2) (some vs) ∧ Preorder smallHeap (some 2) vs) ∧
      (∃ vs, IterativeInorder smallHeap (some 2) (some vs) ∧ Inorder smallHeap (some 2) vs) ∧
      ∃ vs, IterativePostorder smallHeap (some 2) (some vs) ∧ Postorder smallHeap (some 2) vs :=
  iterative_traversals smallHeap (some 2) smallTree treeAt_small

end SchoolProjects.NameTree
