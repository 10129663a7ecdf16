import SchoolProjects.NameTree.Nodes

/-! The traversals of Morris (`genBST.h`), which make the last node of a left subtree lead back
to the node above it and cut this thread later. The three loops share the search for the
thread; each other loop is a place in the code of its own. A result `none` is the use of a
pointer that leads to no node. -/

namespace SchoolProjects.NameTree

open Loop

variable {α κ : Type*}

/-- The places in a traversal: the outer loop, the loop that looks for the end of the left
subtree of `p`, and what a traversal has besides. -/
inductive MorrisPlace (κ : Type*)
  | outer (p : Option ℕ)
  | walk (p tmp : ℕ)
  | extra (k : κ)

structure MorrisState (α κ : Type*) where
  place : MorrisPlace κ
  heap : Heap (BSTNode α)
  visited : List ℕ

/-- What a round leads to, or the nodes that are visited and the heap at the end. -/
abbrev MorrisNext (α κ : Type*) := MorrisState α κ ⊕ Option (List ℕ × Heap (BSTNode α))

/-- `a->right = p`. -/
def setRight (h : Heap (BSTNode α)) (a : ℕ) (p : Option ℕ) : Option (Heap (BSTNode α)) :=
  h.modify a fun x => { x with right := p }

/-- What the traversals do differently: the nodes that are visited at a node without left
child and where a thread is made, and what follows where a thread is found. -/
structure MorrisParts (α κ : Type*) where
  leaf : ℕ → List ℕ
  made : ℕ → List ℕ
  found : ℕ → ℕ → Heap (BSTNode α) → List ℕ → MorrisNext α κ
  extra : κ → Heap (BSTNode α) → List ℕ → MorrisNext α κ

def morrisBody (m : MorrisParts α κ) (s : MorrisState α κ) : MorrisNext α κ :=
  match s.place with
  | .outer none => .inr (some (s.visited, s.heap))
  | .outer (some p) =>
    match s.heap.read p with
    | none => .inr none
    | some x =>
      match x.left with
      | none => .inl ⟨.outer x.right, s.heap, s.visited ++ m.leaf p⟩
      | some left => .inl { s with place := .walk p left }
  | .walk p tmp =>
    match s.heap.read tmp with
    | none => .inr none
    | some x =>
      match x.right with
      | none =>
        -- make the rightmost node a temporary parent
        match setRight s.heap tmp (some p) with
        | none => .inr none
        | some heap =>
          match heap.read p with
          | none => .inr none
          | some y => .inl ⟨.outer y.left, heap, s.visited ++ m.made p⟩
      | some right =>
        if right = p then m.found p tmp s.heap s.visited
        else .inl { s with place := .walk p right }
  | .extra k => m.extra k s.heap s.visited

/-- `tmp->right = 0; p = p->right;`. -/
def cutThread (p tmp : ℕ) (heap : Heap (BSTNode α)) (visited : List ℕ) : MorrisNext α κ :=
  match setRight heap tmp none with
  | none => .inr none
  | some heap =>
    match heap.read p with
    | none => .inr none
    | some x => .inl ⟨.outer x.right, heap, visited⟩

def inorderParts (α : Type*) : MorrisParts α Empty where
  leaf p := [p]
  made _ := []
  found p tmp heap visited := cutThread p tmp heap (visited ++ [p])
  extra k := nomatch k

def preorderParts (α : Type*) : MorrisParts α Empty where
  leaf p := [p]
  made p := [p]
  found := cutThread
  extra k := nomatch k

/-- `MorrisInorder` ends with the result `r`. -/
def MorrisInorder (h : Heap (BSTNode α)) (root : Option ℕ)
    (r : Option (List ℕ × Heap (BSTNode α))) : Prop :=
  Ends (morrisBody (inorderParts α)) ⟨.outer root, h, []⟩ r

/-- `MorrisPreorder` ends with the result `r`. -/
def MorrisPreorder (h : Heap (BSTNode α)) (root : Option ℕ)
    (r : Option (List ℕ × Heap (BSTNode α))) : Prop :=
  Ends (morrisBody (preorderParts α)) ⟨.outer root, h, []⟩ r

/-! ### Threads -/

/-- The last node in order of a tree with the root `a`. -/
def rightmost : ℕ → BST ℕ → ℕ
  | a, .null => a
  | _, .node b _ r => rightmost b r

section Threads

variable {h : Heap (BSTNode α)} {x y : BSTNode α} {a b : ℕ} {p nx : Option ℕ} {l r t : BST ℕ}

/-- The heap after `a->right = p`. -/
def relinked (h : Heap (BSTNode α)) (hx : h.read a = some x) (p : Option ℕ) : Heap (BSTNode α) :=
  h.put a (some { x with right := p }) (Heap.lt_fresh hx)

theorem setRight_eq (hx : h.read a = some x) (p : Option ℕ) :
    setRight h a p = some (relinked h hx p) := Heap.modify_of_read _ hx

theorem read_relinked_self (hx : h.read a = some x) (p : Option ℕ) :
    (relinked h hx p).read a = some { x with right := p } := by
  rw [relinked, Heap.read_put, if_pos rfl]

theorem read_relinked_ne (hx : h.read a = some x) (p : Option ℕ) (hb : b ≠ a) :
    (relinked h hx p).read b = h.read b := by
  rw [relinked, Heap.read_put, if_neg hb]

/-- Setting the pointer back restores the heap. -/
theorem setRight_relinked (hx : h.read a = some x) (p : Option ℕ) :
    setRight (relinked h hx p) a x.right = some h := by
  rw [setRight_eq (read_relinked_self hx p), Option.some.injEq]
  refine Heap.ext (funext fun b => ?_) rfl
  by_cases hb : b = a
  · rw [hb, read_relinked_self, hx]
  · rw [read_relinked_ne _ _ hb, read_relinked_ne _ _ hb]

theorem rightmost_mem (b : ℕ) (l r : BST ℕ) : rightmost b r ∈ BST.inorder (.node b l r) := by
  induction r generalizing b l with
  | null => simp [rightmost]
  | node c l' r' _ ihr =>
    rw [BST.inorder_node]
    exact List.mem_append_right _ (List.mem_cons_of_mem _ (ihr c l'))

theorem Segment.rightmost (ht : Segment h p (.node b l r) nx) :
    ∃ y, h.read (rightmost b r) = some y ∧ y.right = nx := by
  induction r generalizing p b l with
  | null =>
    obtain ⟨-, x, hx, -, hr⟩ := ht
    exact ⟨x, hx, hr⟩
  | node c l' r' _ ihr =>
    obtain ⟨-, x, hx, -, hr⟩ := ht
    exact ihr hr

/-- The pointer behind the last node is the only one that a thread changes. -/
theorem Segment.relinked (ht : Segment h p (.node b l r) nx)
    (hnd : (BST.inorder (.node b l r)).Nodup) (hy : h.read (NameTree.rightmost b r) = some y)
    (nx' : Option ℕ) : Segment (relinked h hy nx') p (.node b l r) nx' := by
  induction r generalizing p b l with
  | null =>
    obtain ⟨hp, x, hx, hl, -⟩ := ht
    obtain ⟨-, -, hbl, -, -⟩ := nodup_node.1 hnd
    have hxy : x = y := Option.some.inj (hx.symm.trans hy)
    rw [hxy] at hl
    refine ⟨hp, _, read_relinked_self hy nx', hl.congr fun c hc => ?_, rfl⟩
    exact read_relinked_ne hy nx' (by rintro rfl; exact hbl hc)
  | node c l' r' _ ihr =>
    obtain ⟨hp, x, hx, hl, hr⟩ := ht
    obtain ⟨-, hndr, -, hbr, hdisj⟩ := nodup_node.1 hnd
    have hlast := rightmost_mem c l' r'
    refine ⟨hp, x, ?_, hl.congr fun d hd => ?_, ihr hr hndr hy⟩
    · exact (read_relinked_ne hy nx' (ne_of_mem_of_not_mem hlast hbr).symm).trans hx
    · exact read_relinked_ne hy nx' (ne_of_mem_of_not_mem hlast (hdisj d hd)).symm

/-- The search comes to the last node of the left subtree. -/
theorem leads_walk (m : MorrisParts α κ) (ht : Segment h (some b) (.node b l r) nx)
    (ha : a ∉ BST.inorder r) (visited : List ℕ) :
    Leads (morrisBody m) ⟨.walk a b, h, visited⟩ ⟨.walk a (rightmost b r), h, visited⟩ := by
  induction r generalizing b l with
  | null => exact .refl _
  | node c l' r' _ ihr =>
    obtain ⟨-, x, hx, -, hr⟩ := ht
    have hright : x.right = some c := hr.1
    have hca : c ≠ a := by
      rintro rfl
      exact ha (by simp)
    have hround : morrisBody m ⟨.walk a b, h, visited⟩ = .inl ⟨.walk a c, h, visited⟩ := by
      simp only [morrisBody, hx, hright, if_neg hca]
    rw [hright] at hr
    exact .again hround (ihr hr fun h => ha (by simp [h]))

/-- The nodes that are visited below a pointer, up to those of the last chain; `late` are
those that are visited where a thread is found. -/
def morrisVisits (m : MorrisParts α κ) (late : ℕ → BST ℕ → List ℕ) : BST ℕ → List ℕ
  | .null => []
  | .node a .null r => m.leaf a ++ morrisVisits m late r
  | .node a (.node b l' r') r =>
    m.made a ++ morrisVisits m late (.node b l' r') ++ late a (.node b l' r') ++
      morrisVisits m late r

/-- What a traversal does where a thread is found: it visits nodes, cuts the thread, and goes
on to the right. -/
def MorrisParts.Cuts (m : MorrisParts α κ) (late : ℕ → BST ℕ → List ℕ) : Prop :=
  ∀ ⦃h : Heap (BSTNode α)⦄ ⦃a b : ℕ⦄ ⦃l r : BST ℕ⦄ ⦃x y : BSTNode α⦄ (visited : List ℕ),
    h.read a = some x → Segment h x.left (.node b l r) none →
    (BST.inorder (.node b l r)).Nodup → a ∉ BST.inorder (.node b l r) →
    ∀ hy : h.read (rightmost b r) = some y, ∃ s,
      m.found a (rightmost b r) (relinked h hy (some a)) visited = .inl s ∧
        Leads (morrisBody m) s ⟨.outer x.right, h, visited ++ late a (.node b l r)⟩

/-- Below a pointer everything is visited and restored, and the traversal goes on with the
pointer behind the last node. -/
theorem leads_morris {m : MorrisParts α κ} {late : ℕ → BST ℕ → List ℕ} (hm : m.Cuts late)
    (ht : Segment h p t nx) (hnd : (BST.inorder t).Nodup) (visited : List ℕ) :
    Leads (morrisBody m) ⟨.outer p, h, visited⟩
      ⟨.outer nx, h, visited ++ morrisVisits m late t⟩ := by
  induction t generalizing h p nx visited with
  | null =>
    obtain rfl : p = nx := ht
    rw [morrisVisits, List.append_nil]
    exact .refl _
  | node a l r ihl ihr =>
    obtain ⟨rfl, x, hx, hl, hr⟩ := ht
    obtain ⟨hndl, hndr, hal, -, -⟩ := nodup_node.1 hnd
    cases l with
    | null =>
      have hleft : x.left = none := hl
      have hround : morrisBody m ⟨.outer (some a), h, visited⟩ =
          .inl ⟨.outer x.right, h, visited ++ m.leaf a⟩ := by
        simp only [morrisBody, hx, hleft]
      rw [morrisVisits, ← List.append_assoc]
      exact .again hround (ihr hr hndr _)
    | node b l' r' =>
      have hleft : x.left = some b := hl.1
      have hlb : Segment h (some b) (.node b l' r') none := hleft ▸ hl
      have har' : a ∉ BST.inorder r' := fun h => hal (by simp [h])
      obtain ⟨y, hy, hyright⟩ := hlb.rightmost
      have hne : a ≠ rightmost b r' := (ne_of_mem_of_not_mem (rightmost_mem b l' r') hal).symm
      have hx' : (relinked h hy (some a)).read a = some x := (read_relinked_ne hy _ hne).trans hx
      -- down to the last node of the left subtree, which becomes a thread
      have hdown : morrisBody m ⟨.outer (some a), h, visited⟩ = .inl ⟨.walk a b, h, visited⟩ := by
        simp only [morrisBody, hx, hleft]
      have hmade : morrisBody m ⟨.walk a (rightmost b r'), h, visited⟩ =
          .inl ⟨.outer (some b), relinked h hy (some a), visited ++ m.made a⟩ := by
        simp only [morrisBody, hy, hyright, setRight_eq hy, hx', hleft]
      have hthread := ihl (hlb.relinked hndl hy (some a)) hndl (visited ++ m.made a)
      generalize hv : visited ++ m.made a ++ morrisVisits m late (.node b l' r') = visited'
        at hthread
      -- back at the node through the thread
      have hagain : morrisBody m ⟨.outer (some a), relinked h hy (some a), visited'⟩ =
          .inl ⟨.walk a b, relinked h hy (some a), visited'⟩ := by
        simp only [morrisBody, hx', hleft]
      obtain ⟨s, hs, hcut⟩ := hm visited' hx hl hndl hal hy
      have hfound : morrisBody m ⟨.walk a (rightmost b r'), relinked h hy (some a), visited'⟩ =
          .inl s := by
        simp only [morrisBody, read_relinked_self, if_pos, hs]
      have hright := ihr hr hndr (visited' ++ late a (.node b l' r'))
      have hvisits : visited ++ morrisVisits m late (.node a (.node b l' r') r) =
          visited' ++ late a (.node b l' r') ++ morrisVisits m late r := by
        rw [← hv, morrisVisits]
        simp
      rw [hvisits]
      exact .again hdown ((leads_walk m hlb har' visited).trans (.again hmade (hthread.trans
        (.again hagain ((leads_walk m (hlb.relinked hndl hy (some a)) har' visited').trans
          (.again hfound (hcut.trans hright)))))))

/-- Cutting a thread restores the heap. -/
theorem cutThread_relinked {tmp : ℕ} (hx : h.read a = some x) (hy : h.read tmp = some y)
    (hright : y.right = none) (visited : List ℕ) : cutThread (κ := κ) a tmp
      (relinked h hy (some a)) visited = .inl ⟨.outer x.right, h, visited⟩ := by
  have hset := setRight_relinked hy (some a)
  rw [hright] at hset
  simp only [cutThread, hset, hx]

theorem Segment.right_of_rightmost (ht : Segment h p (.node b l r) nx)
    (hy : h.read (NameTree.rightmost b r) = some y) : y.right = nx := by
  obtain ⟨y', hy', hright⟩ := ht.rightmost
  rwa [Option.some.inj (hy.symm.trans hy')]

theorem inorderParts_cuts : (inorderParts α).Cuts fun a _ => [a] :=
  fun _ _ _ _ _ _ _ visited hx hl _ _ hy =>
    ⟨_, cutThread_relinked hx hy (hl.right_of_rightmost hy) (visited ++ [_]), .refl _⟩

theorem preorderParts_cuts : (preorderParts α).Cuts fun _ _ => [] := by
  intro h a b l r x y visited hx hl _ _ hy
  rw [List.append_nil]
  exact ⟨_, cutThread_relinked hx hy (hl.right_of_rightmost hy) visited, .refl _⟩

theorem morrisVisits_inorder (t : BST ℕ) :
    morrisVisits (inorderParts α) (fun a _ => [a]) t = visits inOrder t := by
  induction t with
  | null => rfl
  | node a l r ihl ihr =>
    cases l with
    | null => rw [morrisVisits, ihr]; rfl
    | node b l' r' =>
      rw [morrisVisits, ihl, ihr]
      simp [inorderParts, visits, inOrder]

theorem morrisVisits_preorder (t : BST ℕ) :
    morrisVisits (preorderParts α) (fun _ _ => []) t = visits preOrder t := by
  induction t with
  | null => rfl
  | node a l r ihl ihr =>
    cases l with
    | null => rw [morrisVisits, ihr]; rfl
    | node b l' r' =>
      rw [morrisVisits, ihl, ihr]
      simp [preorderParts, visits, preOrder]

end Threads

/-! ### `MorrisPostorder` -/

/-- The two loops over the chain from `p->left` to `p`: the first reverses it, and the second
visits its nodes and restores it. -/
inductive ChainPlace
  | reverse (p tmp q r : ℕ) (s : Option ℕ)
  | restore (p tmp q r : ℕ) (s : Option ℕ)

/-- `q = p->left, r = q->right, s = r->right`. -/
def chainStart (p tmp : ℕ) (heap : Heap (BSTNode α)) (visited : List ℕ) :
    MorrisNext α ChainPlace :=
  match (heap.read p).bind BSTNode.left with
  | none => .inr none
  | some q =>
    match (heap.read q).bind BSTNode.right with
    | none => .inr none
    | some r =>
      match heap.read r with
      | none => .inr none
      | some z => .inl ⟨.extra (.reverse p tmp q r z.right), heap, visited⟩

def chainBody (k : ChainPlace) (heap : Heap (BSTNode α)) (visited : List ℕ) :
    MorrisNext α ChainPlace :=
  match k with
  | .reverse p tmp q r s =>
    if r = p then
      match heap.read q with
      | none => .inr none
      | some x => .inl ⟨.extra (.restore p tmp q r x.right), heap, visited⟩
    else
      match setRight heap r (some q), s with
      | some heap, some s =>
        match heap.read s with
        | none => .inr none
        | some x => .inl ⟨.extra (.reverse p tmp r s x.right), heap, visited⟩
      | _, _ => .inr none
  | .restore p tmp q r s =>
    match heap.read p with
    | none => .inr none
    | some x =>
      if some q = x.left then cutThread p tmp heap (visited ++ [q])
      else
        match setRight heap q (some r), s with
        | some heap, some s =>
          match heap.read s with
          | none => .inr none
          | some x => .inl ⟨.extra (.restore p tmp s q x.right), heap, visited ++ [q]⟩
        | _, _ => .inr none

def postorderParts (α : Type*) : MorrisParts α ChainPlace where
  leaf _ := []
  made _ := []
  found := chainStart
  extra := chainBody

/-- `MorrisPostorder` ends with the result `r`; `el` is the name in the new node. -/
def MorrisPostorder (el : α) (h : Heap (BSTNode α)) (root : Option ℕ)
    (r : Option (List ℕ × Heap (BSTNode α))) : Prop :=
  Ends (morrisBody (postorderParts α))
    ⟨.outer (some h.fresh), h.alloc ⟨el, root, none⟩, []⟩ r

/-- The right pointers from `p` on go through `as` to `nx`. -/
def Chain (h : Heap (BSTNode α)) : Option ℕ → List ℕ → Option ℕ → Prop
  | p, [], nx => p = nx
  | p, a :: as, nx => p = some a ∧ ∃ x, h.read a = some x ∧ Chain h x.right as nx

/-- The nodes that lead to the last one in order. -/
def spine : BST ℕ → List ℕ
  | .null => []
  | .node a _ r => a :: spine r

section Chains

variable {h : Heap (BSTNode α)} {p nx : Option ℕ}

theorem Segment.chain {t : BST ℕ} (ht : Segment h p t nx) : Chain h p (spine t) nx := by
  induction t generalizing p with
  | null => exact ht
  | node a l r _ ihr =>
    obtain ⟨hp, x, hx, -, hr⟩ := ht
    exact ⟨hp, x, hx, ihr hr⟩

theorem spine_sublist (t : BST ℕ) : (spine t).Sublist (BST.inorder t) := by
  induction t with
  | null => exact List.Sublist.refl _
  | node a l r _ ihr => exact (ihr.cons_cons a).trans (List.sublist_append_right _ _)

theorem Chain.congr {h' : Heap (BSTNode α)} {as : List ℕ} (hc : Chain h p as nx)
    (hread : ∀ a ∈ as, h'.read a = h.read a) : Chain h' p as nx := by
  induction as generalizing p with
  | nil => exact hc
  | cons a as ih =>
    obtain ⟨hp, x, hx, hc⟩ := hc
    exact ⟨hp, x, (hread a (by simp)).trans hx, ih hc fun b hb => hread b (by simp [hb])⟩

/-- The first node of a chain that comes to a node. -/
theorem Chain.first {a : ℕ} {x : BSTNode α} {as : List ℕ} (hc : Chain h p as (some a))
    (hx : h.read a = some x) : ∃ r z, p = some r ∧ h.read r = some z ∧ (r = a ∨ r ∈ as) := by
  cases as with
  | nil => exact ⟨a, x, hc, hx, .inl rfl⟩
  | cons b as =>
    obtain ⟨hp, z, hz, -⟩ := hc
    exact ⟨b, z, hp, hz, .inr (by simp)⟩

/-- The first loop reverses the chain, and the second visits it backwards and restores it. -/
theorem leads_chain (tmp : ℕ) {a b q r : ℕ} {x y z : BSTNode α} {as : List ℕ}
    (hx : h.read a = some x) (hb : x.left = some b) (hc : Chain h (some r) as (some a))
    (hy : h.read q = some y) (hz : h.read r = some z) (hnd : as.Nodup) (ha : a ∉ as)
    (hbas : b ∉ as) (hq : q ∉ as) (visited : List ℕ) : Leads (morrisBody (postorderParts α))
      ⟨.extra (.reverse a tmp q r z.right), h, visited⟩
      ⟨.extra (.restore a tmp q r y.right), h, visited ++ as.reverse⟩ := by
  induction as generalizing h q r y z visited with
  | nil =>
    obtain rfl : r = a := Option.some.inj hc
    rw [List.reverse_nil, List.append_nil]
    exact .again (by simp only [morrisBody, postorderParts, chainBody, if_pos, hy]) (.refl _)
  | cons c as ih =>
    obtain ⟨hrc, z', hz', hc⟩ := hc
    obtain rfl : r = c := Option.some.inj hrc
    obtain rfl : z' = z := Option.some.inj (hz'.symm.trans hz)
    obtain ⟨hras, hnd⟩ := List.nodup_cons.1 hnd
    have hra : r ≠ a := by
      rintro rfl
      exact ha (by simp)
    have hrb : r ≠ b := by
      rintro rfl
      exact hbas (by simp)
    obtain ⟨s, w, hs, hw, hmem⟩ := hc.first hx
    have hsr : s ≠ r := by
      rintro rfl
      exact hmem.elim hra hras
    have hqr : q ≠ r := fun h => hq (by simp [h])
    -- the pointer of `r` is reversed, and the rest of the chain is as before
    have hself := read_relinked_self hz (some q)
    have hx' : (relinked h hz (some q)).read a = some x :=
      (read_relinked_ne hz _ hra.symm).trans hx
    have hw' : (relinked h hz (some q)).read s = some w := (read_relinked_ne hz _ hsr).trans hw
    have hc' : Chain (relinked h hz (some q)) (some s) as (some a) := by
      rw [← hs]
      exact hc.congr fun d hd => read_relinked_ne hz _ (by rintro rfl; exact hras hd)
    have hreverse : morrisBody (postorderParts α)
        ⟨.extra (.reverse a tmp q r z'.right), h, visited⟩ =
          .inl ⟨.extra (.reverse a tmp r s w.right), relinked h hz (some q), visited⟩ := by
      simp only [morrisBody, postorderParts, chainBody, if_neg hra, setRight_eq hz, hs, hw']
    have hrest := ih hx' hc' hself hw' hnd (fun h => ha (by simp [h])) (fun h => hbas (by simp [h]))
      hras visited
    -- on the way back `r` is visited and its pointer set as it was
    have hne : some r ≠ x.left := by
      rw [hb]
      exact fun h => hrb (Option.some.inj h)
    have hundo : setRight (relinked h hz (some q)) r (some s) = some h :=
      hs ▸ setRight_relinked hz (some q)
    have hrestore : morrisBody (postorderParts α)
        ⟨.extra (.restore a tmp r s (some q)), relinked h hz (some q), visited ++ as.reverse⟩ =
          .inl ⟨.extra (.restore a tmp q r y.right), h, visited ++ as.reverse ++ [r]⟩ := by
      simp only [morrisBody, postorderParts, chainBody, hx', if_neg hne, hundo, hy]
    rw [List.reverse_cons, ← List.append_assoc]
    exact .again hreverse (hrest.trans (.again hrestore (.refl _)))

theorem postorderParts_cuts : (postorderParts α).Cuts fun _ t => (spine t).reverse := by
  intro h a b l r x y visited hx hl hnd ha hy
  have hleft : x.left = some b := hl.1
  have hne : a ≠ rightmost b r := (ne_of_mem_of_not_mem (rightmost_mem b l r) ha).symm
  have hx' : (relinked h hy (some a)).read a = some x := (read_relinked_ne hy _ hne).trans hx
  obtain ⟨-, w, hw, hc⟩ := (hl.relinked hnd hy (some a)).chain
  obtain ⟨s, z, hs, hz, -⟩ := hc.first hx'
  obtain ⟨-, hndr, -, hbr, -⟩ := nodup_node.1 hnd
  have hspine := spine_sublist r
  have hbs : b ∉ spine r := fun h => hbr (hspine.subset h)
  have hfound : chainStart a (rightmost b r) (relinked h hy (some a)) visited =
      .inl ⟨.extra (.reverse a (rightmost b r) b s z.right), relinked h hy (some a), visited⟩ := by
    simp only [chainStart, hx', Option.bind_some, hleft, hw, hs, hz]
  refine ⟨_, hfound, ?_⟩
  have hchain := leads_chain (rightmost b r) hx' hleft (hs ▸ hc) hw hz (hndr.sublist hspine)
    (fun h => ha (by simp [hspine.subset h])) hbs hbs visited
  have hlast : morrisBody (postorderParts α)
      ⟨.extra (.restore a (rightmost b r) b s w.right), relinked h hy (some a),
        visited ++ (spine r).reverse⟩ =
        .inl ⟨.outer x.right, h, visited ++ (spine r).reverse ++ [b]⟩ := by
    simp only [morrisBody, postorderParts, chainBody, hx', hleft, if_pos,
      cutThread_relinked hx hy (hl.right_of_rightmost hy)]
  have hvisits : visited ++ (spine (.node b l r)).reverse =
      visited ++ (spine r).reverse ++ [b] := by
    simp [spine]
  simp only [hvisits]
  exact hchain.trans (.again hlast (.refl _))

end Chains

/-- The last chain is what is missing from the post-order. -/
theorem morrisVisits_postorder (t : BST ℕ) :
    morrisVisits (postorderParts α) (fun _ t => (spine t).reverse) t ++ (spine t).reverse =
      visits postOrder t := by
  induction t with
  | null => rfl
  | node a l r ihl ihr =>
    cases l with
    | null =>
      rw [morrisVisits, visits, postOrder, ← ihr]
      simp [postorderParts, spine, visits]
    | node b l' r' =>
      rw [morrisVisits, visits, postOrder, ← ihr, ← ihl]
      simp [postorderParts, spine]

/-! ### Whole trees -/

section Trees

variable {h : Heap (BSTNode α)} {root : Option ℕ} {t : BST ℕ}

/-- The new node of `MorrisPostorder` has the tree as its left subtree. -/
theorem TreeAt.alloc (ht : TreeAt h root t) (el : α) :
    Segment (h.alloc ⟨el, root, none⟩) (some h.fresh) (.node h.fresh t .null) none ∧
      (BST.inorder (.node h.fresh t .null)).Nodup := by
  have hfresh : h.fresh ∉ BST.inorder t := by
    intro hmem
    obtain ⟨x, hx⟩ := ht.segment.read hmem
    exact Heap.ne_fresh hx rfl
  have hread : (h.alloc ⟨el, root, none⟩).read h.fresh = some ⟨el, root, none⟩ := by
    rw [Heap.read_alloc, if_pos rfl]
  have hleft : Segment (h.alloc ⟨el, root, none⟩) root t none :=
    ht.segment.congr fun a ha => Heap.read_alloc_of_ne (ne_of_mem_of_not_mem ha hfresh)
  exact ⟨⟨rfl, _, hread, hleft, rfl⟩,
    nodup_node.2 ⟨ht.nodup, List.nodup_nil, hfresh, by simp, by simp⟩⟩

theorem TreeAt.morrisPostorder (ht : TreeAt h root t) (el : α) :
    MorrisPostorder el h root (some (visits postOrder t, h.alloc ⟨el, root, none⟩)) := by
  obtain ⟨hseg, hnd⟩ := ht.alloc el
  have hleads := leads_morris (postorderParts_cuts (α := α)) hseg hnd []
  have hvisits : morrisVisits (postorderParts α) (fun _ t => (spine t).reverse)
      (.node h.fresh t .null) = visits postOrder t := by
    have := morrisVisits_postorder (α := α) (.node h.fresh t .null)
    simpa [spine, visits, postOrder] using this
  rw [hvisits] at hleads
  exact hleads.ends_iff.2 (.exit rfl)

/-- The traversals of Morris end, visit what the recursive ones visit, and leave the nodes as
they were. -/
theorem morris_traversals (h : Heap (BSTNode α)) (root : Option ℕ) (t : BST ℕ)
    (ht : TreeAt h root t) (el : α) :
    (∃ vs, MorrisInorder h root (some (vs, h)) ∧ Inorder h root vs) ∧
      (∃ vs, MorrisPreorder h root (some (vs, h)) ∧ Preorder h root vs) ∧
      ∃ vs h', MorrisPostorder el h root (some (vs, h')) ∧ Postorder h root vs ∧
        ∀ a x, h.read a = some x → h'.read a = some x := by
  refine ⟨⟨visits inOrder t, ?_, ht.segment.recursive⟩, ⟨visits preOrder t, ?_,
    ht.segment.recursive⟩, _, _, ht.morrisPostorder el, ht.segment.recursive, fun a x hx => ?_⟩
  · have hleads := leads_morris (inorderParts_cuts (α := α)) ht.segment ht.nodup []
    rw [morrisVisits_inorder] at hleads
    exact hleads.ends_iff.2 (.exit rfl)
  · have hleads := leads_morris (preorderParts_cuts (α := α)) ht.segment ht.nodup []
    rw [morrisVisits_preorder] at hleads
    exact hleads.ends_iff.2 (.exit rfl)
  · rw [Heap.read_alloc_of_ne (Heap.ne_fresh hx), hx]

theorem morris_traversals_small :
    (∃ vs, MorrisInorder smallHeap (some 2) (some (vs, smallHeap)) ∧
      Inorder smallHeap (some 2) vs) ∧
    (∃ vs, MorrisPreorder smallHeap (some 2) (some (vs, smallHeap)) ∧
      Preorder smallHeap (some 2) vs) ∧
    ∃ vs h', MorrisPostorder 0 smallHeap (some 2) (some (vs, h')) ∧
      Postorder smallHeap (some 2) vs ∧
      ∀ a x, smallHeap.read a = some x → h'.read a = some x :=
  morris_traversals smallHeap (some 2) smallTree treeAt_small 0

end Trees

end SchoolProjects.NameTree
