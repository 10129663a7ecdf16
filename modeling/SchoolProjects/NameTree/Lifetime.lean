import SchoolProjects.NameTree.Deletions
import SchoolProjects.NameTree.Menu
import SchoolProjects.NameTree.Stacks

/-! An object of the class `BST` from its construction to its destruction. In every sequence of
calls no pointer is used that leads to no node, no node is freed twice or lost, and the nodes
hold the tree of the pure model. Without mirrors the object is a sorted list with repetitions,
however the names were put in and taken out. -/

namespace SchoolProjects.NameTree

open BST (height inorder)
open TreeState (Answer)

/-- The methods that change the object. -/
inductive Method (α : Type*)
  | insert (el : α)
  | recursiveInsert (el : α)
  | findAndDeleteByCopying (el : α)
  | findAndDeleteByMerging (el : α)
  | reverseTree
  | clear

variable {α : Type*} [LinearOrder α]

/-- A call, with what it prints. -/
def TreeState.call (fuel : ℕ) (s : TreeState α) :
    Method α → Option (TreeState α × Option Answer)
  | .insert el => (s.insert fuel el).map fun s => (s, none)
  | .recursiveInsert el => (s.recursiveInsert fuel .root el).map fun s => (s, none)
  | .findAndDeleteByCopying el =>
    (s.findAndDeleteByCopying fuel el).map fun (s, a) => (s, some a)
  | .findAndDeleteByMerging el =>
    (s.findAndDeleteByMerging fuel el).map fun (s, a) => (s, some a)
  | .reverseTree => (s.reverseTree fuel).map fun s => (s, none)
  | .clear => (s.clear fuel).map fun s => (s, none)

/-- The constructor `BST()`. -/
def TreeState.new : TreeState α := ⟨Heap.empty, none⟩

/-- One call after the others, and all that is printed. -/
def TreeState.calls (fuel : ℕ) (s : TreeState α × List Answer) (m : Method α) :
    Option (TreeState α × List Answer) :=
  (s.1.call fuel m).map fun (s', a) => (s', s.2 ++ a.toList)

/-! ### The pure model -/

def BST.call (t : BST α) : Method α → BST α
  | .insert el => BST.insert el t
  | .recursiveInsert el => BST.insert el t
  | .findAndDeleteByCopying el => BST.findAndDeleteByCopying el t
  | .findAndDeleteByMerging el => BST.findAndDeleteByMerging el t
  | .reverseTree => BST.reverseTree t
  | .clear => .null

/-- What a deletion prints. -/
def BST.answer (t : BST α) (el : α) : Answer :=
  if (BST.search el t).isSome then .deleted else if t = .null then .treeEmpty else .notInTree

def BST.prints (t : BST α) : Method α → Option Answer
  | .findAndDeleteByCopying el => some (t.answer el)
  | .findAndDeleteByMerging el => some (t.answer el)
  | _ => none

def BST.calls (t : BST α × List Answer) (m : Method α) : BST α × List Answer :=
  (t.1.call m, t.2 ++ (t.1.prints m).toList)

variable {s s' : TreeState α} {t : BST (Cell α)} {el : α} {fuel : ℕ}

theorem isSome_search_iff (el : α) (P : Place (Cell α)) (t : BST (Cell α)) :
    (BST.search el (BST.map Prod.snd t)).isSome ↔ (nodePlace el P t).2 ≠ .null := by
  induction t generalizing P with
  | null => simp [BST.map, BST.search, nodePlace]
  | node c l r ihl ihr =>
    rw [BST.map, BST.search, nodePlace]
    simp only [eq_comm (a := el)]
    split_ifs
    · simp
    · exact ihl _
    · exact ihr _

theorem answerAt_nodePlace (t : BST (Cell α)) :
    answerAt (nodePlace el .top t).2 t = (BST.map Prod.snd t).answer el := by
  have hsearch := isSome_search_iff el .top t
  rw [BST.answer]
  cases hfound : (nodePlace el .top t).2 with
  | node c l r => rw [if_pos (hsearch.2 (by simp [hfound])), answerAt]
  | null =>
    rw [if_neg fun h => hsearch.1 h hfound]
    cases t with
    | null => rw [BST.map, if_pos rfl, answerAt]
    | node c l r => rw [BST.map, if_neg (by simp), answerAt]

/-- A deletion at the node that is found is a deletion in the tree of names. -/
theorem map_findAndDelete {left : BST (Cell α) → BST (Cell α)} {D F : BST α → BST α}
    (hleft : ∀ u, BST.map Prod.snd (left u) = D (BST.map Prod.snd u)) (hD : D .null = .null)
    (hnull : F .null = .null) (hnode : ∀ p l r, F (.node p l r) =
      if p = el then D (.node p l r) else if el < p then .node p (F l) r else .node p l (F r))
    (P : Place (Cell α)) (t : BST (Cell α)) :
    BST.map Prod.snd ((nodePlace el P t).1.fill (left (nodePlace el P t).2)) =
      (P.map Prod.snd).fill (F (BST.map Prod.snd t)) := by
  induction t generalizing P with
  | null => rw [nodePlace, P.map_fill, hleft, BST.map, hD, hnull]
  | node c l r ihl ihr =>
    rw [nodePlace, BST.map, hnode]
    split_ifs
    · rw [P.map_fill, hleft, BST.map]
    · exact ihl _
    · exact ihr _

theorem map_deleteByMerging {β γ : Type*} (f : β → γ) (t : BST β) :
    BST.map f (BST.deleteByMerging t) = BST.deleteByMerging (BST.map f t) := by
  have hattach (u v : BST β) :
      BST.map f (BST.attach u v) = BST.attach (BST.map f u) (BST.map f v) := by
    induction v with
    | null => rfl
    | node x l r _ ihr => simp [BST.attach, BST.map, ihr]
  cases t with
  | null => rfl
  | node x l r => rw [BST.deleteByMerging_node, hattach, BST.map, BST.deleteByMerging_node]

theorem map_reverseTree {β γ : Type*} (f : β → γ) (t : BST β) :
    BST.map f (BST.reverseTree t) = BST.reverseTree (BST.map f t) := by
  induction t with
  | null => rfl
  | node x l r ihl ihr => simp [BST.reverseTree, BST.map, ihl, ihr]

/-! ### One call -/

/-- The nodes of the object after a call. -/
def cellsAfter (fresh : ℕ) (t : BST (Cell α)) : Method α → BST (Cell α)
  | .insert el => inserted el fresh .top t
  | .recursiveInsert el => inserted el fresh .top t
  | .findAndDeleteByCopying el => (nodePlace el .top t).1.fill (copied (nodePlace el .top t).2)
  | .findAndDeleteByMerging el =>
    (nodePlace el .top t).1.fill (BST.deleteByMerging (nodePlace el .top t).2)
  | .reverseTree => BST.reverseTree t
  | .clear => .null

theorem map_cellsAfter (fresh : ℕ) (t : BST (Cell α)) (m : Method α) :
    BST.map Prod.snd (cellsAfter fresh t m) = (BST.map Prod.snd t).call m := by
  cases m with
  | insert el => exact map_inserted fresh .top t
  | recursiveInsert el => exact map_inserted fresh .top t
  | findAndDeleteByCopying el =>
    exact map_findAndDelete map_copied rfl rfl (fun _ _ _ => rfl) .top t
  | findAndDeleteByMerging el =>
    exact map_findAndDelete (map_deleteByMerging Prod.snd) rfl rfl (fun _ _ _ => rfl) .top t
  | reverseTree => exact map_reverseTree Prod.snd t
  | clear => rfl

/-- Every call is defined, and does in memory what it does in the pure model. -/
theorem Owns.call (h : Owns s t) (hf : height t < fuel) (m : Method α) : ∃ s',
    s.call fuel m = some (s', (BST.map Prod.snd t).prints m) ∧
      Owns s' (cellsAfter s.heap.fresh t m) := by
  cases m with
  | insert el =>
    obtain ⟨s', hs', howns⟩ := h.insert el hf
    exact ⟨s', by rw [TreeState.call, hs']; rfl, howns⟩
  | recursiveInsert el =>
    obtain ⟨s', hs', howns⟩ := h.focused.recursiveInsert el hf
    have hrun : s.recursiveInsert fuel .root el = some s' := hs'
    exact ⟨s', by rw [TreeState.call, hrun]; rfl, howns⟩
  | findAndDeleteByCopying el =>
    obtain ⟨s', hs', howns⟩ := Owns.findAndDelete
      (fun _ _ _ _ _ _ hfocus hle => hfocus.deleteByCopying hle) rfl h el hf
    rw [answerAt_nodePlace] at hs'
    refine ⟨s', ?_, howns⟩
    rw [TreeState.call, TreeState.findAndDeleteByCopying, hs']
    rfl
  | findAndDeleteByMerging el =>
    obtain ⟨s', hs', howns⟩ := Owns.findAndDelete
      (fun _ _ _ _ _ _ hfocus hle => hfocus.deleteByMerging hle) rfl h el hf
    rw [answerAt_nodePlace] at hs'
    refine ⟨s', ?_, howns⟩
    rw [TreeState.call, TreeState.findAndDeleteByMerging, hs']
    rfl
  | reverseTree =>
    obtain ⟨s', hs', howns⟩ := h.reverseTree hf
    exact ⟨s', by rw [TreeState.call, hs']; rfl, howns⟩
  | clear =>
    obtain ⟨s', hs', howns⟩ := h.clear hf
    exact ⟨s', by rw [TreeState.call, hs']; rfl, howns⟩

/-! ### Pointers that stay -/

/-- The calls after which a pointer to a node with the name `e` still leads to it. -/
def Method.Keeps (e : α) : Method α → Prop
  | .insert _ => True
  | .recursiveInsert _ => True
  | .findAndDeleteByCopying _ => False
  | .findAndDeleteByMerging el => el ≠ e
  | .reverseTree => True
  | .clear => False

/-- Merging takes out the node that is found, and no other. -/
theorem inorder_merged_perm (el : α) (t : BST (Cell α)) :
    cellsAfter 0 t (.findAndDeleteByMerging el) = t ∨ ∃ c, c.2 = el ∧
      (inorder t).Perm (c :: inorder (cellsAfter 0 t (.findAndDeleteByMerging el))) := by
  have hfill := fill_nodePlace el .top t
  rw [cellsAfter]
  cases hplace : nodePlace el .top t with
  | mk P u =>
    rw [hplace] at hfill
    cases u with
    | null => exact .inl hfill
    | node c l r =>
      refine .inr ⟨c, eq_of_nodePlace hplace, ?_⟩
      have hbefore := P.inorder_fill_perm (.node c l r)
      have hafter := P.inorder_fill_perm (BST.deleteByMerging (.node c l r))
      rw [show P.fill (.node c l r) = t from hfill] at hbefore
      refine hbefore.trans (List.Perm.trans ?_ (hafter.cons c).symm)
      rw [BST.deleteByMerging_node, BST.inorder_attach, BST.inorder_node, List.append_assoc,
        List.cons_append, List.append_assoc]
      exact List.perm_middle

theorem mem_cellsAfter_of_keeps (fresh : ℕ) {m : Method α} {c : Cell α} (hm : m.Keeps c.2)
    (hc : c ∈ inorder t) : c ∈ inorder (cellsAfter fresh t m) := by
  cases m with
  | insert el =>
    exact (inorder_inserted_perm fresh .top t).mem_iff.2 (List.mem_cons_of_mem _ hc)
  | recursiveInsert el =>
    exact (inorder_inserted_perm fresh .top t).mem_iff.2 (List.mem_cons_of_mem _ hc)
  | findAndDeleteByCopying el => exact hm.elim
  | findAndDeleteByMerging el =>
    rcases inorder_merged_perm el t with heq | ⟨d, hd, hperm⟩
    · rw [show cellsAfter fresh t (.findAndDeleteByMerging el) = t from heq]
      exact hc
    · rcases List.mem_cons.1 (hperm.mem_iff.1 hc) with rfl | hmem
      · exact absurd hd.symm hm
      · exact hmem
  | reverseTree => simpa [cellsAfter] using hc
  | clear => exact hm.elim

/-- The search comes to the place of a deletion. -/
theorem findCell_nodePlace (el : α) (P : Place (Cell α)) (t : BST (Cell α)) :
    (nodePlace el P t).2 = .null ∧ findCell el t = none ∨
      ∃ c l r, (nodePlace el P t).2 = .node c l r ∧ findCell el t = some c := by
  induction t generalizing P with
  | null => exact .inl ⟨rfl, rfl⟩
  | node c l r ihl ihr =>
    rw [nodePlace, findCell]
    simp only [eq_comm (a := el)]
    split_ifs
    · exact .inr ⟨c, l, r, rfl, rfl⟩
    · exact ihl _
    · exact ihr _

/-- The node `d` goes, or another one goes and its name moves to `d`. -/
def Moved (d : Cell α) (cells cells' : List (Cell α)) : Prop :=
  cells.Perm (d :: cells') ∨
    ∃ x rest, cells.Perm (d :: x :: rest) ∧ cells'.Perm ((d.1, x.2) :: rest)

omit [LinearOrder α] in
theorem moved_copied (d : Cell α) (l r : BST (Cell α)) :
    Moved d (inorder (.node d l r)) (inorder (copied (.node d l r))) := by
  cases r with
  | null =>
    refine .inl ?_
    rw [show copied (.node d l .null) = l by cases l <;> rfl, BST.inorder_node]
    simp
  | node cr lr rr =>
    cases l with
    | null => exact .inl (List.Perm.refl _)
    | node c l' r' =>
      have htake := BST.inorder_takeLast c l' r'
      have hcopied : copied (.node d (.node c l' r') (.node cr lr rr)) =
          .node (d.1, (BST.takeLast c l' r').1.2) (BST.takeLast c l' r').2
            (.node cr lr rr) := rfl
      refine .inr ⟨(BST.takeLast c l' r').1,
        inorder (BST.takeLast c l' r').2 ++ inorder (.node cr lr rr), ?_, ?_⟩
      · rw [BST.inorder_node, ← htake, List.append_assoc]
        exact List.perm_middle.trans ((List.perm_middle.cons _).trans (List.Perm.swap _ _ _))
      · rw [hcopied, BST.inorder_node]
        exact List.perm_middle

/-- Copying leaves all nodes as they are but those that the deletion moves. -/
theorem cellsAfter_copying (el : α) (fresh : ℕ) (t : BST (Cell α)) :
    findCell el t = none ∧ cellsAfter fresh t (.findAndDeleteByCopying el) = t ∨
      ∃ d, findCell el t = some d ∧ Moved d (inorder t)
        (inorder (cellsAfter fresh t (.findAndDeleteByCopying el))) := by
  have hfill := fill_nodePlace el .top t
  rw [cellsAfter]
  generalize hu : nodePlace el .top t = place at hfill
  obtain ⟨P, u⟩ := place
  have hfind := findCell_nodePlace el .top t
  rw [hu] at hfind
  obtain rfl : P.fill u = t := hfill
  rcases hfind with ⟨rfl, hnone⟩ | ⟨d, l, r, rfl, hsome⟩
  · exact .inl ⟨hnone, rfl⟩
  · refine .inr ⟨d, hsome, ?_⟩
    have hbefore := P.inorder_fill_perm (.node d l r)
    have hafter := P.inorder_fill_perm (copied (.node d l r))
    rcases moved_copied d l r with hperm | ⟨x, rest, hperm, hperm'⟩
    · exact .inl (hbefore.trans ((hperm.append_right _).trans (hafter.symm.cons d)))
    · exact .inr ⟨x, rest ++ P.labels, hbefore.trans (hperm.append_right _),
        hafter.trans (hperm'.append_right _)⟩

omit [LinearOrder α] in
/-- One node is freed; but for it and the one that is found all keep their names. -/
theorem Owns.name_moved {s₁ : TreeState α} {t₁ : BST (Cell α)} (h : Owns s t) (h₁ : Owns s₁ t₁)
    {d : Cell α} (hd : Moved d (inorder t) (inorder t₁)) :
    ∃ f, (s.name f).isSome ∧ s₁.name f = none ∧
      (∀ a, a ≠ d.1 → a ≠ f → s₁.name a = s.name a) ∧ (d.1 ≠ f → s₁.name d.1 = s.name f) := by
  have hname := h.name_eq_some_iff
  have hname₁ := h₁.name_eq_some_iff
  have hnodup : ((inorder t).map Prod.fst).Nodup := h.nodup
  rcases hd with hperm | ⟨x, rest, hperm, hperm₁⟩
  · rw [(hperm.map Prod.fst).nodup_iff, List.map_cons, List.nodup_cons] at hnodup
    have hmem : ∀ c, c ∈ inorder t ↔ c = d ∨ c ∈ inorder t₁ := fun c => by
      rw [hperm.mem_iff, List.mem_cons]
    refine ⟨d.1, ?_, ?_, fun a ha _ => Option.ext fun e => ?_, fun hne => absurd rfl hne⟩
    · rw [(hname d.1 d.2).2 ((hmem d).2 (.inl rfl))]
      rfl
    · refine Option.eq_none_iff_forall_ne_some.2 fun e he => hnodup.1 ?_
      exact List.mem_map.2 ⟨(d.1, e), (hname₁ d.1 e).1 he, rfl⟩
    · rw [hname₁, hname, hmem]
      exact (or_iff_right fun heq => ha (congrArg Prod.fst heq)).symm
  · rw [(hperm.map Prod.fst).nodup_iff, List.map_cons, List.map_cons, List.nodup_cons,
      List.nodup_cons] at hnodup
    obtain ⟨hdx, hx, -⟩ := hnodup
    rw [List.mem_cons, not_or] at hdx
    have hmem : ∀ c, c ∈ inorder t ↔ c = d ∨ c = x ∨ c ∈ rest := fun c => by
      rw [hperm.mem_iff, List.mem_cons, List.mem_cons]
    have hmem₁ : ∀ c, c ∈ inorder t₁ ↔ c = (d.1, x.2) ∨ c ∈ rest := fun c => by
      rw [hperm₁.mem_iff, List.mem_cons]
    have hxname : s.name x.1 = some x.2 := (hname x.1 x.2).2 ((hmem x).2 (.inr (.inl rfl)))
    refine ⟨x.1, by rw [hxname]; rfl, ?_, fun a ha hax => Option.ext fun e => ?_, fun _ => ?_⟩
    · refine Option.eq_none_iff_forall_ne_some.2 fun e he => ?_
      rcases (hmem₁ _).1 ((hname₁ x.1 e).1 he) with heq | hrest
      · exact hdx.1 (congrArg Prod.fst heq).symm
      · exact hx (List.mem_map.2 ⟨(x.1, e), hrest, rfl⟩)
    · rw [hname₁, hname, hmem, hmem₁, or_iff_right fun heq => ha (congrArg Prod.fst heq),
        or_iff_right fun heq => ha (congrArg Prod.fst heq),
        or_iff_right fun heq => hax (congrArg Prod.fst heq)]
    · rw [hxname]
      exact (hname₁ d.1 x.2).2 ((hmem₁ _).2 (.inl rfl))

/-! ### All calls -/

omit [LinearOrder α] in
theorem height_le_length (t : BST α) : height t ≤ (inorder t).length := by
  induction t with
  | null => exact le_rfl
  | node x l r ihl ihr =>
    simp only [height, BST.inorder_node, List.length_append, List.length_cons]
    omega

theorem length_call_le (t : BST α) (m : Method α) :
    (inorder (t.call m)).length ≤ (inorder t).length + 1 := by
  have hdelete (el : α) := (BST.inorder_findAndDelete_sublist el t).length_le
  cases m with
  | insert el => exact (BST.inorder_insert_perm el t).length_eq.le
  | recursiveInsert el => exact (BST.inorder_insert_perm el t).length_eq.le
  | findAndDeleteByCopying el => exact (hdelete el).trans (Nat.le_succ _)
  | findAndDeleteByMerging el =>
    rw [BST.call, BST.inorder_findAndDeleteByMerging]
    exact (hdelete el).trans (Nat.le_succ _)
  | reverseTree => simp [BST.call]
  | clear => simp [BST.call]

omit [LinearOrder α] in
theorem owns_new : Owns (TreeState.new : TreeState α) .null where
  linked := rfl
  nodup := List.nodup_nil
  only a ha := absurd ha (by simp [TreeState.name, TreeState.new, Heap.empty])

/-- The calls of a list, from any object that is a tree. -/
theorem Owns.calls (h : Owns s t) (out : List Answer) (ms : List (Method α))
    (hf : (inorder t).length + ms.length < fuel) : ∃ s' cells,
      ms.foldlM (TreeState.calls fuel) (s, out) =
        some (s', (ms.foldl BST.calls (BST.map Prod.snd t, out)).2) ∧
      Owns s' cells ∧
      BST.map Prod.snd cells = (ms.foldl BST.calls (BST.map Prod.snd t, out)).1 ∧
      (inorder cells).length ≤ (inorder t).length + ms.length ∧
      ∀ e, (∀ m ∈ ms, m.Keeps e) → ∀ a, s.name a = some e → s'.name a = some e := by
  induction ms generalizing s t out with
  | nil => exact ⟨s, t, rfl, h, rfl, le_rfl, fun _ _ _ ha => ha⟩
  | cons m ms ih =>
    have hle := height_le_length t
    rw [List.length_cons] at hf
    obtain ⟨s₁, hs₁, howns⟩ := h.call (show height t < fuel by omega) m
    have hmap := map_cellsAfter s.heap.fresh t m
    have hlen := length_call_le (BST.map Prod.snd t) m
    rw [← hmap, BST.inorder_map, BST.inorder_map, List.length_map, List.length_map] at hlen
    obtain ⟨s', cells, hrun, howns', hcells, hcount, hname⟩ :=
      ih howns (out ++ ((BST.map Prod.snd t).prints m).toList) (by omega)
    rw [hmap] at hrun hcells
    refine ⟨s', cells, ?_, howns', hcells, ?_, fun e hkeeps a ha => ?_⟩
    · rw [List.foldlM_cons, TreeState.calls, hs₁]
      exact hrun
    · rw [List.length_cons]
      omega
    · have hm : m.Keeps e := hkeeps m (by simp)
      have hcell : (a, e) ∈ inorder t := (h.name_eq_some_iff a e).1 ha
      have hcell₁ := mem_cellsAfter_of_keeps s.heap.fresh hm hcell
      exact hname e (fun m' hm' => hkeeps m' (by simp [hm'])) a
        ((howns.name_eq_some_iff a e).2 hcell₁)

omit [LinearOrder α] in
theorem Linked.segment {h : Heap (BSTNode α)} {p : Option ℕ} (ht : Linked h p t) :
    Segment h p (BST.map Prod.fst t) none := by
  induction t generalizing p with
  | null => exact ht
  | node c l r ihl ihr =>
    obtain ⟨hp, x, hx, -, hl, hr⟩ := ht
    exact ⟨hp, x, hx, ihl hl, ihr hr⟩

omit [LinearOrder α] in
/-- The object is a tree in the sense of the traversals. -/
theorem Owns.treeAt (h : Owns s t) : TreeAt s.heap s.root (BST.map Prod.fst t) where
  segment := h.linked.segment
  nodup := by
    rw [BST.inorder_map]
    exact h.nodup

/-- In every sequence of calls on a new object all pointers lead to nodes, the heap is the tree
of the pure model and nothing else, the same is printed, a search comes to a node with the
name, and the destructor leaves no node. -/
theorem object_refines_tree (ms : List (Method α)) (more : ℕ) :
    ∃ s cells, ms.foldlM (TreeState.calls (ms.length + 1 + more)) (.new, []) =
        some (s, (ms.foldl BST.calls (.null, [])).2) ∧
      Owns s cells ∧ BST.map Prod.snd cells = (ms.foldl BST.calls (.null, [])).1 ∧
      (∀ el, ∃ p, TreeState.search s.heap el (ms.length + 1 + more) s.root = some p ∧
        p.bind s.name = BST.search el (ms.foldl BST.calls (.null, [])).1) ∧
      ∃ s', s.clear (ms.length + 1 + more) = some s' ∧ ∀ a, s'.heap.read a = none := by
  obtain ⟨s, cells, hrun, howns, hcells, hcount, -⟩ :=
    owns_new.calls [] ms (show 0 + ms.length < ms.length + 1 + more by omega)
  have hheight : height cells < ms.length + 1 + more := by
    have hle := height_le_length cells
    simp only [BST.inorder_null, List.length_nil] at hcount
    omega
  refine ⟨s, cells, hrun, howns, hcells, fun el => ?_, ?_⟩
  · refine ⟨_, howns.linked.search hheight, ?_⟩
    change _ = BST.search el (ms.foldl BST.calls (BST.map Prod.snd (.null : BST (Cell α)), [])).1
    rw [← hcells, ← map_findCell]
    cases hfind : findCell el cells with
    | none => rfl
    | some c => exact (howns.name_eq_some_iff c.1 c.2).2 (mem_of_findCell hfind).1
  · obtain ⟨s', hclear, hempty⟩ := howns.clear hheight
    refine ⟨s', hclear, fun a => ?_⟩
    by_contra ha
    have hmem := hempty.only a (by
      rw [TreeState.name, Option.isSome_map]
      exact Option.isSome_iff_ne_none.2 ha)
    simp at hmem

/-! ### The sorted list -/

/-- The names put in and not taken out. -/
def bagCall (b : Multiset α) : Method α → Multiset α
  | .insert el => el ::ₘ b
  | .recursiveInsert el => el ::ₘ b
  | .findAndDeleteByCopying el => b.erase el
  | .findAndDeleteByMerging el => b.erase el
  | .reverseTree => b
  | .clear => 0

def bagAnswer (b : Multiset α) (el : α) : Answer :=
  if el ∈ b then .deleted else if b = 0 then .treeEmpty else .notInTree

def bagPrints (b : Multiset α) : Method α → Option Answer
  | .findAndDeleteByCopying el => some (bagAnswer b el)
  | .findAndDeleteByMerging el => some (bagAnswer b el)
  | _ => none

def bagCalls (b : Multiset α × List Answer) (m : Method α) : Multiset α × List Answer :=
  (bagCall b.1 m, b.2 ++ (bagPrints b.1 m).toList)

section Bag

variable {t : BST α}

omit [LinearOrder α] in
theorem names_eq_zero : BST.names t = 0 ↔ t = .null := by
  cases t with
  | null => simp
  | node x l r => simp [BST.names_node]

theorem answer_eq_bagAnswer (ht : BST.Ascending t) (el : α) :
    t.answer el = bagAnswer (BST.names t) el := by
  simp only [BST.answer, bagAnswer, ht.search_isSome el, names_eq_zero]

theorem prints_eq_bagPrints (ht : BST.Ascending t) (m : Method α) :
    t.prints m = bagPrints (BST.names t) m := by
  cases m with
  | findAndDeleteByCopying el => exact congrArg some (answer_eq_bagAnswer ht el)
  | findAndDeleteByMerging el => exact congrArg some (answer_eq_bagAnswer ht el)
  | _ => rfl

/-- Without a mirror the order stays, and the names are those of the bag. -/
theorem ascending_call (ht : BST.Ascending t) {m : Method α} (hm : m ≠ .reverseTree) :
    BST.Ascending (t.call m) ∧ BST.names (t.call m) = bagCall (BST.names t) m := by
  cases m with
  | insert el => exact ⟨ht.insert el, BST.names_insert el t⟩
  | recursiveInsert el => exact ⟨ht.insert el, BST.names_insert el t⟩
  | findAndDeleteByCopying el => exact ⟨ht.findAndDelete el, ht.names_findAndDelete el⟩
  | findAndDeleteByMerging el =>
    have heq := BST.inorder_findAndDeleteByMerging el t
    constructor
    · rw [BST.call, BST.Ascending, heq]
      exact ht.findAndDelete el
    · rw [BST.call, BST.names, heq]
      exact ht.names_findAndDelete el
  | reverseTree => exact absurd rfl hm
  | clear => exact ⟨List.Pairwise.nil, rfl⟩

theorem ascending_calls (ht : BST.Ascending t) (out : List Answer) {ms : List (Method α)}
    (hms : ∀ m ∈ ms, m ≠ .reverseTree) :
    BST.Ascending (ms.foldl BST.calls (t, out)).1 ∧
      (BST.names (ms.foldl BST.calls (t, out)).1, (ms.foldl BST.calls (t, out)).2) =
        ms.foldl bagCalls (BST.names t, out) := by
  induction ms generalizing t out with
  | nil => exact ⟨ht, rfl⟩
  | cons m ms ih =>
    obtain ⟨hasc, hnames⟩ := ascending_call ht (hms m (by simp))
    have hstep : bagCalls (BST.names t, out) m =
        (BST.names (t.call m), out ++ (t.prints m).toList) := by
      rw [bagCalls, hnames, prints_eq_bagPrints ht]
    rw [List.foldl_cons, List.foldl_cons, hstep]
    exact ih hasc _ fun m' hm' => hms m' (by simp [hm'])

/-- The traversal in order is the sorted list of the names. -/
theorem inorder_eq_sort (ht : BST.Ascending t) : inorder t = (BST.names t).sort (· ≤ ·) := by
  have hperm : (inorder t).Perm ((BST.names t).sort (· ≤ ·)) := by
    rw [← Multiset.coe_eq_coe, Multiset.sort_eq]
    rfl
  exact hperm.eq_of_pairwise' ht (Multiset.pairwise_sort _ _)

end Bag

/-- Without mirrors the object is a bag of names: it prints what the bag says, and each of the
three traversals in order lists the names of the bag in ascending order. -/
theorem object_refines_bag (ms : List (Method α)) (hms : ∀ m ∈ ms, m ≠ .reverseTree) (more : ℕ) :
    ∃ s vs, ms.foldlM (TreeState.calls (ms.length + 1 + more)) (.new, []) =
        some (s, (ms.foldl bagCalls (0, [])).2) ∧
      vs.map s.name = (((ms.foldl bagCalls (0, [])).1.sort (· ≤ ·)).map some) ∧
      Inorder s.heap s.root vs ∧ IterativeInorder s.heap s.root (some vs) ∧
      MorrisInorder s.heap s.root (some (vs, s.heap)) := by
  obtain ⟨s, cells, hrun, howns, hcells, -⟩ :=
    owns_new.calls [] ms (show 0 + ms.length < ms.length + 1 + more by omega)
  obtain ⟨hasc, hbag⟩ := ascending_calls (t := (.null : BST α)) List.Pairwise.nil [] hms
  have hout : (ms.foldl BST.calls ((.null : BST α), [])).2 = (ms.foldl bagCalls (0, [])).2 :=
    congrArg Prod.snd hbag
  have hnames : BST.names (ms.foldl BST.calls ((.null : BST α), [])).1 =
      (ms.foldl bagCalls (0, [])).1 := congrArg Prod.fst hbag
  refine ⟨s, addrs cells, by rw [hrun, ← hout]; rfl, ?_, ?_, ?_, ?_⟩
  · have hsort : inorder (BST.map Prod.snd cells) = (ms.foldl bagCalls (0, [])).1.sort (· ≤ ·) := by
      rw [hcells, ← hnames, ← inorder_eq_sort hasc]
      rfl
    rw [← hsort, BST.inorder_map, addrs, List.map_map, List.map_map]
    exact List.map_congr_left fun c hc => (howns.name_eq_some_iff c.1 c.2).2 hc
  · have hvisits : Recursive inOrder s.heap s.root (visits inOrder (BST.map Prod.fst cells)) :=
      howns.treeAt.segment.recursive
    rw [visits_inOrder, BST.inorder_map] at hvisits
    exact hvisits
  · have hvisits := howns.treeAt.iterativeInorder
    rw [visits_inOrder, BST.inorder_map] at hvisits
    exact hvisits
  · have hleads := leads_morris (inorderParts_cuts (α := α)) howns.treeAt.segment
      howns.treeAt.nodup []
    rw [morrisVisits_inorder, visits_inOrder, BST.inorder_map] at hleads
    exact hleads.ends_iff.2 (.exit rfl)

theorem object_refines_bag_three :
    ∃ s vs, [Method.insert 2, .recursiveInsert 1, .findAndDeleteByMerging 2].foldlM
        (TreeState.calls (3 + 1 + 0)) (.new, []) = some (s, [Answer.deleted]) ∧
      vs.map s.name = [some 1] ∧ Inorder s.heap s.root vs ∧
      IterativeInorder s.heap s.root (some vs) ∧
      MorrisInorder s.heap s.root (some (vs, s.heap)) := by
  have h := object_refines_bag [Method.insert 2, .recursiveInsert 1, .findAndDeleteByMerging 2]
    (by simp) 0
  simpa [bagCalls, bagCall, bagPrints, bagAnswer] using h

/-- A pointer to a node leads to its name as long as that name is not deleted by merging and
nothing is deleted by copying. A deletion by copying that comes to a node frees exactly one
node, and leaves all others as they are but the one it came to, which gets the name of the
freed one where that is another; one that comes to no node leaves all as they are. -/
theorem pointers_stay (ms ms' : List (Method α)) (more : ℕ) (e : α)
    (hkeeps : ∀ m ∈ ms', m.Keeps e) : ∃ s s' out out',
      ms.foldlM (TreeState.calls (ms.length + ms'.length + 1 + more)) (.new, []) = some (s, out) ∧
      ms'.foldlM (TreeState.calls (ms.length + ms'.length + 1 + more)) (s, out) = some (s', out') ∧
      (∀ a, s.name a = some e → s'.name a = some e) ∧
      ∀ el, ∃ s₁ answer p,
        s.findAndDeleteByCopying (ms.length + ms'.length + 1 + more) el = some (s₁, answer) ∧
        TreeState.search s.heap el (ms.length + ms'.length + 1 + more) s.root = some p ∧
        (p = none → ∀ a, s₁.name a = s.name a) ∧
        ∀ b, p = some b → s.name b = some el ∧ ∃ f, (s.name f).isSome ∧ s₁.name f = none ∧
          (∀ a, a ≠ b → a ≠ f → s₁.name a = s.name a) ∧ (b ≠ f → s₁.name b = s.name f) := by
  generalize hfuel : ms.length + ms'.length + 1 + more = fuel
  obtain ⟨s, cells, hrun, howns, hcells, hcount, -⟩ :=
    owns_new.calls [] ms (show 0 + ms.length < fuel by omega)
  simp only [BST.inorder_null, List.length_nil] at hcount
  obtain ⟨s', cells', hrun', howns', -, -, hname⟩ := howns.calls _ ms'
    (show (inorder cells).length + ms'.length < fuel by omega)
  refine ⟨s, s', _, _, hrun, hrun', hname e hkeeps, fun el => ?_⟩
  have hle := height_le_length cells
  have hheight : height cells < fuel := by omega
  obtain ⟨s₁, hs₁, howns₁⟩ := howns.call hheight (.findAndDeleteByCopying el)
  obtain ⟨⟨s₂, answer⟩, hdelete, heq⟩ := Option.map_eq_some_iff.1 hs₁
  obtain ⟨rfl, -⟩ := Prod.mk.inj heq
  refine ⟨s₂, answer, _, hdelete, howns.linked.search hheight, ?_⟩
  rcases cellsAfter_copying el s.heap.fresh cells with ⟨hnone, hsame⟩ | ⟨d, hsome, hmoved⟩
  · rw [hsame] at howns₁
    refine ⟨fun _ a => Option.ext fun e => ?_, fun b hb => ?_⟩
    · rw [howns₁.name_eq_some_iff, howns.name_eq_some_iff]
    · rw [hnone] at hb
      cases hb
  · refine ⟨fun hp => ?_, fun b hb => ?_⟩
    · rw [hsome] at hp
      cases hp
    · rw [hsome] at hb
      obtain rfl : d.1 = b := Option.some.inj hb
      obtain ⟨hmem, hel⟩ := mem_of_findCell hsome
      refine ⟨?_, howns.name_moved howns₁ hmoved⟩
      rw [← hel]
      exact (howns.name_eq_some_iff d.1 d.2).2 hmem

theorem pointers_stay_mirror : ∃ s s' out out',
    [Method.insert 2, .insert 1, .insert 3].foldlM (TreeState.calls (3 + 2 + 1 + 0)) (.new, []) =
        some (s, out) ∧
      [Method.reverseTree, .findAndDeleteByMerging 1].foldlM (TreeState.calls (3 + 2 + 1 + 0))
        (s, out) = some (s', out') ∧
      (∀ a, s.name a = some 2 → s'.name a = some 2) ∧
      ∃ s₁ answer p, s.findAndDeleteByCopying (3 + 2 + 1 + 0) 2 = some (s₁, answer) ∧
        TreeState.search s.heap 2 (3 + 2 + 1 + 0) s.root = some p ∧
        (p = none → ∀ a, s₁.name a = s.name a) ∧
        ∀ b, p = some b → s.name b = some 2 ∧ ∃ f, (s.name f).isSome ∧ s₁.name f = none ∧
          (∀ a, a ≠ b → a ≠ f → s₁.name a = s.name a) ∧ (b ≠ f → s₁.name b = s.name f) := by
  obtain ⟨s, s', out, out', hrun, hrun', hname, hcopy⟩ :=
    pointers_stay [.insert 2, .insert 1, .insert 3] [.reverseTree, .findAndDeleteByMerging 1] 0 2
      (by simp [Method.Keeps])
  exact ⟨s, s', out, out', hrun, hrun', hname, hcopy 2⟩

end SchoolProjects.NameTree
