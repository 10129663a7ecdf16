import SchoolProjects.NameTree.Merging
import SchoolProjects.NameTree.Operations

/-! Deletion on the nodes in memory (`genBST.h`). Deletion by copying moves a name into another
node and frees the node that it came from, and deletion by merging frees the node of the name.
The two searches for the node are the same loop. A result `none` is the use of a pointer that
leads to no node, or fuel that runs out. -/

namespace SchoolProjects.NameTree

open BST (height takeLast)

variable {α : Type*}

namespace TreeState

/-- The loop along `right`: `previous` and `tmp` at its end. -/
def findLast (h : Heap (BSTNode α)) : ℕ → ℕ → ℕ → Option (ℕ × ℕ)
  | 0, _, _ => none
  | fuel + 1, previous, tmp =>
    (h.read tmp).bind fun x =>
      match x.right with
      | none => some (previous, tmp)
      | some right => findLast h fuel tmp right

/-- `deleteByCopying(node)`, of a node that is there. -/
def deleteByCopying (fuel : ℕ) (s : TreeState α) (node : Slot) : Option (TreeState α) :=
  (s.load node).bind fun n => n.bind fun n => (s.heap.read n).bind fun x =>
    match x.left, x.right with
    | left, none => (s.store node left).bind fun s => s.free n
    | none, right => (s.store node right).bind fun s => s.free n
    | some left, some _ =>
      (findLast s.heap fuel n left).bind fun (previous, tmp) =>
        (s.heap.read tmp).bind fun y =>
          (s.heap.modify n fun x => { x with el := y.el }).bind fun heap =>
            let slot := if previous = n then Slot.left previous else Slot.right previous
            (({ s with heap := heap } : TreeState α).store slot y.left).bind fun s => s.free tmp

/-- `deleteByMerging(node)`. -/
def deleteByMerging (fuel : ℕ) (s : TreeState α) (node : Slot) : Option (TreeState α) :=
  (s.load node).bind fun
    | none => some s
    | some n => (s.heap.read n).bind fun x =>
      match x.left, x.right with
      | left, none => (s.store node left).bind fun s => s.free n
      | none, right => (s.store node right).bind fun s => s.free n
      | some left, some right =>
        (findLast s.heap fuel n left).bind fun (_, tmp) =>
          (setRight s.heap tmp (some right)).bind fun heap =>
            (({ s with heap := heap } : TreeState α).store node (some left)).bind fun s => s.free n

/-- What is printed after the search: nothing, or one of the two messages. -/
inductive Answer
  | deleted
  | notInTree
  | treeEmpty
  deriving DecidableEq

section Order

variable [LinearOrder α]

/-- The loop of `findAndDeleteByCopying` and of `findAndDeleteByMerging`: the node with the
name `el`, and the node above. -/
def findNode (h : Heap (BSTNode α)) (el : α) : ℕ → Option ℕ → Option ℕ →
    Option (Option ℕ × Option ℕ)
  | 0, _, _ => none
  | _ + 1, none, prev => some (none, prev)
  | fuel + 1, some p, prev =>
    (h.read p).bind fun x =>
      if x.el = el then some (some p, prev)
      else findNode h el fuel (if el < x.el then x.left else x.right) (some p)

/-- What both methods do with the node that is found. -/
def findAndDelete (delete : TreeState α → Slot → Option (TreeState α)) (fuel : ℕ)
    (s : TreeState α) (el : α) : Option (TreeState α × Answer) :=
  (findNode s.heap el fuel s.root none).bind fun
    | (some p, prev) =>
      if s.root = some p then (delete s .root).map fun s => (s, .deleted)
      else prev.bind fun prev => (s.heap.read prev).bind fun x =>
        (delete s (if x.left = some p then .left prev else .right prev)).map
          fun s => (s, .deleted)
    | (none, _) => some (s, if s.root = none then .treeEmpty else .notInTree)

def findAndDeleteByCopying (fuel : ℕ) : TreeState α → α → Option (TreeState α × Answer) :=
  findAndDelete (deleteByCopying fuel) fuel

def findAndDeleteByMerging (fuel : ℕ) : TreeState α → α → Option (TreeState α × Answer) :=
  findAndDelete (deleteByMerging fuel) fuel

end Order

end TreeState

open TreeState

variable {s : TreeState α} {P : Place (Cell α)} {p q : Option ℕ} {t l r : BST (Cell α)}
  {c : Cell α} {a fuel : ℕ}

/-! ### Unlinking a node -/

/-- The pointer is set to a subtree, and the node that was there is freed. -/
theorem Place.Linked.unlink (hP : P.Linked s.heap s.root p) (ht : NameTree.Linked s.heap q t)
    (hnd : (NameTree.addrs t ++ P.addrs).Nodup) (ha : a ∉ NameTree.addrs t ++ P.addrs)
    (hname : (s.name a).isSome)
    (honly : ∀ b, (s.name b).isSome → b = a ∨ b ∈ NameTree.addrs t ++ P.addrs) :
    ∃ s', ((s.store P.slot q).bind fun s => s.free a) = some s' ∧ Owns s' (P.fill t) := by
  obtain ⟨hndt, hndP, hdisj⟩ := List.nodup_append.1 hnd
  obtain ⟨s₁, hs₁, hstored⟩ := hP.store hndP q
  have hname₁ : (s₁.name a).isSome := hstored.name a ▸ hname
  obtain ⟨x, hx⟩ : ∃ x, s₁.heap.read a = some x := by
    rwa [TreeState.name, Option.isSome_map, Option.isSome_iff_exists] at hname₁
  have hfree (b : ℕ) (hb : b ≠ a) : (s₁.heap.put a none (Heap.lt_fresh hx)).read b =
      s₁.heap.read b := by
    rw [Heap.read_put, if_neg hb]
  rw [List.mem_append, not_or] at ha
  refine ⟨⟨s₁.heap.put a none (Heap.lt_fresh hx), s₁.root⟩, ?_, Focused.owns (p := q) ⟨?_, ?_, hnd, ?_⟩⟩
  · rw [hs₁, Option.bind_some, TreeState.free, Heap.free_of_read hx, Option.map_some]
  · exact hstored.place.congr fun b hb => hfree b (ne_of_mem_of_not_mem hb ha.2)
  · refine ht.congr fun b hb => ?_
    rw [hfree b (ne_of_mem_of_not_mem hb ha.1)]
    exact hstored.read b fun hb' => hdisj b hb b hb' rfl
  · intro b hb
    have hne : b ≠ a := by
      rintro rfl
      simp [TreeState.name] at hb
    have hb₁ : (s₁.name b).isSome := by
      rwa [TreeState.name, hfree b hne] at hb
    exact (honly b (hstored.name b ▸ hb₁)).resolve_left hne

/-- A node with one child at most gives its place to it. -/
theorem Focused.unlink (h : Focused s P p (.node c l r)) (hq : Linked s.heap q t)
    (ht : addrs l ++ addrs r = addrs t) :
    ∃ s', ((s.store P.slot q).bind fun s => s.free c.1) = some s' ∧ Owns s' (P.fill t) := by
  obtain ⟨hP, ⟨-, x, hx, -⟩, hnd, honly⟩ := h
  have hperm : (addrs (.node c l r) ++ P.addrs).Perm (c.1 :: (addrs t ++ P.addrs)) := by
    rw [addrs_node, ← ht]
    exact (List.perm_middle.append_right _)
  obtain ⟨hc, hnd'⟩ := List.nodup_cons.1 (hperm.nodup_iff.1 hnd)
  refine hP.unlink hq hnd' hc (by simp [TreeState.name, hx]) fun b hb => ?_
  exact List.mem_cons.1 (hperm.mem_iff.1 (honly b hb))

/-! ### The last node of a subtree -/

/-- Where the loop along `right` comes to from the node `c` with the left subtree `l`. -/
def lastPlace : Place (Cell α) → Cell α → BST (Cell α) → BST (Cell α) → Place (Cell α)
  | P, _, _, .null => P
  | P, c, l, .node c' l' r' => lastPlace (.right P c l) c' l' r'

/-- The subtree to the left of the last node. -/
def lastLeft : BST (Cell α) → BST (Cell α) → BST (Cell α)
  | l, .null => l
  | _, .node _ l' r' => lastLeft l' r'

/-- The node above the last one. -/
def lastPrev : ℕ → Cell α → BST (Cell α) → ℕ
  | previous, _, .null => previous
  | _, c, .node c' _ r' => lastPrev c.1 c' r'

theorem fill_lastPlace (P : Place (Cell α)) (c : Cell α) (l r u : BST (Cell α)) :
    (lastPlace P c l r).fill (.node (takeLast c l r).1 (lastLeft l r) u) =
      P.fill (BST.attach u (.node c l r)) := by
  induction r generalizing P c l with
  | null => rfl
  | node c' l' r' _ ihr => exact ihr (.right P c l) c' l'

theorem fill_lastPlace_left (P : Place (Cell α)) (c : Cell α) (l r : BST (Cell α)) :
    (lastPlace P c l r).fill (lastLeft l r) = P.fill (takeLast c l r).2 := by
  induction r generalizing P c l with
  | null => rfl
  | node c' l' r' _ ihr => exact ihr (.right P c l) c' l'

theorem Focused.last (h : Focused s P p (.node c l r)) :
    Focused s (lastPlace P c l r) (some (takeLast c l r).1.1)
      (.node (takeLast c l r).1 (lastLeft l r) .null) := by
  induction r generalizing P p c l with
  | null =>
    obtain ⟨rfl, -⟩ := h.down
    exact h
  | node c' l' r' _ ihr =>
    obtain ⟨-, x, -, -, -, hr⟩ := h.down
    exact ihr hr

theorem Linked.findLast {h : Heap (BSTNode α)} (ht : Linked h (some a) (.node c l r))
    (hf : height r < fuel) (previous : ℕ) :
    findLast h fuel previous a = some (lastPrev previous c r, (takeLast c l r).1.1) := by
  induction r generalizing a c l fuel previous with
  | null =>
    obtain ⟨ha, x, hx, -, -, hr⟩ := ht
    obtain rfl : a = c.1 := Option.some.inj ha
    have hright : x.right = none := hr
    cases fuel with
    | zero => omega
    | succ fuel =>
      simp only [TreeState.findLast, hx, Option.bind_some, hright]
      rfl
  | node c' l' r' _ ihr =>
    obtain ⟨ha, x, hx, -, -, hr⟩ := ht
    obtain rfl : a = c.1 := Option.some.inj ha
    have hright : x.right = some c'.1 := hr.1
    cases fuel with
    | zero => omega
    | succ fuel =>
      rw [height] at hf
      simp only [TreeState.findLast, hx, Option.bind_some, hright]
      exact ihr (hright ▸ hr) (by omega) c.1

theorem slot_lastPlace_right (P : Place (Cell α)) (c c' : Cell α) (l l' r' : BST (Cell α)) :
    (lastPlace (.right P c l) c' l' r').slot = .right (lastPrev c.1 c' r') := by
  induction r' generalizing P c c' l l' with
  | null => rfl
  | node d l₁ r₁ _ ihr => exact ihr (.right P c l) c' d l' l₁

theorem lastPrev_mem (previous : ℕ) (c : Cell α) (l r : BST (Cell α)) :
    lastPrev previous c r = previous ∨ lastPrev previous c r ∈ addrs (.node c l r) := by
  induction r generalizing previous c l with
  | null => exact .inl rfl
  | node c' l' r' _ ihr =>
    refine .inr ?_
    rcases ihr c.1 c' l' with h | h
    · rw [lastPrev, h]
      simp
    · rw [lastPrev, addrs_node]
      exact List.mem_append_right _ (List.mem_cons_of_mem _ h)

/-- The pointer that `deleteByCopying` sets is the one to the last node. -/
theorem slot_lastPlace (d : Cell α) (r₀ : BST (Cell α)) (hd : d.1 ∉ addrs (.node c l r)) :
    (if lastPrev d.1 c r = d.1 then Slot.left (lastPrev d.1 c r)
      else Slot.right (lastPrev d.1 c r)) = (lastPlace (.left P d r₀) c l r).slot := by
  cases r with
  | null => exact if_pos rfl
  | node c' l' r' =>
    rw [lastPlace, slot_lastPlace_right, lastPrev, if_neg]
    intro heq
    rw [addrs_node, List.mem_append, List.mem_cons, not_or, not_or] at hd
    rcases lastPrev_mem c.1 c' l' r' with h | h
    · exact hd.2.1 (heq.symm.trans h)
    · exact hd.2.2 (heq ▸ h)

/-! ### Deletion by copying -/

/-- The tree after deletion by copying: the name of the last node is in the root. -/
def copied : BST (Cell α) → BST (Cell α)
  | .null => .null
  | .node _ l .null => l
  | .node _ .null r => r
  | .node c (.node c' l' r') r =>
    .node (c.1, (takeLast c' l' r').1.2) (takeLast c' l' r').2 r

theorem map_takeLast {β γ : Type*} (f : β → γ) (x : β) (l r : BST β) :
    takeLast (f x) (BST.map f l) (BST.map f r) =
      (f (takeLast x l r).1, BST.map f (takeLast x l r).2) := by
  induction r generalizing x l with
  | null => rfl
  | node x' l' r' _ ihr => simp [takeLast, BST.map, ihr]

theorem map_copied (t : BST (Cell α)) :
    BST.map Prod.snd (copied t) = BST.deleteByCopying (BST.map Prod.snd t) := by
  cases t with
  | null => rfl
  | node c l r =>
    cases r with
    | null => cases l <;> rfl
    | node cr lr rr =>
      cases l with
      | null => rfl
      | node c' l' r' =>
        have h := map_takeLast Prod.snd c' l' r'
        simp only [copied, BST.map, BST.deleteByCopying, h]

/-- A name is written into the node below a place. -/
theorem Focused.rename (h : Focused s P p (.node c l r)) (e : α) : ∃ x heap,
    s.heap.read c.1 = some x ∧ s.heap.modify c.1 (fun x => { x with el := e }) = some heap ∧
      Focused ⟨heap, s.root⟩ P p (.node (c.1, e) l r) := by
  obtain ⟨hP, ⟨rfl, x, hx, hel, hl, hr⟩, hnd, honly⟩ := h
  have hc : c.1 ∉ addrs l ∧ c.1 ∉ addrs r ∧ c.1 ∉ P.addrs := by
    rw [addrs_node, List.append_assoc, List.nodup_append, List.cons_append, List.nodup_cons,
      List.mem_append, not_or] at hnd
    exact ⟨fun h => hnd.2.2 _ h _ (by simp) rfl, hnd.2.1.1⟩
  obtain ⟨hcl, hcr, hcP⟩ := hc
  let heap := s.heap.put c.1 (some { x with el := e }) (Heap.lt_fresh hx)
  have hread (b : ℕ) (hb : b ≠ c.1) : heap.read b = s.heap.read b := by
    rw [Heap.read_put, if_neg hb]
  have hself : heap.read c.1 = some { x with el := e } := by rw [Heap.read_put, if_pos rfl]
  refine ⟨x, heap, hx, Heap.modify_of_read _ hx, ?_, ⟨rfl, _, hself, rfl, ?_, ?_⟩,
    by simpa using hnd, fun b hb => ?_⟩
  · exact hP.congr fun b hb => hread b (ne_of_mem_of_not_mem hb hcP)
  · exact hl.congr fun b hb => hread b (ne_of_mem_of_not_mem hb hcl)
  · exact hr.congr fun b hb => hread b (ne_of_mem_of_not_mem hb hcr)
  · by_cases hbc : b = c.1
    · simp [hbc]
    · have hname : (⟨heap, s.root⟩ : TreeState α).name b = s.name b := by
        simp [TreeState.name, hread b hbc]
      simpa using honly b (hname ▸ hb)

theorem Focused.deleteByCopying (h : Focused s P p (.node c l r)) (hf : height l ≤ fuel) :
    ∃ s', s.deleteByCopying fuel P.slot = some s' ∧ Owns s' (P.fill (copied (.node c l r))) := by
  obtain ⟨rfl, x, hx, -, hleft, hright⟩ := h.down
  have hload := h.place.load
  cases r with
  | null =>
    have hr : x.right = none := hright.linked
    obtain ⟨s', hs', howns⟩ := h.unlink hleft.linked (by simp)
    refine ⟨s', ?_, by cases l <;> exact howns⟩
    simp only [TreeState.deleteByCopying, hload, Option.bind_some, hx, hr]
    exact hs'
  | node cr lr rr =>
    have hr : x.right = some cr.1 := hright.linked.1
    cases l with
    | null =>
      have hl : x.left = none := hleft.linked
      obtain ⟨s', hs', howns⟩ := h.unlink (hr ▸ hright.linked) (by simp)
      refine ⟨s', ?_, howns⟩
      simp only [TreeState.deleteByCopying, hload, Option.bind_some, hx, hr, hl]
      exact hs'
    | node c' l' r' =>
      have hl : x.left = some c'.1 := hleft.linked.1
      have hlow : height r' < fuel := by rw [height] at hf; omega
      have hfind := (hl ▸ hleft.linked).findLast hlow c.1
      obtain ⟨-, y, hy, hel, -⟩ := hleft.last.linked
      -- the name goes up first, so that the tree is cut with the new name in it
      obtain ⟨x', heap, hx', hmodify, hrenamed⟩ := h.rename (takeLast c' l' r').1.2
      obtain ⟨-, z, -, -, hdown, -⟩ := hrenamed.down
      obtain ⟨-, y', hy', -, hlast, -⟩ := hdown.last.down
      have hne : (takeLast c' l' r').1.1 ≠ c.1 := by
        intro heq
        have hmem : (takeLast c' l' r').1.1 ∈ addrs (.node c' l' r') := by
          rw [addrs, ← BST.inorder_takeLast]
          simp
        have hnd := h.nodup
        rw [addrs_node, List.append_assoc, List.nodup_append] at hnd
        exact hnd.2.2 _ hmem _ (by simp) heq
      have hyy : y' = y := by
        obtain rfl : heap = s.heap.put c.1 (some { x' with el := (takeLast c' l' r').1.2 })
            (Heap.lt_fresh hx') := by
          rw [Heap.modify_of_read _ hx', Option.some.injEq] at hmodify
          exact hmodify.symm
        rw [Heap.read_put, if_neg hne, hy, Option.some.injEq] at hy'
        exact hy'.symm
      obtain ⟨s', hs', howns⟩ := hdown.last.unlink hlast.linked (by simp)
      have hd : c.1 ∉ addrs (.node c' l' r') := by
        have hnd := h.nodup
        rw [addrs_node, List.append_assoc, List.nodup_append] at hnd
        exact fun hmem => hnd.2.2 _ hmem _ (by simp) rfl
      refine ⟨s', ?_, ?_⟩
      · simp only [TreeState.deleteByCopying, hload, Option.bind_some, hx, hr, hl, hfind, hy, hel,
          hmodify]
        rw [slot_lastPlace (P := P) (c.1, (takeLast c' l' r').1.2) (.node cr lr rr) hd, ← hyy]
        exact hs'
      · rw [fill_lastPlace_left] at howns
        exact howns

/-! ### Deletion by merging -/

/-- The right subtree is hung on the last node of the left one, and is reached from the node as
well until that is freed. -/
theorem Linked.attach {h : Heap (BSTNode α)} (hl : Linked h p (.node c l r)) (ht : Linked h q t)
    (hnd : (addrs (.node c l r) ++ addrs t).Nodup) : ∃ heap,
      setRight h (takeLast c l r).1.1 q = some heap ∧ Linked heap p (BST.attach t (.node c l r)) ∧
      (∀ b ∉ addrs (.node c l r), heap.read b = h.read b) ∧
      ∀ b, (heap.read b).map BSTNode.el = (h.read b).map BSTNode.el := by
  obtain ⟨hndl, -, hdisj⟩ := List.nodup_append.1 hnd
  have hfill (u : BST (Cell α)) := fill_lastPlace .top c l r u
  generalize hQ : Place.right (lastPlace .top c l r) (takeLast c l r).1 (lastLeft l r) = Q
  have hfillQ (u : BST (Cell α)) : Q.fill u = BST.attach u (.node c l r) := by
    rw [← hQ]
    exact hfill u
  have hslot : Q.slot = .right (takeLast c l r).1.1 := by rw [← hQ]; rfl
  have hperm := addrs_fill_perm Q .null
  rw [hfillQ, BST.attach_null, addrs_null, List.nil_append] at hperm
  obtain ⟨p', hQlinked, -⟩ : ∃ p', Q.Linked h p p' ∧ Linked h p' .null := by
    rw [← linked_fill, hfillQ, BST.attach_null]
    exact hl
  obtain ⟨s', hs', hstored⟩ := Place.Linked.store (s := ⟨h, p⟩) hQlinked (hperm.nodup_iff.1 hndl) q
  rw [hslot, TreeState.store, Option.map_eq_some_iff] at hs'
  obtain ⟨heap, hset, rfl⟩ := hs'
  refine ⟨heap, hset, ?_, fun b hb => ?_, hstored.name⟩
  · rw [← hfillQ, linked_fill]
    refine ⟨q, hstored.place, ht.congr fun b hb => hstored.read b fun hb' => ?_⟩
    exact hdisj b (hperm.mem_iff.2 hb') b hb rfl
  · exact hstored.read b fun hb' => hb (hperm.mem_iff.2 hb')

theorem Focused.deleteByMerging (h : Focused s P p (.node c l r)) (hf : height l ≤ fuel) :
    ∃ s', s.deleteByMerging fuel P.slot = some s' ∧
      Owns s' (P.fill (BST.deleteByMerging (.node c l r))) := by
  obtain ⟨rfl, x, hx, -, hleft, hright⟩ := h.down
  have hload := h.place.load
  cases r with
  | null =>
    have hr : x.right = none := hright.linked
    obtain ⟨s', hs', howns⟩ := h.unlink hleft.linked (by simp)
    refine ⟨s', ?_, by cases l <;> exact howns⟩
    simp only [TreeState.deleteByMerging, hload, Option.bind_some, hx, hr]
    exact hs'
  | node cr lr rr =>
    have hr : x.right = some cr.1 := hright.linked.1
    cases l with
    | null =>
      have hl : x.left = none := hleft.linked
      obtain ⟨s', hs', howns⟩ := h.unlink (hr ▸ hright.linked) (by simp)
      refine ⟨s', ?_, howns⟩
      simp only [TreeState.deleteByMerging, hload, Option.bind_some, hx, hr, hl]
      exact hs'
    | node c' l' r' =>
      have hl : x.left = some c'.1 := hleft.linked.1
      have hlow : height r' < fuel := by rw [height] at hf; omega
      have hfind := (hl ▸ hleft.linked).findLast hlow c.1
      generalize hL : BST.node c' l' r' = L at h hleft
      generalize hR : BST.node cr lr rr = R at h hright
      -- the nodes of the two subtrees, the node, and the nodes outside
      have hnd := h.nodup
      rw [addrs_node, List.append_assoc, List.cons_append] at hnd
      obtain ⟨hc, hnd'⟩ := List.nodup_cons.1 (List.perm_middle.nodup_iff.1 hnd)
      rw [← List.append_assoc] at hc hnd'
      obtain ⟨hndLR, -, hdisj⟩ := List.nodup_append.1 hnd'
      obtain ⟨heap, hset, hattach, hframe, hname⟩ :=
        (hL ▸ hleft.linked : Linked s.heap x.left (.node c' l' r')).attach hright.linked (hL ▸ hndLR)
      have haddrs : addrs (BST.attach R (.node c' l' r')) = addrs L ++ addrs R := by
        simp [addrs, ← hL]
      have hplace : P.Linked heap s.root (some c.1) := h.place.congr fun b hb =>
        hframe b fun hb' => hdisj b (List.mem_append_left _ (hL ▸ hb')) b hb rfl
      obtain ⟨s', hs', howns⟩ := Place.Linked.unlink (s := ⟨heap, s.root⟩) hplace hattach
        (haddrs ▸ hnd') (haddrs ▸ hc) (by simp [TreeState.name, hname, hx]) fun b hb => by
          have hmem := h.only b (by rwa [TreeState.name, hname] at hb)
          rw [addrs_node, List.append_assoc, List.cons_append, List.perm_middle.mem_iff,
            List.mem_cons, ← List.append_assoc] at hmem
          rwa [haddrs]
      refine ⟨s', ?_, by rw [BST.deleteByMerging_node, ← hL]; exact howns⟩
      simp only [TreeState.deleteByMerging, hload, Option.bind_some, hx, hr, hl, hfind]
      rw [hr] at hset
      rw [hl] at hs'
      simp only [hset, Option.bind_some]
      exact hs'

/-! ### Searching for the node -/

section Order

variable [LinearOrder α] {el : α}

/-- Where the search for `el` comes to, and the subtree there. -/
def nodePlace (el : α) : Place (Cell α) → BST (Cell α) → Place (Cell α) × BST (Cell α)
  | P, .null => (P, .null)
  | P, .node c l r =>
    if c.2 = el then (P, .node c l r)
    else if el < c.2 then nodePlace el (.left P c r) l
    else nodePlace el (.right P c l) r

theorem fill_nodePlace (el : α) (P : Place (Cell α)) (t : BST (Cell α)) :
    (nodePlace el P t).1.fill (nodePlace el P t).2 = P.fill t := by
  induction t generalizing P with
  | null => rfl
  | node c l r ihl ihr =>
    rw [nodePlace]
    split_ifs
    · rfl
    · exact ihl _
    · exact ihr _

/-- A search that comes to a node comes to one with the name. -/
theorem eq_of_nodePlace {P P' : Place (Cell α)} (h : nodePlace el P t = (P', .node c l r)) :
    c.2 = el := by
  induction t generalizing P with
  | null => cases congrArg Prod.snd h
  | node d l' r' ihl ihr =>
    rw [nodePlace] at h
    split_ifs at h with heq
    · obtain ⟨rfl, -⟩ := BST.node.inj (congrArg Prod.snd h)
      exact heq
    · exact ihl h
    · exact ihr h

theorem height_nodePlace_le (el : α) (P : Place (Cell α)) (t : BST (Cell α)) :
    height (nodePlace el P t).2 ≤ height t := by
  induction t generalizing P with
  | null => exact le_rfl
  | node c l r ihl ihr =>
    rw [nodePlace]
    split_ifs
    · exact le_rfl
    · exact (ihl _).trans (by rw [height]; omega)
    · exact (ihr _).trans (by rw [height]; omega)

theorem Focused.findNode (h : Focused s P p t) (el : α) (hf : height t < fuel) : ∃ p',
    findNode s.heap el fuel p P.parent = some (p', (nodePlace el P t).1.parent) ∧
      Focused s (nodePlace el P t).1 p' (nodePlace el P t).2 := by
  induction t generalizing P p fuel with
  | null =>
    obtain rfl : p = none := h.linked
    cases fuel with
    | zero => omega
    | succ fuel => exact ⟨none, rfl, h⟩
  | node c l r ihl ihr =>
    obtain ⟨rfl, x, hx, hel, hl, hr⟩ := h.down
    cases fuel with
    | zero => omega
    | succ fuel =>
      rw [height] at hf
      rw [TreeState.findNode, hx, Option.bind_some, nodePlace, hel]
      split_ifs
      · exact ⟨_, rfl, h⟩
      · exact ihl hl (by omega)
      · exact ihr hr (by omega)

omit [LinearOrder α] in
/-- The pointer to the root leads to a node outside the hole, unless the hole is all. -/
theorem Place.Linked.root_mem (hP : P.Linked s.heap s.root p) (hne : P ≠ .top) :
    ∃ b ∈ P.addrs, s.root = some b := by
  induction P generalizing p with
  | top => exact absurd rfl hne
  | left up d r ih =>
    obtain ⟨hup, -⟩ := hP
    by_cases htop : up = .top
    · subst htop
      exact ⟨d.1, by simp, hup⟩
    · obtain ⟨b, hb, hroot⟩ := ih hup htop
      exact ⟨b, by simp [hb], hroot⟩
  | right up d l ih =>
    obtain ⟨hup, -⟩ := hP
    by_cases htop : up = .top
    · subst htop
      exact ⟨d.1, by simp, hup⟩
    · obtain ⟨b, hb, hroot⟩ := ih hup htop
      exact ⟨b, by simp [hb], hroot⟩

omit [LinearOrder α] in
/-- The comparisons of addresses find the pointer that leads to the node. -/
theorem Focused.findAndDelete_slot (h : Focused s P (some c.1) (.node c l r))
    (delete : TreeState α → Slot → Option (TreeState α)) :
    (if s.root = some c.1 then (delete s .root).map fun s => (s, Answer.deleted)
      else P.parent.bind fun prev => (s.heap.read prev).bind fun x =>
        (delete s (if x.left = some c.1 then .left prev else .right prev)).map
          fun s => (s, .deleted)) =
      (delete s P.slot).map fun s => (s, .deleted) := by
  have hnot : c.1 ∉ P.addrs := fun hc =>
    (List.nodup_append.1 h.nodup).2.2 c.1 (by simp) c.1 hc rfl
  have hroot (hne : P ≠ .top) : s.root ≠ some c.1 := by
    obtain ⟨b, hb, hroot⟩ := h.place.root_mem hne
    rw [hroot, Ne, Option.some.injEq]
    exact ne_of_mem_of_not_mem hb hnot
  cases P with
  | top => exact if_pos h.place
  | left up d r' =>
    obtain ⟨-, x, hx, -, hleft, -⟩ := h.place
    rw [if_neg (hroot (by simp))]
    simp only [Place.parent, Option.bind_some, hx, hleft, if_pos, Place.slot]
  | right up d l' =>
    obtain ⟨-, x, hx, -, hl, -⟩ := h.place
    have hleft : x.left ≠ some c.1 := by
      intro heq
      cases l' with
      | null => exact absurd (heq.symm.trans hl) (by simp)
      | node d' l₁ r₁ =>
        have hd : d'.1 = c.1 := Option.some.inj (hl.1.symm.trans heq)
        exact hnot (by simp [← hd])
    rw [if_neg (hroot (by simp))]
    simp only [Place.parent, Option.bind_some, hx, if_neg hleft, Place.slot]

/-- What a deletion at a node leaves, for `deleteByCopying` and `deleteByMerging`. -/
def Deletes (delete : TreeState α → Slot → Option (TreeState α)) (fuel : ℕ)
    (left : BST (Cell α) → BST (Cell α)) : Prop :=
  ∀ ⦃s : TreeState α⦄ ⦃P : Place (Cell α)⦄ ⦃p : Option ℕ⦄ ⦃c : Cell α⦄ ⦃l r : BST (Cell α)⦄,
    Focused s P p (.node c l r) → height l ≤ fuel →
      ∃ s', delete s P.slot = some s' ∧ Owns s' (P.fill (left (.node c l r)))

/-- What is printed where the search comes to `found` in the tree `t`. -/
def answerAt : (found t : BST (Cell α)) → Answer
  | .node _ _ _, _ => .deleted
  | .null, .null => .treeEmpty
  | .null, .node _ _ _ => .notInTree

theorem Owns.findAndDelete {delete : TreeState α → Slot → Option (TreeState α)}
    {left : BST (Cell α) → BST (Cell α)} (hdelete : Deletes delete fuel left)
    (hnull : left .null = .null) (h : Owns s t) (el : α) (hf : height t < fuel) : ∃ s',
      s.findAndDelete delete fuel el = some (s', answerAt (nodePlace el .top t).2 t) ∧
      Owns s' ((nodePlace el .top t).1.fill (left (nodePlace el .top t).2)) := by
  obtain ⟨p', hfind, hfocus⟩ := h.focused.findNode el hf
  have hle := height_nodePlace_le el .top t
  have hfill := fill_nodePlace el .top t
  rw [TreeState.findAndDelete]
  change (findNode s.heap el fuel s.root none) = _ at hfind
  rw [hfind]
  generalize nodePlace el .top t = place at *
  obtain ⟨Q, u⟩ := place
  cases u with
  | null =>
    obtain rfl : p' = none := hfocus.linked
    refine ⟨s, ?_, ?_⟩
    · cases t with
      | null =>
        have hroot : s.root = none := h.linked
        simp [hroot, answerAt]
      | node c l r =>
        have hroot : s.root = some c.1 := h.linked.1
        simp [hroot, answerAt]
    · rw [hnull, hfill]
      exact h
  | node c l r =>
    obtain ⟨rfl, -⟩ := hfocus.down
    rw [height] at hle
    obtain ⟨s', hs', howns⟩ := hdelete hfocus (by omega)
    refine ⟨s', ?_, howns⟩
    rw [Option.bind_some]
    simp only
    rw [hfocus.findAndDelete_slot delete, hs', Option.map_some, answerAt]

end Order

end SchoolProjects.NameTree
