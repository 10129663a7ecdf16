import SchoolProjects.NameTree.Balance
import SchoolProjects.NameTree.Focus
import SchoolProjects.NameTree.Queries

/-! Insertion, search, the mirror and `clear` on the nodes in memory (`genBST.h`). A result
`none` is the use of a pointer that leads to no node, or fuel that runs out: the rounds of a
loop and the depth of the calls are at most the height of the tree, and one more. -/

namespace SchoolProjects.NameTree

open BST (height)

variable {α : Type*}

namespace TreeState

section Order

variable [LinearOrder α]

/-- The loop of `insert`: the node above the empty place. -/
def findPlace (h : Heap (BSTNode α)) (el : α) : ℕ → Option ℕ → Option ℕ → Option (Option ℕ)
  | 0, _, _ => none
  | _ + 1, none, prev => some prev
  | fuel + 1, some p, _ =>
    (h.read p).bind fun x => findPlace h el fuel (if el < x.el then x.left else x.right) (some p)

/-- `new BSTNode<T>(el)`; its address is `s.heap.fresh`. -/
def alloc (s : TreeState α) (el : α) : TreeState α :=
  { s with heap := s.heap.alloc ⟨el, none, none⟩ }

def insert (fuel : ℕ) (s : TreeState α) (el : α) : Option (TreeState α) :=
  (findPlace s.heap el fuel s.root none).bind fun prev =>
    match s.root with
    | none => (s.alloc el).store .root (some s.heap.fresh)
    | some _ =>
      prev.bind fun prev => (s.heap.read prev).bind fun x =>
        (s.alloc el).store (if el < x.el then .left prev else .right prev) (some s.heap.fresh)

def recursiveInsert : ℕ → TreeState α → Slot → α → Option (TreeState α)
  | 0, _, _, _ => none
  | fuel + 1, s, p, el =>
    (s.load p).bind fun
      | none => (s.alloc el).store p (some s.heap.fresh)
      | some a => (s.heap.read a).bind fun x =>
        recursiveInsert fuel s (if el < x.el then .left a else .right a) el

/-- `search(p, el)`: the node whose name is found, or null. -/
def search (h : Heap (BSTNode α)) (el : α) : ℕ → Option ℕ → Option (Option ℕ)
  | 0, _ => none
  | _ + 1, none => some none
  | fuel + 1, some p =>
    (h.read p).bind fun x =>
      if el = x.el then some (some p)
      else search h el fuel (if el < x.el then x.left else x.right)

/-- The calls of `recursiveSearch` are the rounds of the loop of `search`. -/
def recursiveSearch (h : Heap (BSTNode α)) (el : α) (depth : ℕ) (p : Option ℕ) :
    Option (Option ℕ) := search h el depth p

end Order

/-- `reverseTreeHelper(p)`. -/
def reverseTreeHelper : ℕ → Heap (BSTNode α) → Option ℕ → Option (Heap (BSTNode α))
  | 0, _, _ => none
  | _ + 1, h, none => some h
  | fuel + 1, h, some p =>
    (h.modify p fun x => { x with left := x.right, right := x.left }).bind fun h =>
      (h.read p).bind fun x => (reverseTreeHelper fuel h x.left).bind fun h =>
        (h.read p).bind fun x => reverseTreeHelper fuel h x.right

def reverseTree (fuel : ℕ) (s : TreeState α) : Option (TreeState α) :=
  (reverseTreeHelper fuel s.heap s.root).map fun heap => { s with heap := heap }

/-- `clear(p)`. -/
def clearNodes : ℕ → Heap (BSTNode α) → Option ℕ → Option (Heap (BSTNode α))
  | 0, _, _ => none
  | _ + 1, h, none => some h
  | fuel + 1, h, some p =>
    (h.read p).bind fun x => (clearNodes fuel h x.left).bind fun h =>
      (h.read p).bind fun x => (clearNodes fuel h x.right).bind fun h => h.free p

/-- `clear()`, also what the destructor does. -/
def clear (fuel : ℕ) (s : TreeState α) : Option (TreeState α) :=
  (clearNodes fuel s.heap s.root).map fun heap => ⟨heap, none⟩

end TreeState

open TreeState

variable {s : TreeState α} {P : Place (Cell α)} {p : Option ℕ} {t : BST (Cell α)} {fuel : ℕ}

/-! ### Insertion -/

section Order

variable [LinearOrder α] {el : α}

/-- The empty place that the search for `el` comes to. -/
def emptyPlace (el : α) : Place (Cell α) → BST (Cell α) → Place (Cell α)
  | P, .null => P
  | P, .node c l r =>
    if el < c.2 then emptyPlace el (.left P c r) l else emptyPlace el (.right P c l) r

/-- The tree with a new node in this place. -/
def inserted (el : α) (a : ℕ) (P : Place (Cell α)) (t : BST (Cell α)) : BST (Cell α) :=
  (emptyPlace el P t).fill (.node (a, el) .null .null)

theorem map_inserted (a : ℕ) (P : Place (Cell α)) (t : BST (Cell α)) :
    BST.map Prod.snd (inserted el a P t) =
      (P.map Prod.snd).fill (BST.insert el (BST.map Prod.snd t)) := by
  induction t generalizing P with
  | null => exact P.map_fill Prod.snd _
  | node c l r ihl ihr =>
    rw [inserted, emptyPlace, BST.map, BST.insert]
    split_ifs
    · exact ihl _
    · exact ihr _

theorem inorder_inserted_perm (a : ℕ) (P : Place (Cell α)) (t : BST (Cell α)) :
    (BST.inorder (inserted el a P t)).Perm ((a, el) :: BST.inorder (P.fill t)) := by
  induction t generalizing P with
  | null =>
    refine (P.inorder_fill_perm _).trans ?_
    exact ((P.inorder_fill_perm .null).cons (a, el)).symm
  | node c l r ihl ihr =>
    rw [inserted, emptyPlace]
    split_ifs
    · exact ihl _
    · exact ihr _

/-- The new node goes to the side on which `el` belongs. -/
def Toward (el : α) : Place (Cell α) → Prop
  | .top => True
  | .left _ c _ => el < c.2
  | .right _ c _ => ¬ el < c.2

theorem Toward.emptyPlace (hP : Toward el P) : Toward el (emptyPlace el P t) := by
  induction t generalizing P with
  | null => exact hP
  | node c l r ihl ihr =>
    rw [NameTree.emptyPlace]
    split_ifs with hlt
    · exact ihl hlt
    · exact ihr hlt

theorem Focused.emptyPlace (h : Focused s P p t) : Focused s (emptyPlace el P t) none .null := by
  induction t generalizing P p with
  | null =>
    obtain rfl : p = none := h.linked
    exact h
  | node c l r ihl ihr =>
    obtain ⟨-, x, -, -, hl, hr⟩ := h.down
    rw [NameTree.emptyPlace]
    split_ifs
    · exact ihl hl
    · exact ihr hr

theorem Focused.findPlace (h : Focused s P p t) (hf : height t < fuel) :
    findPlace s.heap el fuel p P.parent = some (NameTree.emptyPlace el P t).parent := by
  induction t generalizing P p fuel with
  | null =>
    obtain rfl : p = none := h.linked
    cases fuel with
    | zero => omega
    | succ fuel => rfl
  | node c l r ihl ihr =>
    obtain ⟨rfl, x, hx, hel, hl, hr⟩ := h.down
    cases fuel with
    | zero => omega
    | succ fuel =>
      rw [height] at hf
      rw [TreeState.findPlace, hx, Option.bind_some, NameTree.emptyPlace, hel]
      split_ifs
      · exact ihl hl (by omega)
      · exact ihr hr (by omega)

omit [LinearOrder α] in
/-- A new node in an empty place. -/
theorem Focused.alloc (h : Focused s P none .null) (el : α) : ∃ s',
    (s.alloc el).store P.slot (some s.heap.fresh) = some s' ∧
      Owns s' (P.fill (.node (s.heap.fresh, el) .null .null)) := by
  have hfresh {a : ℕ} (ha : a ∈ P.addrs) : a ≠ s.heap.fresh := by
    obtain ⟨x, hx⟩ := h.place.read ha
    exact Heap.ne_fresh hx
  have hnd : P.addrs.Nodup := h.nodup
  have hnew : s.heap.fresh ∉ P.addrs := fun ha => hfresh ha rfl
  have hP : P.Linked (s.alloc el).heap (s.alloc el).root none :=
    h.place.congr fun a ha => Heap.read_alloc_of_ne (hfresh ha)
  obtain ⟨s', hs', hstored⟩ := hP.store hnd (some s.heap.fresh)
  have hread : s'.heap.read s.heap.fresh = some ⟨el, none, none⟩ := by
    rw [hstored.read _ hnew]
    exact (Heap.read_alloc _ _ _).trans (if_pos rfl)
  refine ⟨s', hs', Focused.owns ⟨hstored.place, ⟨rfl, _, hread, rfl, rfl, rfl⟩, ?_, ?_⟩⟩
  · simpa using ⟨hnew, hnd⟩
  · intro a ha
    rw [hstored.name] at ha
    by_cases hfr : a = s.heap.fresh
    · simp [hfr]
    · have hold : s.name a = (s.alloc el).name a := by
        simp [TreeState.name, TreeState.alloc, hfr]
      have hmem : a ∈ P.addrs := by simpa using h.only a (hold ▸ ha)
      simp [hmem]

theorem Owns.insert (h : Owns s t) (el : α) (hf : height t < fuel) :
    ∃ s', s.insert fuel el = some s' ∧ Owns s' (inserted el s.heap.fresh .top t) := by
  have hfocus : Focused s (NameTree.emptyPlace el .top t) none .null := h.focused.emptyPlace
  have hfind : findPlace s.heap el fuel s.root none = some (NameTree.emptyPlace el .top t).parent :=
    h.focused.findPlace hf
  have htoward : Toward el (NameTree.emptyPlace el .top t) := Toward.emptyPlace trivial
  obtain ⟨s', hs', howns⟩ := hfocus.alloc el
  refine ⟨s', ?_, howns⟩
  rw [TreeState.insert, hfind, Option.bind_some]
  cases t with
  | null =>
    have hroot : s.root = none := h.linked
    simp only [hroot]
    exact hs'
  | node c l r =>
    have hroot : s.root = some c.1 := h.linked.1
    simp only [hroot]
    -- the place below a node is on the side of `el`
    generalize hP : NameTree.emptyPlace el .top (.node c l r) = P at hs' htoward hfocus
    cases P with
    | top => exact absurd (hroot.symm.trans hfocus.place) (by simp)
    | left up d r' =>
      obtain ⟨-, x, hx, hel, -⟩ := hfocus.place
      have hlt : el < x.el := hel ▸ htoward
      simp only [Place.parent, Option.bind_some, hx, if_pos hlt]
      exact hs'
    | right up d l' =>
      obtain ⟨-, x, hx, hel, -⟩ := hfocus.place
      have hlt : ¬ el < x.el := hel ▸ htoward
      simp only [Place.parent, Option.bind_some, hx, if_neg hlt]
      exact hs'

theorem Focused.recursiveInsert (h : Focused s P p t) (el : α) (hf : height t < fuel) :
    ∃ s', s.recursiveInsert fuel P.slot el = some s' ∧
      Owns s' (inserted el s.heap.fresh P t) := by
  induction t generalizing P p fuel with
  | null =>
    obtain rfl : p = none := h.linked
    cases fuel with
    | zero => omega
    | succ fuel =>
      rw [TreeState.recursiveInsert, h.place.load]
      exact h.alloc el
  | node c l r ihl ihr =>
    obtain ⟨rfl, x, hx, hel, hl, hr⟩ := h.down
    cases fuel with
    | zero => omega
    | succ fuel =>
      rw [height] at hf
      simp only [TreeState.recursiveInsert, h.place.load, Option.bind_some, hx, hel, inserted,
        NameTree.emptyPlace]
      split_ifs
      · exact ihl hl (by omega)
      · exact ihr hr (by omega)

/-! ### Search -/

/-- The first node on the way down whose name is `el`. -/
def findCell (el : α) : BST (Cell α) → Option (Cell α)
  | .null => none
  | .node c l r => if el = c.2 then some c else if el < c.2 then findCell el l else findCell el r

theorem map_findCell (t : BST (Cell α)) :
    (findCell el t).map Prod.snd = BST.search el (BST.map Prod.snd t) := by
  induction t with
  | null => rfl
  | node c l r ihl ihr =>
    rw [findCell, BST.map, BST.search]
    split_ifs
    · rfl
    · exact ihl
    · exact ihr

theorem mem_of_findCell {c : Cell α} (h : findCell el t = some c) :
    c ∈ BST.inorder t ∧ c.2 = el := by
  induction t with
  | null => cases h
  | node d l r ihl ihr =>
    rw [findCell] at h
    split_ifs at h with heq
    · obtain rfl : d = c := Option.some.inj h
      exact ⟨by simp, heq.symm⟩
    · exact ⟨by simp [(ihl h).1], (ihl h).2⟩
    · exact ⟨by simp [(ihr h).1], (ihr h).2⟩

theorem Linked.search {h : Heap (BSTNode α)} (ht : Linked h p t) (hf : height t < fuel) :
    search h el fuel p = some ((findCell el t).map Prod.fst) := by
  induction t generalizing p fuel with
  | null =>
    obtain rfl : p = none := ht
    cases fuel with
    | zero => omega
    | succ fuel => rfl
  | node c l r ihl ihr =>
    obtain ⟨rfl, x, hx, hel, hl, hr⟩ := ht
    cases fuel with
    | zero => omega
    | succ fuel =>
      rw [height] at hf
      rw [TreeState.search, hx, Option.bind_some, findCell, hel]
      split_ifs
      · rfl
      · exact ihl hl (by omega)
      · exact ihr hr (by omega)

end Order

/-! ### The mirror and `clear` -/

theorem Linked.reverseTree {h : Heap (BSTNode α)} (ht : Linked h p t) (hnd : (addrs t).Nodup)
    (hf : height t < fuel) : ∃ h', reverseTreeHelper fuel h p = some h' ∧
      Linked h' p (BST.reverseTree t) ∧ ∀ a ∉ addrs t, h'.read a = h.read a := by
  induction t generalizing h p fuel with
  | null =>
    obtain rfl : p = none := ht
    cases fuel with
    | zero => omega
    | succ fuel => exact ⟨h, rfl, rfl, fun _ _ => rfl⟩
  | node c l r ihl ihr =>
    obtain ⟨rfl, x, hx, hel, hl, hr⟩ := ht
    cases fuel with
    | zero => omega
    | succ fuel =>
      rw [height] at hf
      rw [addrs_node, List.nodup_append, List.nodup_cons] at hnd
      obtain ⟨hndl, ⟨hcr, hndr⟩, hdisj⟩ := hnd
      have hcl : c.1 ∉ addrs l := fun hc => hdisj _ hc _ (by simp) rfl
      have hlr {a : ℕ} (ha : a ∈ addrs l) : a ∉ addrs r := fun hb => hdisj a ha a (by simp [hb]) rfl
      -- the children change places, then each side is reversed
      let h₁ := h.put c.1 (some { x with left := x.right, right := x.left }) (Heap.lt_fresh hx)
      have hread₁ (a : ℕ) (ha : a ≠ c.1) : h₁.read a = h.read a := by
        rw [Heap.read_put, if_neg ha]
      have hself₁ : h₁.read c.1 = some { x with left := x.right, right := x.left } := by
        rw [Heap.read_put, if_pos rfl]
      have hr₁ : Linked h₁ x.right r :=
        hr.congr fun a ha => hread₁ a (ne_of_mem_of_not_mem ha hcr)
      obtain ⟨h₂, hrun₂, hr₂, hframe₂⟩ := ihr hr₁ hndr (show height r < fuel by omega)
      have hl₂ : Linked h₂ x.left l := hl.congr fun a ha =>
        (hframe₂ a (hlr ha)).trans (hread₁ a (ne_of_mem_of_not_mem ha hcl))
      obtain ⟨h₃, hrun₃, hl₃, hframe₃⟩ := ihl hl₂ hndl (show height l < fuel by omega)
      have hself₂ := (hframe₂ c.1 hcr).trans hself₁
      refine ⟨h₃, ?_, ⟨rfl, _, (hframe₃ c.1 hcl).trans hself₂, hel, ?_, hl₃⟩, fun a ha => ?_⟩
      · have hswap : h.modify c.1 (fun x => { x with left := x.right, right := x.left }) = some h₁ :=
          Heap.modify_of_read _ hx
        simp only [reverseTreeHelper, hswap, Option.bind_some, hself₁, hrun₂, hself₂, hrun₃]
      · exact hr₂.congr fun a ha => hframe₃ a fun hb => hlr hb (by simpa [addrs] using ha)
      · rw [addrs_node, List.mem_append, List.mem_cons, not_or, not_or] at ha
        obtain ⟨hal, hac, har⟩ := ha
        rw [hframe₃ a hal, hframe₂ a har, hread₁ a hac]

theorem Linked.clear {h : Heap (BSTNode α)} (ht : Linked h p t) (hnd : (addrs t).Nodup)
    (hf : height t < fuel) : ∃ h', clearNodes fuel h p = some h' ∧
      (∀ a ∈ addrs t, h'.read a = none) ∧ ∀ a ∉ addrs t, h'.read a = h.read a := by
  induction t generalizing h p fuel with
  | null =>
    obtain rfl : p = none := ht
    cases fuel with
    | zero => omega
    | succ fuel => exact ⟨h, rfl, by simp, fun _ _ => rfl⟩
  | node c l r ihl ihr =>
    obtain ⟨rfl, x, hx, hel, hl, hr⟩ := ht
    cases fuel with
    | zero => omega
    | succ fuel =>
      rw [height] at hf
      rw [addrs_node, List.nodup_append, List.nodup_cons] at hnd
      obtain ⟨hndl, ⟨hcr, hndr⟩, hdisj⟩ := hnd
      have hcl : c.1 ∉ addrs l := fun hc => hdisj _ hc _ (by simp) rfl
      have hlr {a : ℕ} (ha : a ∈ addrs l) : a ∉ addrs r := fun hb => hdisj a ha a (by simp [hb]) rfl
      obtain ⟨h₁, hrun₁, hfree₁, hframe₁⟩ := ihl hl hndl (show height l < fuel by omega)
      have hself₁ := (hframe₁ c.1 hcl).trans hx
      have hr₁ : Linked h₁ x.right r := hr.congr fun a ha => hframe₁ a fun hb => hlr hb ha
      obtain ⟨h₂, hrun₂, hfree₂, hframe₂⟩ := ihr hr₁ hndr (show height r < fuel by omega)
      have hself₂ := (hframe₂ c.1 hcr).trans hself₁
      refine ⟨h₂.put c.1 none (Heap.lt_fresh hself₂), ?_, fun a ha => ?_, fun a ha => ?_⟩
      · rw [clearNodes, hx, Option.bind_some, hrun₁, Option.bind_some, hself₁, Option.bind_some,
          hrun₂, Option.bind_some, Heap.free_of_read hself₂]
      · rw [addrs_node, List.mem_append, List.mem_cons] at ha
        rw [Heap.read_put]
        split_ifs with hac
        · rfl
        · rcases ha with ha | ha | ha
          · rw [hframe₂ a (hlr ha), hfree₁ a ha]
          · exact absurd ha hac
          · exact hfree₂ a ha
      · rw [addrs_node, List.mem_append, List.mem_cons, not_or, not_or] at ha
        obtain ⟨hal, hac, har⟩ := ha
        rw [Heap.read_put, if_neg hac, hframe₂ a har, hframe₁ a hal]

theorem Owns.reverseTree (h : Owns s t) (hf : height t < fuel) :
    ∃ s', s.reverseTree fuel = some s' ∧ Owns s' (BST.reverseTree t) := by
  obtain ⟨heap, hrun, hlinked, hframe⟩ := h.linked.reverseTree h.nodup hf
  have hperm : (addrs (BST.reverseTree t)).Perm (addrs t) := by
    simp [addrs, List.reverse_perm]
  refine ⟨{ s with heap := heap }, by rw [TreeState.reverseTree, hrun, Option.map_some], hlinked,
    hperm.nodup_iff.2 h.nodup, fun a ha => ?_⟩
  rw [hperm.mem_iff]
  by_contra hmem
  have hname : s.name a = ({ s with heap := heap } : TreeState α).name a := by
    simp [TreeState.name, hframe a hmem]
  exact hmem (h.only a (hname ▸ ha))

/-- Nothing is left. -/
theorem Owns.clear (h : Owns s t) (hf : height t < fuel) :
    ∃ s', s.clear fuel = some s' ∧ Owns s' .null := by
  obtain ⟨heap, hrun, hfree, hframe⟩ := h.linked.clear h.nodup hf
  refine ⟨⟨heap, none⟩, by rw [TreeState.clear, hrun, Option.map_some], rfl, by simp,
    fun a ha => ?_⟩
  by_cases hmem : a ∈ addrs t
  · simp [TreeState.name, hfree a hmem] at ha
  · have hname : s.name a = (⟨heap, none⟩ : TreeState α).name a := by
      simp [TreeState.name, hframe a hmem]
    exact absurd (h.only a (hname ▸ ha)) hmem

end SchoolProjects.NameTree
