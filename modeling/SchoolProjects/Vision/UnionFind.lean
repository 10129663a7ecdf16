import SchoolProjects.Lib.Forest
import SchoolProjects.Lib.Heap

/-! The union-find structure of the labelling program (`unionfind.h`). Nodes live on
a heap and point to their parents; `find` redirects the node it was asked for, and
only that one, to its root. A result `none` is a null or dangling pointer, or a
climb that does not end. Numbers are unbounded. -/

namespace SchoolProjects.Vision

open Forest

/-- `struct Node`. -/
structure Node where
  value : ℤ := -1
  prev : Option ℕ := none
  next : List ℕ := []

namespace Node

def setValue (n : Node) (num : ℤ) : Node := { n with value := num }

def setPrev (n : Node) (a : ℕ) : Node := { n with prev := some a }

/-- `n->next.push_back(a)`. -/
def pushNext (n : Node) (a : ℕ) : Node := { n with next := n.next ++ [a] }

end Node

/-- `class UnionFind`, with the heap its nodes live in. -/
structure UnionFind where
  heap : Heap Node
  collection : List ℕ
  nodeLocs : ℤ → Option ℕ

namespace UnionFind

def empty : UnionFind := ⟨.empty, [], fun _ => none⟩

def added (uf : UnionFind) (num : ℤ) : UnionFind :=
  ⟨uf.heap.alloc { value := num }, uf.collection ++ [uf.heap.fresh],
    Function.update uf.nodeLocs num (some uf.heap.fresh)⟩

/-- `add`; the null pointer it returns for a number that is there is `none`. -/
def add (uf : UnionFind) (num : ℤ) : Option (ℕ × UnionFind) :=
  match uf.nodeLocs num with
  | none => some (uf.heap.fresh, uf.added num)
  | some _ => none

/-- `while (temp->prev != nullptr) temp = temp->prev;` -/
def climb (h : Heap Node) : ℕ → ℕ → Option ℕ
  | 0, _ => none
  | fuel + 1, temp => do
    let t ← h.read temp
    match t.prev with
    | none => return temp
    | some p => climb h fuel p

/-- `find`: the node at the root and the structure afterwards. The loop over
`node->prev->next` erases from a copy of that list, so it leaves no trace. -/
def find (uf : UnionFind) (num : ℤ) : Option (ℕ × UnionFind) :=
  match uf.nodeLocs num with
  | none => uf.add num
  | some node => do
    let n ← uf.heap.read node
    match n.prev with
    | none => return (node, uf)
    | some parent => do
      let temp ← climb uf.heap (uf.heap.fresh + 1) node
      if parent = temp then return (temp, uf)
      let heap ← uf.heap.modify temp fun t => t.pushNext node
      if node = temp then return (node, { uf with heap := heap })
      let heap ← heap.modify node fun n => n.setPrev temp
      return (temp, { uf with heap := heap })

/-- The loop of `Union` that removes the first root with the value of `bRoot`. -/
def eraseValue (h : Heap Node) (value : ℤ) : List ℕ → Option (List ℕ)
  | [] => some []
  | c :: cs => do
    let n ← h.read c
    if n.value = value then return cs
    let cs ← eraseValue h value cs
    return c :: cs

/-- `Union`; `find` never returns a null pointer, so the test for one is left out. -/
def Union (uf : UnionFind) (a b : ℤ) : Option (Bool × UnionFind) := do
  let (aRoot, uf) ← uf.find a
  let (bRoot, uf) ← uf.find b
  if aRoot = bRoot then return (true, uf)
  let heap ← uf.heap.modify aRoot fun n => n.pushNext bRoot
  let heap ← heap.modify bRoot fun n => n.setPrev aRoot
  let n ← heap.read bRoot
  let collection ← eraseValue heap n.value uf.collection
  return (true, { uf with heap := heap, collection := collection })

def changeValue (uf : UnionFind) (a : ℕ) (num : ℤ) : Option UnionFind :=
  (uf.heap.modify a fun n => n.setValue num).map fun heap => { uf with heap := heap }

/-! ### Well-formed structures -/

def parent (uf : UnionFind) (a : ℕ) : Option ℕ := (uf.heap.read a).bind Node.prev

def value (uf : UnionFind) (a : ℕ) : Option ℤ := (uf.heap.read a).map Node.value

/-- The list `next` of a node; what is no node has no children. -/
def children (uf : UnionFind) (a : ℕ) : List ℕ := ((uf.heap.read a).map Node.next).getD []

/-- The numbers that have a node. -/
def Known (uf : UnionFind) (num : ℤ) : Prop := (uf.nodeLocs num).isSome

/-- `r` is the node at the root above the node of `num`. -/
def Root (uf : UnionFind) (num : ℤ) (r : ℕ) : Prop :=
  ∃ n, uf.nodeLocs num = some n ∧ RootOf uf.parent n r

/-- Every pointer is to a node and every climb ends; nothing is said about which nodes
`collection` lists. -/
structure Sane (uf : UnionFind) : Prop where
  loc : ∀ k n, uf.nodeLocs k = some n → (uf.heap.read n).isSome
  up : ∀ n p, uf.parent n = some p → (uf.heap.read p).isSome
  forest : ∀ n, ∃ r, RootOf uf.parent n r
  alloc : ∀ n ∈ uf.collection, (uf.heap.read n).isSome

/-- Numbers and nodes correspond, parents are allocated and lead to a root, and
`collection` lists the roots. Nothing is said about values. -/
structure Wf (uf : UnionFind) : Prop where
  loc : ∀ k n, uf.nodeLocs k = some n → (uf.heap.read n).isSome
  inj : ∀ k k' n, uf.nodeLocs k = some n → uf.nodeLocs k' = some n → k = k'
  key : ∀ n, (uf.heap.read n).isSome → ∃ k, uf.nodeLocs k = some n
  up : ∀ n p, uf.parent n = some p → (uf.heap.read p).isSome
  forest : ∀ n, ∃ r, RootOf uf.parent n r
  nodup : uf.collection.Nodup
  roots : ∀ n, n ∈ uf.collection ↔ (uf.heap.read n).isSome ∧ uf.parent n = none

/-- Every node holds its number. -/
def Keyed (uf : UnionFind) : Prop := ∀ k n, uf.nodeLocs k = some n → uf.value n = some k

/-- `uf'` differs from `uf` in the shape of its trees only. -/
structure Like (uf' uf : UnionFind) : Prop where
  locs : uf'.nodeLocs = uf.nodeLocs
  collection : uf'.collection = uf.collection
  value : ∀ n, uf'.value n = uf.value n
  root : ∀ n r, RootOf uf'.parent n r ↔ RootOf uf.parent n r

section Find

variable {uf : UnionFind} {num : ℤ} {n : ℕ}

theorem Like.refl (uf : UnionFind) : uf.Like uf := ⟨rfl, rfl, fun _ => rfl, fun _ _ => Iff.rfl⟩

theorem parent_of_read {x : Node} (h : uf.heap.read n = some x) : uf.parent n = x.prev := by
  simp [parent, h]

theorem read_of_parent {p : ℕ} (h : uf.parent n = some p) : (uf.heap.read n).isSome := by
  cases hr : uf.heap.read n with
  | none => simp [parent, hr] at h
  | some => rfl

theorem Wf.sane (hw : uf.Wf) : uf.Sane :=
  ⟨hw.loc, hw.up, hw.forest, fun n hn => ((hw.roots n).mp hn).1⟩

theorem Sane.root_exists (hs : uf.Sane) {k : ℤ} (hk : uf.Known k) : ∃ r, uf.Root k r := by
  obtain ⟨n, hn⟩ := Option.isSome_iff_exists.mp hk
  obtain ⟨r, hr⟩ := hs.forest n
  exact ⟨r, n, hn, hr⟩

theorem Wf.root_exists (hw : uf.Wf) {k : ℤ} (hk : uf.Known k) : ∃ r, uf.Root k r :=
  hw.sane.root_exists hk

theorem Root.unique {k : ℤ} {r s : ℕ} (h : uf.Root k r) (h' : uf.Root k s) : r = s := by
  obtain ⟨n, hn, hr⟩ := h
  obtain ⟨n', hn', hr'⟩ := h'
  obtain rfl := Option.some.inj (hn.symm.trans hn')
  exact hr.unique hr'

/-- The root of an allocated node is allocated. -/
theorem Sane.root_alloc (hs : uf.Sane) {r : ℕ} (hn : (uf.heap.read n).isSome)
    (hr : RootOf uf.parent n r) : (uf.heap.read r).isSome := by
  obtain ⟨m, hr⟩ := hr
  induction hr with
  | root => exact hn
  | step hp _ ih => exact ih (hs.up _ _ hp)

theorem Wf.root_alloc (hw : uf.Wf) {r : ℕ} (hn : (uf.heap.read n).isSome)
    (hr : RootOf uf.parent n r) : (uf.heap.read r).isSome :=
  hw.sane.root_alloc hn hr

/-- The root above a number is in `collection`. -/
theorem Wf.root_mem (hw : uf.Wf) {k : ℤ} {r : ℕ} (h : uf.Root k r) : r ∈ uf.collection := by
  obtain ⟨n, hn, hr⟩ := h
  exact (hw.roots r).mpr ⟨hw.root_alloc (hw.loc k n hn) hr, hr.parent_root⟩

/-- Every node of `collection` is the root above its own number. -/
theorem Wf.key_of_mem (hw : uf.Wf) {r : ℕ} (hr : r ∈ uf.collection) :
    ∃ k, uf.nodeLocs k = some r ∧ uf.Root k r := by
  obtain ⟨ha, hp⟩ := (hw.roots r).mp hr
  obtain ⟨k, hk⟩ := hw.key r ha
  exact ⟨k, hk, r, hk, rootOf_self hp⟩

/-- The climb of `find` ends at the root: the nodes it passes are distinct. -/
theorem climb_eq (hs : uf.Sane) (hn : (uf.heap.read n).isSome) {r : ℕ}
    (hr : RootOf uf.parent n r) : climb uf.heap (uf.heap.fresh + 1) n = some r := by
  obtain ⟨m, hup⟩ := hr
  have hm : m < uf.heap.fresh + 1 := by
    obtain ⟨l, hlen, hnd, hl⟩ := hup.path
    have := Heap.length_le_fresh (h := uf.heap) hnd fun a ha => by
      obtain ⟨p, hp⟩ := Option.ne_none_iff_exists'.mp (hl a ha).1
      exact read_of_parent hp
    omega
  generalize uf.heap.fresh + 1 = fuel at hm
  induction hup generalizing fuel with
  | @root a h =>
    obtain ⟨fuel, rfl⟩ := Nat.exists_eq_succ_of_ne_zero (by omega : fuel ≠ 0)
    obtain ⟨x, hx⟩ := Option.isSome_iff_exists.mp hn
    simp [climb, hx, (parent_of_read hx).symm.trans h]
  | @step m a p r hp _ ih =>
    obtain ⟨fuel, rfl⟩ := Nat.exists_eq_succ_of_ne_zero (by omega : fuel ≠ 0)
    obtain ⟨x, hx⟩ := Option.isSome_iff_exists.mp hn
    have := ih (hs.up _ _ hp) fuel (by omega)
    simpa [climb, hx, (parent_of_read hx).symm.trans hp] using this

theorem Like.alloc {uf' : UnionFind} (hl : uf'.Like uf) (n : ℕ) :
    (uf'.heap.read n).isSome = (uf.heap.read n).isSome := by
  simpa [UnionFind.value] using congrArg Option.isSome (hl.value n)

theorem Sane.of_like {uf' : UnionFind} (hs : uf.Sane) (hl : uf'.Like uf)
    (hup : ∀ n p, uf'.parent n = some p → (uf'.heap.read p).isSome) : uf'.Sane where
  loc k n hk := by rw [hl.alloc]; exact hs.loc k n (hl.locs ▸ hk)
  up := hup
  forest n := (hs.forest n).imp fun r hr => (hl.root n r).mpr hr
  alloc n hn := by rw [hl.alloc]; exact hs.alloc n (hl.collection ▸ hn)

theorem Wf.of_like {uf' : UnionFind} (hw : uf.Wf) (hl : uf'.Like uf)
    (hup : ∀ n p, uf'.parent n = some p → (uf'.heap.read p).isSome) : uf'.Wf where
  loc k n hk := by rw [hl.alloc]; exact hw.loc k n (hl.locs ▸ hk)
  inj k k' n hk hk' := hw.inj k k' n (hl.locs ▸ hk) (hl.locs ▸ hk')
  key n hn := by rw [hl.locs]; exact hw.key n (hl.alloc n ▸ hn)
  up := hup
  forest n := (hw.forest n).imp fun r hr => (hl.root n r).mpr hr
  nodup := hl.collection ▸ hw.nodup
  roots n := by
    have hself : uf'.parent n = none ↔ uf.parent n = none := by
      constructor
      · exact fun h => ((hl.root n n).mp (rootOf_self h)).parent_root
      · exact fun h => ((hl.root n n).mpr (rootOf_self h)).parent_root
    rw [hl.collection, hl.alloc, hself]
    exact hw.roots n

/-- `r->next.push_back(n); n->prev = r;` changes the parent of `n` and the list of `r`. -/
theorem attach_eq {r : ℕ} (hr : (uf.heap.read r).isSome) (hn : (uf.heap.read n).isSome)
    (hne : r ≠ n) :
    ∃ h₁ h₂ x, uf.heap.modify r (fun t => t.pushNext n) = some h₁ ∧
      h₁.modify n (fun n => n.setPrev r) = some h₂ ∧ h₂.read n = some x ∧
      (∀ cs locs, UnionFind.value ⟨h₂, cs, locs⟩ = uf.value) ∧
      (∀ cs locs, UnionFind.parent ⟨h₂, cs, locs⟩ = Function.update uf.parent n (some r)) ∧
      ∀ cs locs, UnionFind.children ⟨h₂, cs, locs⟩ = attach uf.children r n := by
  obtain ⟨x, hx⟩ := Option.isSome_iff_exists.mp hr
  obtain ⟨y, hy⟩ := Option.isSome_iff_exists.mp hn
  set h₁ := uf.heap.put r (some (x.pushNext n)) (Heap.lt_fresh hx) with hh₁
  have hy₁ : h₁.read n = some y := by simp [hh₁, hne.symm, hy]
  set h₂ := h₁.put n (some (y.setPrev r)) (Heap.lt_fresh hy₁) with hh₂
  have hread : ∀ c, h₂.read c = if c = n then some (y.setPrev r)
      else if c = r then some (x.pushNext n) else uf.heap.read c := fun c => by
    simp [hh₂, hh₁]
  refine ⟨h₁, h₂, y.setPrev r, Heap.modify_of_read _ hx, Heap.modify_of_read _ hy₁,
    by simp [hread], fun cs locs => funext fun c => ?_, fun cs locs => funext fun c => ?_,
    fun cs locs => funext fun c => ?_⟩
  · by_cases hcn : c = n
    · subst hcn
      simp [value, hread, hy, Node.setPrev]
    · by_cases hcr : c = r
      · subst hcr
        simp [value, hread, hcn, hx, Node.pushNext]
      · simp [value, hread, hcn, hcr]
  · by_cases hcn : c = n
    · subst hcn
      simp [parent, hread, Node.setPrev]
    · by_cases hcr : c = r
      · subst hcr
        simp [parent, hread, hcn, hx, Node.pushNext]
      · simp [parent, hread, hcn, hcr]
  · by_cases hcr : c = r
    · subst hcr
      simp [children, hread, hne, hx, Node.pushNext, attach_self]
    · rw [attach_ne _ _ hcr]
      by_cases hcn : c = n
      · subst hcn
        simp [children, hread, hy, Node.setPrev]
      · simp [children, hread, hcn, hcr]

/-- A node that is a root or a child of its root stays where it is. -/
theorem find_flat (hs : uf.Sane) (hn : uf.nodeLocs num = some n) {r : ℕ}
    (hr : RootOf uf.parent n r) (hflat : ∀ p, uf.parent n = some p → p = r) :
    uf.find num = some (r, uf) := by
  obtain ⟨x, hx⟩ := Option.isSome_iff_exists.mp (hs.loc num n hn)
  have hclimb := climb_eq hs (by simp [hx]) hr
  cases hp : x.prev with
  | none =>
    obtain rfl := (rootOf_root ((parent_of_read hx).trans hp)).mp hr
    simp [find, hn, hx, hp]
  | some p =>
    have hpr := hflat p ((parent_of_read hx).trans hp)
    simp [find, hn, hx, hp, hclimb, hpr]

/-- Any other node becomes a child of its root. -/
theorem find_redirect (hs : uf.Sane) (hn : uf.nodeLocs num = some n) {p r : ℕ}
    (hp : uf.parent n = some p) (hr : RootOf uf.parent n r) (hpr : p ≠ r) :
    ∃ uf', uf.find num = some (r, uf') ∧ uf'.nodeLocs = uf.nodeLocs ∧
      uf'.collection = uf.collection ∧ uf'.value = uf.value ∧
      uf'.parent = Function.update uf.parent n (some r) ∧
      uf'.children = attach uf.children r n := by
  obtain ⟨x, hx⟩ := Option.isSome_iff_exists.mp (hs.loc num n hn)
  have hclimb := climb_eq hs (by simp [hx]) hr
  have hprev : x.prev = some p := (parent_of_read hx).symm.trans hp
  have hnr : r ≠ n := by
    rintro rfl
    simp [hr.parent_root] at hp
  obtain ⟨h₁, h₂, -, hm₁, hm₂, -, hvalue, hparent, hchildren⟩ :=
    attach_eq (hs.root_alloc (by simp [hx]) hr) (by simp [hx]) hnr
  refine ⟨{ uf with heap := h₂ }, ?_, rfl, rfl, hvalue _ _, hparent _ _, hchildren _ _⟩
  simp [find, hn, hx, hprev, hclimb, hpr, hm₁, hm₂, hnr.symm]

/-- `find` of a number that is there returns its root and changes no root. -/
theorem find_like (hs : uf.Sane) (hn : uf.nodeLocs num = some n) :
    ∃ r uf', uf.find num = some (r, uf') ∧ RootOf uf.parent n r ∧ uf'.Like uf ∧
      ∀ n p, uf'.parent n = some p → (uf'.heap.read p).isSome := by
  obtain ⟨r, hr⟩ := hs.forest n
  by_cases hflat : ∀ p, uf.parent n = some p → p = r
  · exact ⟨r, uf, find_flat hs hn hr hflat, hr, .refl uf, hs.up⟩
  · push Not at hflat
    obtain ⟨p, hp, hpr⟩ := hflat
    obtain ⟨uf', hfind, hlocs, hcollection, hvalue, hparent, -⟩ := find_redirect hs hn hp hr hpr
    have hlike : uf'.Like uf := by
      refine ⟨hlocs, hcollection, congrFun hvalue, fun a s => ?_⟩
      refine rootOf_compress hr (by simp [hp]) (by simp [hparent]) fun c hc => ?_
      rw [hparent, Function.update_of_ne hc]
    refine ⟨r, uf', hfind, hr, hlike, fun a q ha => ?_⟩
    rw [hlike.alloc]
    rw [hparent] at ha
    by_cases han : a = n
    · rw [han, Function.update_self] at ha
      obtain rfl := Option.some.inj ha
      exact hs.root_alloc (hs.loc num n hn) hr
    · rw [Function.update_of_ne han] at ha
      exact hs.up a q ha

theorem find_known (hw : uf.Wf) (hn : uf.nodeLocs num = some n) :
    ∃ r uf', uf.find num = some (r, uf') ∧ RootOf uf.parent n r ∧ uf'.Wf ∧ uf'.Like uf := by
  obtain ⟨r, uf', hfind, hr, hl, hup⟩ := find_like hw.sane hn
  exact ⟨r, uf', hfind, hr, hw.of_like hl hup, hl⟩

end Find

section Added

variable {uf : UnionFind} {num : ℤ} {n : ℕ}

theorem parent_added (uf : UnionFind) (num : ℤ) : (uf.added num).parent = uf.parent := by
  funext a
  by_cases ha : a = uf.heap.fresh
  · subst ha
    simp [parent, added, Heap.read_fresh]
  · simp [parent, added, ha]

theorem find_new (hn : uf.nodeLocs num = none) :
    uf.find num = some (uf.heap.fresh, uf.added num) := by
  simp [find, add, hn]

theorem added_locs (uf : UnionFind) (num k : ℤ) :
    (uf.added num).nodeLocs k = if k = num then some uf.heap.fresh else uf.nodeLocs k := by
  simp [added, Function.update_apply]

theorem added_alloc (uf : UnionFind) (num : ℤ) (n : ℕ) :
    ((uf.added num).heap.read n).isSome ↔ n = uf.heap.fresh ∨ (uf.heap.read n).isSome := by
  by_cases hn : n = uf.heap.fresh <;> simp [added, hn]

theorem Sane.loc_ne_fresh (hs : uf.Sane) {k : ℤ} (hk : uf.nodeLocs k = some n) :
    n ≠ uf.heap.fresh := by
  obtain ⟨x, hx⟩ := Option.isSome_iff_exists.mp (hs.loc k n hk)
  exact Heap.ne_fresh hx

theorem parent_fresh (uf : UnionFind) : uf.parent uf.heap.fresh = none := by
  simp [parent, Heap.read_fresh]

theorem Sane.added (hs : uf.Sane) (num : ℤ) : (uf.added num).Sane where
  loc k n hk := by
    rw [added_locs] at hk
    rw [added_alloc]
    split_ifs at hk with hkn
    · exact Or.inl (Option.some.inj hk).symm
    · exact Or.inr (hs.loc k n hk)
  up n p hp := by
    rw [parent_added] at hp
    exact (added_alloc uf num p).mpr (Or.inr (hs.up n p hp))
  forest n := by rw [parent_added]; exact hs.forest n
  alloc n hn := by
    rw [added_alloc]
    rcases List.mem_append.mp hn with hn | hn
    · exact Or.inr (hs.alloc n hn)
    · exact Or.inl (List.mem_singleton.mp hn)

/-- A new node is a root of its own. -/
theorem Wf.added (hw : uf.Wf) (hnum : uf.nodeLocs num = none) : (uf.added num).Wf where
  loc := (hw.sane.added num).loc
  inj k k' n hk hk' := by
    rw [added_locs] at hk hk'
    split_ifs at hk hk' with h1 h2 h2
    · rw [h1, h2]
    · exact absurd (Option.some.inj hk).symm (hw.sane.loc_ne_fresh hk')
    · exact absurd (Option.some.inj hk').symm (hw.sane.loc_ne_fresh hk)
    · exact hw.inj k k' n hk hk'
  key n hn := by
    rcases (added_alloc uf num n).mp hn with rfl | hn
    · exact ⟨num, by simp [added_locs]⟩
    · obtain ⟨k, hk⟩ := hw.key n hn
      have hkn : k ≠ num := by
        rintro rfl
        simp [hnum] at hk
      exact ⟨k, by simp [added_locs, hkn, hk]⟩
  up := (hw.sane.added num).up
  forest := (hw.sane.added num).forest
  nodup := by
    refine List.nodup_append.mpr ⟨hw.nodup, List.nodup_singleton _, fun a ha b hb => ?_⟩
    rw [List.mem_singleton.mp hb]
    obtain ⟨x, hx⟩ := Option.isSome_iff_exists.mp ((hw.roots a).mp ha).1
    exact Heap.ne_fresh hx
  roots n := by
    rw [added_alloc, parent_added]
    simp only [UnionFind.added, List.mem_append, List.mem_singleton, hw.roots]
    constructor
    · rintro (⟨ha, hp⟩ | rfl)
      · exact ⟨Or.inr ha, hp⟩
      · exact ⟨Or.inl rfl, parent_fresh uf⟩
    · rintro ⟨rfl | ha, hp⟩
      · exact Or.inr rfl
      · exact Or.inl ⟨ha, hp⟩

theorem added_root (uf : UnionFind) (num k : ℤ) (r : ℕ) :
    (uf.added num).Root k r ↔ (k = num ∧ r = uf.heap.fresh) ∨ (k ≠ num ∧ uf.Root k r) := by
  unfold Root
  rw [parent_added]
  by_cases hk : k = num
  · simp [added_locs, hk, rootOf_root (parent_fresh uf)]
  · simp [added_locs, hk]

theorem added_value (uf : UnionFind) (num : ℤ) (n : ℕ) :
    (uf.added num).value n = if n = uf.heap.fresh then some num else uf.value n := by
  by_cases hn : n = uf.heap.fresh <;> simp [value, added, hn]

theorem Keyed.added (hw : uf.Wf) (hk : uf.Keyed) (num : ℤ) : (uf.added num).Keyed := by
  intro k n hn
  rw [added_locs] at hn
  rw [added_value]
  split_ifs at hn with hkn
  · obtain rfl := Option.some.inj hn
    simp [hkn]
  · rw [if_neg (hw.sane.loc_ne_fresh hn)]
    exact hk k n hn

end Added

section Sane

variable {uf : UnionFind} {a b : ℤ}

theorem empty_sane : empty.Sane :=
  ⟨fun k n h => (by cases h), fun n p h => (by cases h), fun n => ⟨n, rootOf_self rfl⟩,
    fun n hn => (by cases hn)⟩

/-- `find` of any number returns the root above it. -/
theorem find_sane (hs : uf.Sane) (a : ℤ) :
    ∃ r uf', uf.find a = some (r, uf') ∧ uf'.Sane ∧ uf'.Root a r ∧
      ∀ k s, uf.Root k s → uf'.Root k s := by
  cases hn : uf.nodeLocs a with
  | some n =>
    obtain ⟨r, uf', hfind, hroot, hl, hup⟩ := find_like hs hn
    refine ⟨r, uf', hfind, hs.of_like hl hup, ⟨n, hl.locs ▸ hn, (hl.root n r).mpr hroot⟩, ?_⟩
    rintro k s ⟨m, hm, hr⟩
    exact ⟨m, hl.locs ▸ hm, (hl.root m s).mpr hr⟩
  | none =>
    refine ⟨_, _, find_new hn, hs.added a, (added_root uf a a _).mpr (Or.inl ⟨rfl, rfl⟩), ?_⟩
    intro k s hr
    apply (added_root uf a k s).mpr
    refine Or.inr ⟨?_, hr⟩
    rintro rfl
    obtain ⟨m, hm, -⟩ := hr
    simp [hn] at hm

/-- Where `f` tells the members of a list from `b`, erasing by `f` erases `b`. -/
theorem eraseP_eq_erase {α β : Type*} [DecidableEq α] [DecidableEq β] {f : α → β} {b : α}
    {l : List α} (h : ∀ k ∈ l, f k = f b ↔ k = b) : (l.eraseP fun k => f k = f b) = l.erase b := by
  induction l with
  | nil => rfl
  | cons k l ih =>
    have ih := ih fun x hx => h x (by simp [hx])
    by_cases hk : k = b
    · subst hk
      simp
    · simp [mt (h k (by simp)).mp hk, hk, ih]

/-- The loop of `Union` erases the first root with the value. -/
theorem eraseValue_eraseP {h : Heap Node} (v : ℤ) {cs : List ℕ}
    (hc : ∀ c ∈ cs, (h.read c).isSome) :
    eraseValue h v cs = some (cs.eraseP fun c => (h.read c).map Node.value = some v) := by
  induction cs with
  | nil => rfl
  | cons c cs ih =>
    obtain ⟨x, hx⟩ := Option.isSome_iff_exists.mp (hc c (by simp))
    have ih := ih fun d hd => hc d (by simp [hd])
    by_cases hv : x.value = v
    · simp [eraseValue, hx, hv]
    · simp [eraseValue, hx, hv, ih]

/-- The roots after linking two roots. -/
theorem link_root {ra rb : ℕ} (ha : uf.parent ra = none) (hb : uf.parent rb = none)
    (hne : ra ≠ rb) (x y : ℕ) :
    RootOf (Function.update uf.parent rb (some ra)) x y ↔
      (RootOf uf.parent x y ∧ y ≠ rb) ∨ (RootOf uf.parent x rb ∧ y = ra) :=
  rootOf_link ha hb hne (Function.update_self ..) fun _ hc => Function.update_of_ne hc ..

/-- Linking two roots, with what `Union` does to the collection. -/
theorem link_sane (hs : uf.Sane) {ra rb : ℕ} (ha : uf.Root a ra) (hb : uf.Root b rb)
    (hne : ra ≠ rb) :
    ∃ h₁ h₂ n, uf.heap.modify ra (fun n => n.pushNext rb) = some h₁ ∧
      h₁.modify rb (fun n => n.setPrev ra) = some h₂ ∧ h₂.read rb = some n ∧
      eraseValue h₂ n.value uf.collection =
        some (uf.collection.eraseP fun c => uf.value c = uf.value rb) ∧
      (∀ cs locs, UnionFind.value ⟨h₂, cs, locs⟩ = uf.value) ∧
      (∀ cs locs x y, RootOf (UnionFind.parent ⟨h₂, cs, locs⟩) x y ↔
        (RootOf uf.parent x y ∧ y ≠ rb) ∨ (RootOf uf.parent x rb ∧ y = ra)) ∧
      Sane ⟨h₂, uf.collection.eraseP fun c => uf.value c = uf.value rb, uf.nodeLocs⟩ := by
  obtain ⟨na, hna, hra⟩ := ha
  obtain ⟨nb, hnb, hrb⟩ := hb
  have haa := hs.root_alloc (hs.loc a na hna) hra
  have hba := hs.root_alloc (hs.loc b nb hnb) hrb
  obtain ⟨h₁, h₂, n, hm₁, hm₂, hn, hval, hpar, -⟩ := attach_eq haa hba hne
  have hread : ∀ c, (h₂.read c).map Node.value = uf.value c := fun c =>
    congrFun (hval [] uf.nodeLocs) c
  have halloc : ∀ c, (h₂.read c).isSome = (uf.heap.read c).isSome := fun c => by
    simpa [value] using congrArg Option.isSome (hread c)
  have hroot : ∀ cs locs x y, RootOf (UnionFind.parent ⟨h₂, cs, locs⟩) x y ↔
      (RootOf uf.parent x y ∧ y ≠ rb) ∨ (RootOf uf.parent x rb ∧ y = ra) := fun cs locs x y => by
    rw [hpar]
    exact link_root hra.parent_root hrb.parent_root hne x y
  refine ⟨h₁, h₂, n, hm₁, hm₂, hn, ?_, hval, hroot, fun k m hk => ?_, fun c p hc => ?_,
    fun c => ?_, fun c hc => ?_⟩
  · rw [eraseValue_eraseP _ fun c hc => (halloc c).trans (hs.alloc c hc)]
    simp only [hread, ← hread rb, hn, Option.map_some]
  · rw [halloc]
    exact hs.loc k m hk
  · rw [halloc]
    rw [hpar] at hc
    by_cases hcb : c = rb
    · rw [hcb, Function.update_self] at hc
      exact Option.some.inj hc ▸ haa
    · rw [Function.update_of_ne hcb] at hc
      exact hs.up c p hc
  · obtain ⟨s, hs'⟩ := hs.forest c
    by_cases hsb : s = rb
    · exact ⟨ra, (hroot _ _ c ra).mpr (Or.inr ⟨hsb ▸ hs', rfl⟩)⟩
    · exact ⟨s, (hroot _ _ c s).mpr (Or.inl ⟨hs', hsb⟩)⟩
  · rw [halloc]
    exact hs.alloc c (List.mem_of_mem_eraseP hc)

theorem union_sane (hs : uf.Sane) (a b : ℤ) :
    ∃ uf', uf.Union a b = some (true, uf') ∧ uf'.Sane := by
  obtain ⟨ra, uf₁, hfind₁, hs₁, hra, -⟩ := find_sane hs a
  obtain ⟨rb, uf₂, hfind₂, hs₂, hrb, hroot⟩ := find_sane hs₁ b
  by_cases hab : ra = rb
  · exact ⟨uf₂, by simp [Union, hfind₁, hfind₂, hab], hs₂⟩
  · obtain ⟨h₁, h₂, n, hm₁, hm₂, hn, herase, -, -, hs'⟩ := link_sane hs₂ (hroot a ra hra) hrb hab
    exact ⟨_, by simp [Union, hfind₁, hfind₂, hab, hm₁, hm₂, hn, herase], hs'⟩

end Sane

/-! ### What a structure represents -/

/-- The structure represents the equivalence generated by `pairs`. -/
structure Rep (uf : UnionFind) (pairs : List (ℤ × ℤ)) : Prop where
  wf : uf.Wf
  keyed : uf.Keyed
  known : ∀ q ∈ pairs, uf.Known q.1 ∧ uf.Known q.2
  agree : ∀ k k' r r', uf.Root k r → uf.Root k' r' → (r = r' ↔ Related pairs k k')

section Rep

variable {uf : UnionFind} {pairs : List (ℤ × ℤ)} {a b : ℤ}

theorem empty_rep : empty.Rep [] where
  wf := by
    refine ⟨fun k n h => (by cases h), fun k k' n h => (by cases h), fun n h => (by cases h),
      fun n p h => (by cases h), fun n => ⟨n, rootOf_self rfl⟩, List.nodup_nil, fun n => ?_⟩
    exact iff_of_false (by simp [empty]) fun h => by cases h.1
  keyed k n h := by cases h
  known q hq := by cases hq
  agree k k' r r' h := by
    obtain ⟨n, hn, -⟩ := h
    cases hn

/-- A number without a node is related to itself only. -/
theorem Rep.eq_of_unknown (hr : uf.Rep pairs) (ha : uf.nodeLocs a = none)
    (h : Related pairs a b) : a = b := by
  refine h.eq_of_not_mem fun q hq => ⟨?_, ?_⟩
  · rintro rfl
    have := (hr.known q hq).1
    simp [Known, ha] at this
  · rintro rfl
    have := (hr.known q hq).2
    simp [Known, ha] at this

/-- `find` of any number: the number has a node afterwards, the node returned is its
root, and the equivalence stays. -/
theorem find_rep (hr : uf.Rep pairs) (a : ℤ) :
    ∃ r uf', uf.find a = some (r, uf') ∧ uf'.Rep pairs ∧ uf'.Root a r ∧
      (∀ k, uf'.Known k ↔ uf.Known k ∨ k = a) ∧ ∀ k s, uf.Root k s → uf'.Root k s := by
  cases hn : uf.nodeLocs a with
  | some n =>
    obtain ⟨r, uf', hfind, hroot, hw, hl⟩ := find_known hr.wf hn
    have hiff : ∀ k s, uf'.Root k s ↔ uf.Root k s := fun k s => by
      simp only [Root, hl.locs, hl.root]
    have hknown : ∀ k, uf'.Known k ↔ uf.Known k := fun k => by rw [Known, hl.locs, Known]
    refine ⟨r, uf', hfind, ⟨hw, fun k m hk => ?_, fun q hq => ?_, fun k k' s s' hs hs' => ?_⟩,
      (hiff a r).mpr ⟨n, hn, hroot⟩, fun k => ?_, fun k s => (hiff k s).mpr⟩
    · rw [hl.value]
      exact hr.keyed k m (hl.locs ▸ hk)
    · simpa only [hknown] using hr.known q hq
    · exact hr.agree k k' s s' ((hiff k s).mp hs) ((hiff k' s').mp hs')
    · rw [hknown]
      refine ⟨Or.inl, fun h => h.elim id ?_⟩
      rintro rfl
      simp [Known, hn]
  | none =>
    have hknown : ∀ k, (uf.added a).Known k ↔ uf.Known k ∨ k = a := fun k => by
      by_cases hk : k = a <;> simp [Known, added_locs, hk]
    have hne : ∀ k s, uf.Root k s → s ≠ uf.heap.fresh := fun k s hs => by
      obtain ⟨x, hx⟩ := Option.isSome_iff_exists.mp ((hr.wf.roots s).mp (hr.wf.root_mem hs)).1
      exact Heap.ne_fresh hx
    have hka : ∀ k s, uf.Root k s → k ≠ a := fun k s hs => by
      rintro rfl
      obtain ⟨n, hn', -⟩ := hs
      simp [hn] at hn'
    refine ⟨_, _, find_new hn, ⟨hr.wf.added hn, hr.keyed.added hr.wf a, fun q hq => ?_,
      fun k k' s s' hs hs' => ?_⟩, (added_root uf a a _).mpr (Or.inl ⟨rfl, rfl⟩), hknown,
      fun k s hs => (added_root uf a k s).mpr (Or.inr ⟨hka k s hs, hs⟩)⟩
    · exact ⟨(hknown _).mpr (Or.inl (hr.known q hq).1), (hknown _).mpr (Or.inl (hr.known q hq).2)⟩
    · rcases (added_root uf a k s).mp hs with ⟨hk, hsf⟩ | ⟨hk, hs⟩ <;>
        rcases (added_root uf a k' s').mp hs' with ⟨hk', hsf'⟩ | ⟨hk', hs'⟩
      · exact iff_of_true (hsf.trans hsf'.symm) (by rw [hk, hk']; exact .refl _ _)
      · refine iff_of_false (fun h => hne k' s' hs' (h.symm.trans hsf)) fun h => hk' ?_
        exact (hr.eq_of_unknown hn (hk ▸ h)).symm
      · refine iff_of_false (fun h => hne k s hs (h.trans hsf')) fun h => hk ?_
        exact (hr.eq_of_unknown hn (hk' ▸ h.symm)).symm
      · exact hr.agree k k' s s' hs hs'

/-- Two roots hold different numbers. -/
theorem Rep.value_inj (hr : uf.Rep pairs) {c d : ℕ} (hc : (uf.heap.read c).isSome)
    (hd : (uf.heap.read d).isSome) (h : uf.value c = uf.value d) : c = d := by
  obtain ⟨k, hk⟩ := hr.wf.key c hc
  obtain ⟨k', hk'⟩ := hr.wf.key d hd
  obtain rfl : k = k' := by simpa [hr.keyed k c hk, hr.keyed k' d hk'] using h
  exact Option.some.inj (hk.symm.trans hk')

/-- Values tell the roots apart, so `Union` erases the root it has linked. -/
theorem Rep.eraseP_eq (hr : uf.Rep pairs) {b : ℕ} (hb : (uf.heap.read b).isSome) :
    (uf.collection.eraseP fun c => uf.value c = uf.value b) = uf.collection.erase b := by
  apply eraseP_eq_erase
  intro c hc
  refine ⟨hr.value_inj ((hr.wf.roots c).mp hc).1 hb, ?_⟩
  rintro rfl
  rfl

/-- Linking two roots adds the pair of numbers above which they stand. -/
theorem link_rep (hr : uf.Rep pairs) {ra rb : ℕ} (ha : uf.Root a ra) (hb : uf.Root b rb)
    (hne : ra ≠ rb) :
    ∃ h₁ h₂ n, uf.heap.modify ra (fun n => n.pushNext rb) = some h₁ ∧
      h₁.modify rb (fun n => n.setPrev ra) = some h₂ ∧ h₂.read rb = some n ∧
      eraseValue h₂ n.value uf.collection = some (uf.collection.erase rb) ∧
      Rep ⟨h₂, uf.collection.erase rb, uf.nodeLocs⟩ (pairs ++ [(a, b)]) := by
  obtain ⟨-, hpa⟩ := (hr.wf.roots ra).mp (hr.wf.root_mem ha)
  obtain ⟨hba, -⟩ := (hr.wf.roots rb).mp (hr.wf.root_mem hb)
  obtain ⟨h₁, h₂, n, hm₁, hm₂, hn, herase, hvals, hroots, hsane⟩ :=
    link_sane hr.wf.sane ha hb hne
  rw [hr.eraseP_eq hba] at herase hsane
  set uf' : UnionFind := ⟨h₂, uf.collection.erase rb, uf.nodeLocs⟩ with huf'
  have hval : ∀ c, uf'.value c = uf.value c := fun c => congrFun (hvals _ _) c
  have halloc : ∀ c, (uf'.heap.read c).isSome = (uf.heap.read c).isSome := fun c => by
    simpa [value] using congrArg Option.isSome (hval c)
  have hlink : ∀ c s, RootOf uf'.parent c s ↔
      (RootOf uf.parent c s ∧ s ≠ rb) ∨ (RootOf uf.parent c rb ∧ s = ra) := fun c s => hroots _ _ c s
  have hself : ∀ c, uf'.parent c = none ↔ uf.parent c = none ∧ c ≠ rb := fun c => by
    constructor
    · intro h
      rcases (hlink c c).mp (rootOf_self h) with ⟨h', hc⟩ | ⟨h', rfl⟩
      · exact ⟨h'.parent_root, hc⟩
      · exact absurd ((rootOf_root hpa).mp h').symm hne
    · rintro ⟨h, hc⟩
      exact ((hlink c c).mpr (Or.inl ⟨rootOf_self h, hc⟩)).parent_root
  refine ⟨h₁, h₂, n, hm₁, hm₂, hn, herase, ⟨⟨hsane.loc, hr.wf.inj, fun n hn => ?_, hsane.up,
    hsane.forest, hr.wf.nodup.erase rb, fun c => ?_⟩, fun k c hk => ?_, fun q hq => ?_, ?_⟩⟩
  · exact hr.wf.key n (by rw [← halloc]; exact hn)
  · rw [hr.wf.nodup.mem_erase_iff, hr.wf.roots, halloc, hself]
    tauto
  · rw [hval]
    exact hr.keyed k c hk
  · rcases List.mem_append.mp hq with hq | hq
    · exact hr.known q hq
    · rw [List.mem_singleton.mp hq]
      obtain ⟨na, hna, -⟩ := ha
      obtain ⟨nb, hnb, -⟩ := hb
      exact ⟨by simp [Known, hna], by simp [Known, hnb]⟩
  · rintro k k' s s' ⟨n, hn, hs⟩ ⟨n', hn', hs'⟩
    rw [related_concat]
    rcases (hlink n s).mp hs with ⟨ht, hne₁⟩ | ⟨ht, rfl⟩ <;>
      rcases (hlink n' s').mp hs' with ⟨ht', hne₂⟩ | ⟨ht', rfl⟩
    · rw [← hr.agree k k' s s' ⟨n, hn, ht⟩ ⟨n', hn', ht'⟩,
        ← hr.agree b k' rb s' hb ⟨n', hn', ht'⟩, ← hr.agree k b s rb ⟨n, hn, ht⟩ hb]
      simp [hne₁, hne₂.symm]
    · rw [← hr.agree k k' s rb ⟨n, hn, ht⟩ ⟨n', hn', ht'⟩,
        ← hr.agree b k' rb rb hb ⟨n', hn', ht'⟩, ← hr.agree k b s rb ⟨n, hn, ht⟩ hb,
        ← hr.agree k a s s' ⟨n, hn, ht⟩ ha]
      simp [hne₁]
    · rw [← hr.agree k k' rb s' ⟨n, hn, ht⟩ ⟨n', hn', ht'⟩,
        ← hr.agree b k' rb s' hb ⟨n', hn', ht'⟩, ← hr.agree k b rb rb ⟨n, hn, ht⟩ hb,
        ← hr.agree a k' s s' ha ⟨n', hn', ht'⟩]
      simp [hne₂.symm]
    · rw [← hr.agree k k' rb rb ⟨n, hn, ht⟩ ⟨n', hn', ht'⟩]
      simp

/-- `Union` adds its pair to the equivalence. -/
theorem union_rep (hr : uf.Rep pairs) (a b : ℤ) :
    ∃ uf', uf.Union a b = some (true, uf') ∧ uf'.Rep (pairs ++ [(a, b)]) ∧
      ∀ k, uf'.Known k ↔ uf.Known k ∨ k = a ∨ k = b := by
  obtain ⟨ra, uf₁, hfind₁, hr₁, hra, hknown₁, hroot₁⟩ := find_rep hr a
  obtain ⟨rb, uf₂, hfind₂, hr₂, hrb, hknown₂, hroot₂⟩ := find_rep hr₁ b
  have hra₂ := hroot₂ a ra hra
  have hknown : ∀ k, uf₂.Known k ↔ uf.Known k ∨ k = a ∨ k = b := fun k => by
    rw [hknown₂, hknown₁, or_assoc]
  by_cases hab : ra = rb
  · refine ⟨uf₂, by simp [Union, hfind₁, hfind₂, hab], ⟨hr₂.wf, hr₂.keyed, fun q hq => ?_,
      fun k k' s s' hs hs' => ?_⟩, hknown⟩
    · rcases List.mem_append.mp hq with hq | hq
      · exact hr₂.known q hq
      · rw [List.mem_singleton.mp hq]
        exact ⟨(hknown a).mpr (by simp), (hknown b).mpr (by simp)⟩
    · -- the pair is related already
      have hrel := (hr₂.agree a b ra rb hra₂ hrb).mp hab
      rw [hr₂.agree k k' s s' hs hs', related_concat]
      refine ⟨Or.inl, ?_⟩
      rintro (h | ⟨h, h'⟩ | ⟨h, h'⟩)
      · exact h
      · exact (h.trans hrel).trans h'
      · exact (h.trans hrel.symm).trans h'
  · obtain ⟨h₁, h₂, n, hm₁, hm₂, hn, herase, hr'⟩ := link_rep hr₂ hra₂ hrb hab
    exact ⟨_, by simp [Union, hfind₁, hfind₂, hab, hm₁, hm₂, hn, herase], hr', hknown⟩

end Rep

end UnionFind

end SchoolProjects.Vision
