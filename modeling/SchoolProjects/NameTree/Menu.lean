import SchoolProjects.NameTree.Tree

/-! The name menu as a run of choices from the empty tree. The choices that only
print leave the tree as it is; choice 3 prints `inorder`. The mirror choice works
on the tree itself and not on a copy of it, so that the later insertions and
deletions search in a tree that is in descending order. -/

namespace SchoolProjects.NameTree

open BST

/-- A name as `cin >> name` reads it; `std::string` compares byte by byte. -/
abbrev Name := List (Fin 256)

/-- The menu choices that change the tree. -/
inductive Choice (α : Type*) where
  | addName (name : α)
  | deleteName (name : α)
  | mirror

variable {α : Type*} [LinearOrder α]

def choose (tree : BST α) : Choice α → BST α
  | .addName name => insert name tree
  | .deleteName name => findAndDeleteByCopying name tree
  | .mirror => reverseTree tree

/-- The tree after a sequence of choices. -/
def menu (choices : List (Choice α)) : BST α := choices.foldl choose null

/-- The names inserted and not yet deleted, each deletion taking one occurrence. -/
def keep (kept : Multiset α) : Choice α → Multiset α
  | .addName name => name ::ₘ kept
  | .deleteName name => kept.erase name
  | .mirror => kept

def kept (choices : List (Choice α)) : Multiset α := choices.foldl keep 0

/-- The menu after `choices` is a name list: choice 3 prints in ascending order
exactly the names that are kept, and choice 2 takes one occurrence of a kept name
out of what choice 3 prints. -/
structure ListsNames (choices : List (Choice α)) : Prop where
  ascending : Ascending (menu choices)
  exact_names : names (menu choices) = kept choices
  deletes : ∀ name ∈ kept choices,
    names (menu (choices ++ [.deleteName name])) = (names (menu choices)).erase name

@[simp] theorem menu_snoc (choices : List (Choice α)) (c : Choice α) :
    menu (choices ++ [c]) = choose (menu choices) c := by simp [menu]

@[simp] theorem kept_snoc (choices : List (Choice α)) (c : Choice α) :
    kept (choices ++ [c]) = keep (kept choices) c := by simp [kept]

/-- The order and the names together give the effect of every later deletion. -/
theorem listsNames_iff (choices : List (Choice α)) :
    ListsNames choices ↔ Ascending (menu choices) ∧ names (menu choices) = kept choices := by
  constructor
  · intro h
    exact ⟨h.ascending, h.exact_names⟩
  · rintro ⟨ha, hn⟩
    apply ListsNames.mk ha hn
    intro name _
    rw [menu_snoc]
    exact ha.names_findAndDelete name

/-- The mirror keeps the order only when there is one name to list. -/
theorem ascending_reverseTree {t : BST α} (ht : Ascending t) :
    Ascending (reverseTree t) ↔ ∀ x ∈ names t, ∀ y ∈ names t, x = y := by
  unfold Ascending
  rw [inorder_reverseTree, List.pairwise_reverse]
  constructor
  · intro hr
    have heq : (inorder t).Pairwise Eq := (ht.and hr).imp fun h => le_antisymm h.1 h.2
    intro x hx y hy
    exact heq.forall_of_forall (fun _ _ => rfl) hx hy
  · intro h
    apply List.Pairwise.imp_of_mem _ ht
    intro x y hx hy _
    exact (h y hy x hx).le

/-- One choice, a mirror only under its condition, keeps order and names. -/
theorem listsNames_snoc {choices : List (Choice α)} (h : ListsNames choices) (c : Choice α) :
    ListsNames (choices ++ [c]) ↔
      (c = .mirror → ∀ x ∈ kept choices, ∀ y ∈ kept choices, x = y) := by
  have ha := h.ascending
  have hn := h.exact_names
  rw [listsNames_iff, menu_snoc, kept_snoc]
  cases c with
  | addName name => simp [choose, keep, ha.insert name, hn]
  | deleteName name => simp [choose, keep, ha.findAndDelete name, ha.names_findAndDelete, hn]
  | mirror => simp [choose, keep, ascending_reverseTree ha, hn]

/-- The menu keeps its promise after every prefix of the choices exactly when a
mirror is chosen only while all kept names are equal. -/
theorem menu_lists_names_iff (choices : List (Choice α)) :
    (∀ done rest, choices = done ++ rest → ListsNames done) ↔
      ∀ done rest, choices = done ++ .mirror :: rest →
        ∀ x ∈ kept done, ∀ y ∈ kept done, x = y := by
  constructor
  · intro h done rest hc
    have h0 : ListsNames done := h done _ hc
    have h1 : ListsNames (done ++ [.mirror]) := h _ rest (by simp [hc])
    exact (listsNames_snoc h0 .mirror).mp h1 rfl
  · intro h done
    induction done using List.reverseRecOn with
    | nil =>
      intro rest _
      simp [listsNames_iff, menu, kept, Ascending]
    | append_singleton done c ih =>
      intro rest hc
      have h0 : ListsNames done := ih (c :: rest) (by simp [hc])
      apply (listsNames_snoc h0 c).mpr
      rintro rfl
      exact h done rest (by simp [hc])

/-- Adding two names and mirroring lists them in descending order. -/
theorem menu_mirror_descends :
    ¬ ∀ done rest : List (Choice Name),
      [.addName [97], .addName [98], .mirror] = done ++ rest → ListsNames done := by
  intro h
  have hl := (h [.addName [97], .addName [98], .mirror] [] rfl).ascending
  revert hl
  decide

end SchoolProjects.NameTree
