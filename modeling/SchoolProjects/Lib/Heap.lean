import Mathlib.Tactic

/-! A heap of nodes at numbered locations. Reading, writing or freeing a location
that holds no node is not defined; locations are never handed out twice. The
`fresh` bound is carried with the proof that nothing is allocated above it. -/

namespace SchoolProjects

@[ext]
structure Heap (α : Type*) where
  read : ℕ → Option α
  fresh : ℕ
  none_above : ∀ a, fresh ≤ a → read a = none

namespace Heap

variable {α : Type*} {h : Heap α} {a : ℕ} {x : α}

def empty : Heap α := ⟨fun _ => none, 0, fun _ _ => rfl⟩

/-- `new`: the node `x` at a location never used before. -/
def alloc (h : Heap α) (x : α) : Heap α :=
  ⟨Function.update h.read h.fresh (some x), h.fresh + 1, fun a ha => by
    rw [Function.update_of_ne (by omega)]; exact h.none_above a (by omega)⟩

/-- Overwrite one of the locations handed out so far; `none` erases it. -/
def put (h : Heap α) (a : ℕ) (x : Option α) (ha : a < h.fresh) : Heap α :=
  ⟨Function.update h.read a x, h.fresh, fun b hb => by
    rw [Function.update_of_ne (by omega)]; exact h.none_above b hb⟩

theorem lt_fresh (hr : h.read a = some x) : a < h.fresh := by
  by_contra hn
  rw [h.none_above a (by omega)] at hr
  cases hr

/-- Assignment through a pointer, defined on allocated locations only. -/
def modify (h : Heap α) (a : ℕ) (f : α → α) : Option (Heap α) :=
  match hr : h.read a with
  | none => none
  | some x => some (h.put a (some (f x)) (lt_fresh hr))

/-- `delete`, defined on allocated locations only. -/
def free (h : Heap α) (a : ℕ) : Option (Heap α) :=
  match hr : h.read a with
  | none => none
  | some _ => some (h.put a none (lt_fresh hr))

theorem read_fresh (h : Heap α) : h.read h.fresh = none := h.none_above _ le_rfl

theorem ne_fresh (hr : h.read a = some x) : a ≠ h.fresh := (lt_fresh hr).ne

@[simp] theorem read_alloc (h : Heap α) (x : α) (b : ℕ) :
    (h.alloc x).read b = if b = h.fresh then some x else h.read b := by
  simp [alloc, Function.update_apply]

theorem read_alloc_of_ne (ha : a ≠ h.fresh) : (h.alloc x).read a = h.read a := by
  rw [read_alloc, if_neg ha]

@[simp] theorem fresh_alloc (h : Heap α) (x : α) : (h.alloc x).fresh = h.fresh + 1 := rfl

@[simp] theorem read_put (h : Heap α) (a : ℕ) (y : Option α) (ha : a < h.fresh) (b : ℕ) :
    (h.put a y ha).read b = if b = a then y else h.read b := by
  simp [put, Function.update_apply]

@[simp] theorem fresh_put (h : Heap α) (a : ℕ) (y : Option α) (ha : a < h.fresh) :
    (h.put a y ha).fresh = h.fresh := rfl

theorem modify_of_read (f : α → α) (hr : h.read a = some x) :
    h.modify a f = some (h.put a (some (f x)) (lt_fresh hr)) := by
  unfold modify
  split
  · simp_all
  · next y hy =>
    obtain rfl : y = x := by simpa [hr] using hy.symm
    rfl

theorem free_of_read (hr : h.read a = some x) : h.free a = some (h.put a none (lt_fresh hr)) := by
  unfold free
  split
  · simp_all
  · rfl

/-- Distinct allocated locations are no more than the locations handed out. -/
theorem length_le_fresh {l : List ℕ} (hn : l.Nodup) (hl : ∀ a ∈ l, (h.read a).isSome) :
    l.length ≤ h.fresh := by
  have hs : l.toFinset ⊆ Finset.range h.fresh := by
    intro a ha
    obtain ⟨x, hx⟩ := Option.isSome_iff_exists.mp (hl a (by simpa using ha))
    simpa using lt_fresh hx
  simpa [List.toFinset_card_of_nodup hn] using Finset.card_le_card hs

end Heap

end SchoolProjects
