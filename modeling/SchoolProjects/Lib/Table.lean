import Mathlib.Logic.Function.Basic
import Mathlib.Tactic

/-! Tables as functions: writing one entry of a table with two indices, and loops that
change the entry of one key at each step. The entry of a key comes from the steps with
that key alone. -/

namespace SchoolProjects

variable {α β γ κ : Type*}

/-- An entry after a write to a table with two indices. -/
theorem update_update_apply [DecidableEq α] [DecidableEq β] (f : α → β → γ) (p q : α × β) (v : γ) :
    Function.update f p.1 (Function.update (f p.1) p.2 v) q.1 q.2 =
      if q = p then v else f q.1 q.2 :=
  (congrFun (Function.uncurry_update_update f p.1 p.2 v) q).trans (Function.update_apply _ _ _ _)

/-- The entry of a key after a loop that changes one entry at each step. -/
theorem foldl_update_key [DecidableEq κ] (key : α → κ) (step : β → α → β) (k : κ) (l : List α)
    (m : κ → β) :
    (l.foldl (fun m a => Function.update m (key a) (step (m (key a)) a)) m) k =
      (l.filter fun a => key a = k).foldl step (m k) := by
  induction l generalizing m with
  | nil => rfl
  | cons a l ih =>
    rw [List.foldl_cons, ih]
    by_cases hk : key a = k
    · subst hk
      rw [List.filter_cons_of_pos (by simp), List.foldl_cons, Function.update_self]
    · rw [List.filter_cons_of_neg (by simpa using hk), Function.update_of_ne (Ne.symm hk)]

/-- The same with steps that leave the table as it is. -/
theorem foldl_update_key_if [DecidableEq κ] (key : α → κ) (c : κ → Prop) [DecidablePred c]
    (step : β → α → β) (k : κ) (l : List α) (m : κ → β) :
    (l.foldl (fun m a =>
      if c (key a) then Function.update m (key a) (step (m (key a)) a) else m) m) k =
      if c k then (l.filter fun a => key a = k).foldl step (m k) else m k := by
  have hfilter : (l.filter fun a => decide (c (key a))).foldl
      (fun (m : κ → β) a => Function.update m (key a) (step (m (key a)) a)) m =
      l.foldl (fun m a => if decide (c (key a)) = true then
        Function.update m (key a) (step (m (key a)) a) else m) m := List.foldl_filter
  simp only [decide_eq_true_eq] at hfilter
  rw [← hfilter, foldl_update_key, List.filter_filter]
  split_ifs with hk
  · congr 1
    refine List.filter_congr fun a _ => ?_
    by_cases ha : key a = k
    · simp [ha, hk]
    · simp [ha]
  · have hnil : (l.filter fun a => decide (key a = k) && decide (c (key a))) = [] := by
      refine List.filter_eq_nil_iff.mpr fun a _ => ?_
      simp only [Bool.and_eq_true, decide_eq_true_eq, not_and]
      rintro rfl
      exact hk
    rw [hnil]
    rfl

/-! ### Entries that may be missing -/

/-- A missing entry stays missing. -/
theorem foldl_option_map (step : β → α → β) (l : List α) (o : Option β) :
    l.foldl (fun o a => o.map fun b => step b a) o = o.map fun b => l.foldl step b := by
  induction l generalizing o with
  | nil => exact (Option.map_id' ..).symm
  | cons a l ih =>
    rw [List.foldl_cons, ih, Option.map_map]
    rfl

/-- An entry that is made when it is missing is made once. -/
theorem foldl_getD_some (new : α → β) (step : β → α → β) (l : List α) (b : β) :
    l.foldl (fun (o : Option β) a => some (step (o.getD (new a)) a)) (some b) =
      some (l.foldl step b) := by
  induction l generalizing b with
  | nil => rfl
  | cons a l ih => exact ih (step b a)

end SchoolProjects
