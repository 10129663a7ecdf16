import Mathlib.Tactic

/-! A table of frames under the least-recently-used rule. A frame is free or holds
a key; the uses of keys so far are recorded newest first. A use of a resident key
leaves the frames alone; any other use fills one frame, the victim. -/

namespace SchoolProjects

structure Lru (κ : Type*) where
  frames : List (Option κ)
  uses : List κ

namespace Lru

variable {κ : Type*} [DecidableEq κ]

/-- When `k` was last used, counting the uses from `1`; `0` if it never was. -/
def lastUse : List κ → κ → ℕ
  | [], _ => 0
  | k' :: uses, k => if k' = k then uses.length + 1 else lastUse uses k

/-- The frame the next miss fills: the lowest free one or, when no frame is free,
the one whose key was used least recently. -/
def Victim (c : Lru κ) (i : ℕ) : Prop :=
  (c.frames[i]? = some none ∧ ∀ j < i, c.frames[j]? ≠ some none) ∨
  (none ∉ c.frames ∧ ∃ k, c.frames[i]? = some (some k) ∧
    ∀ k', some k' ∈ c.frames → k' ≠ k → lastUse c.uses k < lastUse c.uses k')

/-- One use of `k`. -/
inductive Use (c : Lru κ) (k : κ) : Lru κ → Prop
  | hit : some k ∈ c.frames → Use c k ⟨c.frames, k :: c.uses⟩
  | miss (i : ℕ) : some k ∉ c.frames → c.Victim i →
      Use c k ⟨c.frames.set i (some k), k :: c.uses⟩

/-- Free the frames whose key meets `p`. -/
def drop (c : Lru κ) (p : κ → Bool) : Lru κ :=
  ⟨c.frames.map fun f => f.filter fun k => !p k, c.uses⟩

/-- No key sits in two frames, and resident keys have been used. -/
structure Wf (c : Lru κ) : Prop where
  distinct : ∀ (i j : ℕ) k, c.frames[i]? = some (some k) → c.frames[j]? = some (some k) → i = j
  used : ∀ k, some k ∈ c.frames → k ∈ c.uses

@[simp] theorem lastUse_cons_self (uses : List κ) (k : κ) :
    lastUse (k :: uses) k = uses.length + 1 := by
  simp [lastUse]

theorem lastUse_cons_of_ne {k k' : κ} (h : k' ≠ k) (uses : List κ) :
    lastUse (k' :: uses) k = lastUse uses k := by
  simp [lastUse, h]

theorem lastUse_le (uses : List κ) (k : κ) : lastUse uses k ≤ uses.length := by
  induction uses with
  | nil => simp [lastUse]
  | cons k' uses ih =>
    unfold lastUse
    split_ifs
    · simp
    · simp only [List.length_cons]; omega

theorem lastUse_pos {uses : List κ} {k : κ} (h : k ∈ uses) : 0 < lastUse uses k := by
  induction uses with
  | nil => simp at h
  | cons k' uses ih =>
    unfold lastUse
    split_ifs with hk
    · omega
    · exact ih ((List.mem_cons.mp h).resolve_left (Ne.symm hk))

/-- Different keys were last used at different times. -/
theorem lastUse_inj {uses : List κ} {k k' : κ} (h : k ∈ uses)
    (he : lastUse uses k = lastUse uses k') : k = k' := by
  induction uses with
  | nil => simp at h
  | cons x uses ih =>
    have hle := lastUse_le uses
    by_cases hx : x = k
    · by_cases hx' : x = k'
      · exact hx.symm.trans hx'
      · have := hle k'
        simp only [lastUse, hx, ↓reduceIte] at he
        rw [if_neg (hx ▸ hx')] at he
        omega
    · have hk : k ∈ uses := (List.mem_cons.mp h).resolve_left (Ne.symm hx)
      by_cases hx' : x = k'
      · have := hle k
        simp only [lastUse, hx', ↓reduceIte] at he
        rw [if_neg (hx' ▸ hx)] at he
        omega
      · rw [lastUse_cons_of_ne hx, lastUse_cons_of_ne hx'] at he
        exact ih hk he

/-- Among used keys, another key last used no later was last used earlier. -/
theorem lastUse_lt {uses : List κ} {k k' : κ} (h : k ∈ uses) (hne : k' ≠ k)
    (hle : lastUse uses k ≤ lastUse uses k') : lastUse uses k < lastUse uses k' :=
  lt_of_le_of_ne hle fun he => hne (lastUse_inj h he).symm

theorem Victim.lt {c : Lru κ} {i : ℕ} (h : c.Victim i) : i < c.frames.length := by
  rcases h with ⟨h, -⟩ | ⟨-, k, h, -⟩
  · exact (List.getElem?_eq_some_iff.mp h).1
  · exact (List.getElem?_eq_some_iff.mp h).1

theorem Wf.use {c c' : Lru κ} {k : κ} (hc : c.Wf) (h : c.Use k c') : c'.Wf := by
  cases h with
  | hit hk =>
    exact ⟨hc.distinct, fun k' hk' => List.mem_cons_of_mem _ (hc.used k' hk')⟩
  | miss i hk hv =>
    have hi := hv.lt
    -- a frame of the new table is the victim or as before
    have hget : ∀ j k', (c.frames.set i (some k))[j]? = some (some k') →
        (j = i ∧ k' = k) ∨ (j ≠ i ∧ c.frames[j]? = some (some k')) := by
      intro j k' hj
      by_cases hji : i = j
      · subst hji
        rw [List.getElem?_set_self hi] at hj
        exact Or.inl ⟨rfl, by simpa using hj.symm⟩
      · rw [List.getElem?_set_ne hji] at hj
        exact Or.inr ⟨Ne.symm hji, hj⟩
    refine ⟨fun a b k' ha hb => ?_, fun k' hk' => ?_⟩
    · rcases hget a k' ha with ⟨rfl, rfl⟩ | ⟨-, ha'⟩
      · rcases hget b k' hb with ⟨rfl, -⟩ | ⟨-, hb'⟩
        · rfl
        · exact absurd (List.mem_of_getElem? hb') hk
      · rcases hget b k' hb with ⟨-, rfl⟩ | ⟨-, hb'⟩
        · exact absurd (List.mem_of_getElem? ha') hk
        · exact hc.distinct a b k' ha' hb'
    · obtain ⟨j, hj⟩ := List.mem_iff_getElem?.mp hk'
      rcases hget j k' hj with ⟨-, rfl⟩ | ⟨-, hj⟩
      · exact List.mem_cons_self
      · exact List.mem_cons_of_mem _ (hc.used k' (List.mem_of_getElem? hj))

omit [DecidableEq κ] in
theorem Wf.drop {c : Lru κ} (hc : c.Wf) (p : κ → Bool) : (c.drop p).Wf := by
  have hget : ∀ (j : ℕ) k, (c.drop p).frames[j]? = some (some k) →
      c.frames[j]? = some (some k) := by
    intro j k hj
    simp only [Lru.drop, List.getElem?_map, Option.map_eq_some_iff] at hj
    obtain ⟨f, hf, hfk⟩ := hj
    rw [hf, (Option.filter_eq_some_iff.mp hfk).1]
  refine ⟨fun i j k hi hj => hc.distinct i j k (hget i k hi) (hget j k hj), fun k hk => ?_⟩
  obtain ⟨j, hj⟩ := List.mem_iff_getElem?.mp hk
  exact hc.used k (List.mem_of_getElem? (hget j k hj))

end Lru

end SchoolProjects
