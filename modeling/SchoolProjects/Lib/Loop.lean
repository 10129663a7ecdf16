import Mathlib.Tactic

/-! Loops that need not end. The body of a loop leads to another round or out of the
loop with a result. That a loop ends is an inductive statement; a run with fuel agrees
with it, and enough fuel is any bound on a measure that goes down in the rounds of the
runs that end. -/

namespace SchoolProjects.Loop

variable {σ ρ : Type*}

/-- From `s` the loop ends with the result `r`. -/
inductive Ends (body : σ → σ ⊕ ρ) : σ → ρ → Prop
  | exit {s : σ} {r : ρ} : body s = .inr r → Ends body s r
  | again {s s' : σ} {r : ρ} : body s = .inl s' → Ends body s' r → Ends body s r

/-- At most `fuel` rounds of the loop. -/
def run (body : σ → σ ⊕ ρ) : ℕ → σ → Option ρ
  | 0, _ => none
  | fuel + 1, s =>
    match body s with
    | .inl s' => run body fuel s'
    | .inr r => some r

variable {body : σ → σ ⊕ ρ} {s s' : σ} {r r' : ρ}

theorem ends_exit_iff (h : body s = .inr r') : Ends body s r ↔ r = r' := by
  constructor
  · intro hr
    cases hr with
    | exit he => exact Sum.inr.inj (he.symm.trans h)
    | again ha _ => rw [h] at ha; cases ha
  · rintro rfl
    exact .exit h

theorem ends_again_iff (h : body s = .inl s') : Ends body s r ↔ Ends body s' r := by
  constructor
  · intro hr
    cases hr with
    | exit he => rw [h] at he; cases he
    | again ha hrest =>
      obtain rfl := Sum.inl.inj (ha.symm.trans h)
      exact hrest
  · exact .again h

/-- Only what the body does with the first state counts. -/
theorem ends_congr (h : body s = body s') : Ends body s r ↔ Ends body s' r := by
  cases hb : body s' with
  | inl s₁ => rw [ends_again_iff hb, ends_again_iff (h.trans hb)]
  | inr r₁ => rw [ends_exit_iff hb, ends_exit_iff (h.trans hb)]

/-- A loop ends with one result. -/
theorem Ends.functional (h : Ends body s r) (h' : Ends body s r') : r = r' := by
  induction h with
  | exit he => exact ((ends_exit_iff he).mp h').symm
  | again ha _ ih => exact ih ((ends_again_iff ha).mp h')

/-- Some rounds of the loop lead from `s` to `s'`. -/
def Leads (body : σ → σ ⊕ ρ) : σ → σ → Prop := Relation.ReflTransGen fun s s' => body s = .inl s'

theorem Leads.refl (s : σ) : Leads body s s := Relation.ReflTransGen.refl

theorem Leads.trans {s₁ : σ} (h : Leads body s s₁) (h' : Leads body s₁ s') : Leads body s s' :=
  Relation.ReflTransGen.trans h h'

/-- A round, and what follows it. -/
theorem Leads.again {s₁ : σ} (h : body s = .inl s₁) (h' : Leads body s₁ s') : Leads body s s' :=
  Relation.ReflTransGen.head h h'

theorem Leads.ends_iff (h : Leads body s s') : Ends body s r ↔ Ends body s' r := by
  induction h with
  | refl => rfl
  | tail _ hb ih => rw [ih, ends_again_iff hb]

theorem ends_of_run {fuel : ℕ} (h : run body fuel s = some r) : Ends body s r := by
  induction fuel generalizing s with
  | zero => cases h
  | succ fuel ih =>
    rw [run] at h
    cases hb : body s with
    | inl s' =>
      rw [hb] at h
      exact .again hb (ih h)
    | inr r' =>
      rw [hb] at h
      exact .exit (hb.trans (congrArg Sum.inr (Option.some.inj h)))

/-- Enough fuel, by a measure that goes down in every round of a run that ends. -/
theorem Ends.run_eq (μ : σ → ℕ)
    (hμ : ∀ s s' r, body s = .inl s' → Ends body s' r → μ s' < μ s)
    (h : Ends body s r) {fuel : ℕ} (hf : μ s < fuel) : run body fuel s = some r := by
  induction h generalizing fuel with
  | exit he =>
    obtain ⟨fuel, rfl⟩ := Nat.exists_eq_succ_of_ne_zero (by omega : fuel ≠ 0)
    rw [run, he]
  | again ha hrest ih =>
    obtain ⟨fuel, rfl⟩ := Nat.exists_eq_succ_of_ne_zero (by omega : fuel ≠ 0)
    have := hμ _ _ _ ha hrest
    rw [run, ha]
    exact ih (by omega)

/-- A loop that stays within `P` does not end. -/
theorem not_ends (P : σ → Prop) (hP : ∀ s, P s → ∃ s', body s = .inl s' ∧ P s') (hs : P s) :
    ¬ Ends body s r := by
  intro h
  induction h with
  | exit he =>
    obtain ⟨s', ha, -⟩ := hP _ hs
    rw [he] at ha
    cases ha
  | again ha _ ih =>
    obtain ⟨s₁, hb, hs₁⟩ := hP _ hs
    obtain rfl := Sum.inl.inj (ha.symm.trans hb)
    exact ih hs₁

end SchoolProjects.Loop
