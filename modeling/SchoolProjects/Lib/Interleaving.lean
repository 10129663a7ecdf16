import SchoolProjects.Lib.Transition

/-! Threads with local states and one shared state, of which any may take the next step. A
property of each thread and the shared state holds throughout when the thread's own steps
keep it and the steps of the other threads do not disturb it. -/

namespace SchoolProjects

/-- The local states of the threads and the shared state. -/
structure Pool (ι L G : Type*) where
  threads : ι → L
  shared : G

namespace Pool

variable {ι L G : Type*} [DecidableEq ι]

/-- One step of the thread `i`; `none` where it has none to take. -/
def step (f : ι → L → G → Option (L × G)) (p : Pool ι L G) (i : ι) : Option (Pool ι L G) :=
  (f i (p.threads i) p.shared).map fun r => ⟨Function.update p.threads i r.1, r.2⟩

variable {f : ι → L → G → Option (L × G)} {p p' : Pool ι L G} {i : ι}

theorem step_cases (h : p.step f i = some p') : ∃ l g, f i (p.threads i) p.shared = some (l, g) ∧
    p' = ⟨Function.update p.threads i l, g⟩ := by
  obtain ⟨⟨l, g⟩, hf, rfl⟩ := Option.map_eq_some_iff.1 h
  exact ⟨l, g, hf, rfl⟩

/-- The other threads stay where they are. -/
theorem step_other (h : p.step f i = some p') {j : ι} (hj : j ≠ i) :
    p'.threads j = p.threads j := by
  obtain ⟨l, g, -, rfl⟩ := step_cases h
  exact Function.update_of_ne hj _ _

/-- A thread with no step left is where it was after a step of any thread. -/
theorem step_stopped (h : p.step f i = some p') {j : ι}
    (hj : ∀ g, f j (p.threads j) g = none) : p'.threads j = p.threads j := by
  refine step_other h fun hji => ?_
  subst hji
  obtain ⟨l, g, hf, -⟩ := step_cases h
  rw [hj] at hf
  cases hf

/-- One step keeps a property that the own steps of each thread keep and the steps of the
others do not disturb. -/
theorem step_invariant (I : ι → L → G → Prop)
    (own : ∀ i l g l' g', I i l g → f i l g = some (l', g') → I i l' g')
    (other : ∀ i j l m g m' g', i ≠ j → I i l g → I j m g → f j m g = some (m', g') → I i l g')
    (hI : ∀ j, I j (p.threads j) p.shared) (h : p.step f i = some p') :
    ∀ j, I j (p'.threads j) p'.shared := by
  intro j
  obtain ⟨l, g, hf, rfl⟩ := step_cases h
  change I j (Function.update p.threads i l j) g
  by_cases hj : j = i
  · subst hj
    rw [Function.update_self]
    exact own _ _ _ _ _ (hI j) hf
  · rw [Function.update_of_ne hj]
    exact other _ _ _ _ _ _ _ hj (hI j) (hI i) hf

end Pool

end SchoolProjects
