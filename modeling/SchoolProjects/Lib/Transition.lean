import Mathlib.Tactic

/-! Runs of a labelled transition relation, with the trace of labels that led to
each state. A run may be restricted to steps that meet a condition on the state
before the step. The invariant rules package the induction over runs; a
simulation carries the runs of one relation to runs of another. -/

namespace SchoolProjects.Transition

variable {σ τ α β : Type*}

/-- Finite runs from `s₀`; the newest label is the last of the trace. -/
inductive Run (step : σ → α → σ → Prop) (s₀ : σ) : List α → σ → Prop
  | nil : Run step s₀ [] s₀
  | snoc {tr : List α} {s s' : σ} {a : α} :
      Run step s₀ tr s → step s a s' → Run step s₀ (tr ++ [a]) s'

/-- The steps whose source state and label meet `ok`. -/
def Guarded (ok : σ → α → Prop) (step : σ → α → σ → Prop) (s : σ) (a : α) (s' : σ) : Prop :=
  ok s a ∧ step s a s'

/-- The relation of a partial step function; `none` is a step that is not defined. -/
def ofOption (f : σ → α → Option σ) (s : σ) (a : α) (s' : σ) : Prop := f s a = some s'

section Rules

variable {step : σ → α → σ → Prop} {s₀ : σ}

/-- What holds of the trace and the state at the start and survives one step
holds after every run. -/
theorem Run.history (I : List α → σ → Prop) (h0 : I [] s₀)
    (hstep : ∀ tr s a s', Run step s₀ tr s → I tr s → step s a s' → I (tr ++ [a]) s')
    {tr : List α} {s : σ} (hr : Run step s₀ tr s) : I tr s := by
  induction hr with
  | nil => exact h0
  | snoc hr hs ih => exact hstep _ _ _ _ hr ih hs

theorem Run.invariant (I : σ → Prop) (h0 : I s₀)
    (hstep : ∀ s a s', I s → step s a s' → I s')
    {tr : List α} {s : σ} (hr : Run step s₀ tr s) : I s :=
  hr.history (fun _ s => I s) h0 (fun _ s a s' _ hi hs => hstep s a s' hi hs)

/-- A step-by-step simulation `f`, valid on the states that satisfy an invariant
of the simulated relation, maps every run to a run. -/
theorem Run.simulation {step' : τ → β → τ → Prop} (f : σ → τ) (g : α → β) (I : σ → Prop)
    (h0 : I s₀) (hI : ∀ s a s', I s → step s a s' → I s')
    (hsim : ∀ s a s', I s → step s a s' → step' (f s) (g a) (f s'))
    {tr : List α} {s : σ} (hr : Run step s₀ tr s) : Run step' (f s₀) (tr.map g) (f s) := by
  induction hr with
  | nil => exact .nil
  | snoc hr hs ih =>
    rw [List.map_append]
    exact ih.snoc (hsim _ _ _ (hr.invariant I h0 hI) hs)

theorem Run.append {pre post : List α} {mid s : σ} (h : Run step s₀ pre mid)
    (h' : Run step mid post s) : Run step s₀ (pre ++ post) s := by
  induction h' with
  | nil => simpa using h
  | snoc _ hs ih =>
    rw [← List.append_assoc]
    exact ih.snoc hs

/-- The last step of a run. -/
theorem Run.last {tr : List α} {a : α} {s : σ} (hr : Run step s₀ (tr ++ [a]) s) :
    ∃ mid, Run step s₀ tr mid ∧ step mid a s := by
  generalize htr : tr ++ [a] = full at hr
  cases hr with
  | nil => simp at htr
  | snoc hr hs =>
    obtain ⟨rfl, ha⟩ := List.append_inj' htr rfl
    obtain rfl : a = _ := by simpa using ha
    exact ⟨_, hr, hs⟩

/-- A run passes through a state at every cut of its trace. -/
theorem Run.split {pre post : List α} {s : σ} (hr : Run step s₀ (pre ++ post) s) :
    ∃ mid, Run step s₀ pre mid ∧ Run step mid post s := by
  induction post using List.reverseRecOn generalizing s with
  | nil => exact ⟨s, by simpa using hr, .nil⟩
  | append_singleton post a ih =>
    rw [← List.append_assoc] at hr
    obtain ⟨s₁, hr₁, hs⟩ := hr.last
    obtain ⟨mid, h1, h2⟩ := ih hr₁
    exact ⟨mid, h1, h2.snoc hs⟩

/-- The step of a run at a label of its trace. -/
theorem Run.step_at {pre post : List α} {a : α} {s : σ} (hr : Run step s₀ (pre ++ a :: post) s) :
    ∃ s₁ s₂, Run step s₀ pre s₁ ∧ step s₁ a s₂ ∧ Run step s₀ (pre ++ [a]) s₂ := by
  rw [← List.singleton_append, ← List.append_assoc] at hr
  obtain ⟨s₂, h2, -⟩ := hr.split
  obtain ⟨s₁, h1, hs⟩ := h2.last
  exact ⟨s₁, s₂, h1, hs, h2⟩

end Rules

/-! ### Two levels of one system -/

section Levels

variable {step : σ → α → σ → Prop} {step' : τ → β → τ → Prop} {s₀ : σ}

/-- A simulation in which some steps of the lower level, those without a label `g` above,
leave the upper level as it is. -/
theorem Run.stutter (f : σ → τ) (g : α → Option β)
    (hnone : ∀ s a s', step s a s' → g a = none → f s' = f s)
    (hsome : ∀ s a s' b, step s a s' → g a = some b → step' (f s) b (f s'))
    {tr : List α} {s : σ} (hr : Run step s₀ tr s) : Run step' (f s₀) (tr.filterMap g) (f s) := by
  induction hr with
  | nil => exact .nil
  | @snoc tr s s' a hr hs ih =>
    rw [List.filterMap_append]
    cases hg : g a with
    | none => simpa [hg, hnone s a s' hs hg] using ih
    | some b => simpa [hg] using ih.snoc (hsome s a s' b hs hg)

/-- When every step of the upper level is matched by a run of the lower level, so is
every run. -/
theorem Run.lift (f : σ → τ) (g : α → Option β)
    (hlift : ∀ s b t, step' (f s) b t → ∃ tr s', Run step s tr s' ∧ f s' = t ∧ tr.filterMap g = [b])
    {bs : List β} {t : τ} (hr : Run step' (f s₀) bs t) :
    ∃ tr s, Run step s₀ tr s ∧ f s = t ∧ tr.filterMap g = bs := by
  generalize ht₀ : f s₀ = t₀ at hr
  induction hr with
  | nil => exact ⟨[], s₀, .nil, ht₀, rfl⟩
  | snoc hr hs ih =>
    obtain ⟨tr, s, hrun, rfl, rfl⟩ := ih
    obtain ⟨tr', s', hrun', rfl, htr'⟩ := hlift s _ _ hs
    exact ⟨tr ++ tr', s', hrun.append hrun', rfl, by rw [List.filterMap_append, htr']⟩

end Levels

/-- Running a partial step function along a list of labels. -/
theorem run_iff_foldlM (f : σ → α → Option σ) (s₀ : σ) (tr : List α) (s : σ) :
    Run (ofOption f) s₀ tr s ↔ tr.foldlM f s₀ = some s := by
  constructor
  · intro hr
    induction hr with
    | nil => rfl
    | snoc _ hs ih =>
      rw [List.foldlM_append, ih]
      simpa [ofOption] using hs
  · induction tr using List.reverseRecOn generalizing s with
    | nil =>
      intro h
      obtain rfl : s₀ = s := by simpa using h
      exact .nil
    | append_singleton tr a ih =>
      intro h
      rw [List.foldlM_append] at h
      obtain ⟨s₁, h1, h2⟩ := Option.bind_eq_some_iff.mp h
      exact (ih s₁ h1).snoc (by simpa [ofOption] using h2)

/-- A partial function leads to one state. -/
theorem Run.functional {f : σ → α → Option σ} {s₀ s s' : σ} {tr : List α}
    (h : Run (ofOption f) s₀ tr s) (h' : Run (ofOption f) s₀ tr s') : s = s' := by
  rw [run_iff_foldlM] at h h'
  exact Option.some.inj (h.symm.trans h')

/-- When `ok` says exactly which steps keep `I`, then `I` holds in every state of a
run if and only if `ok` holds at every step of it. -/
theorem Run.invariant_iff {f : σ → α → Option σ} {s₀ : σ} (I : σ → Prop) (ok : σ → α → Prop)
    (h0 : I s₀) (hstep : ∀ s a s', I s → f s a = some s' → (I s' ↔ ok s a))
    {tr : List α} {s : σ} (hr : Run (ofOption f) s₀ tr s) :
    (∀ pre post s', tr = pre ++ post → Run (ofOption f) s₀ pre s' → I s') ↔
      ∀ pre a post s', tr = pre ++ a :: post → Run (ofOption f) s₀ pre s' → ok s' a := by
  constructor
  · rintro hI pre a post s₁ rfl h1
    obtain ⟨s₁', s₂, h1', hs, h2⟩ := hr.step_at
    obtain rfl := h1.functional h1'
    exact (hstep s₁ a s₂ (hI pre _ s₁ rfl h1) hs).mp (hI _ post s₂ (by simp) h2)
  · intro hok pre
    induction pre using List.reverseRecOn with
    | nil =>
      intro post s' _ h'
      obtain rfl := Run.nil.functional h'
      exact h0
    | append_singleton pre a ih =>
      intro post s' htr h'
      obtain ⟨s₁, h1, hs⟩ := h'.last
      exact (hstep s₁ a s' (ih (a :: post) s₁ (by simp [htr]) h1) hs).mpr
        (hok pre a post s₁ (by simp [htr]) h1)

/-- Where the steps that do not meet `ok` lead from `I` to `J`, which no step leaves, `I` holds
at the end of a run if and only if `ok` holds at every step of it. -/
theorem Run.end_iff {f : σ → α → Option σ} {s₀ : σ} (I J : σ → Prop) (ok : σ → α → Prop)
    (h0 : I s₀) (hI : ∀ s a s', I s → f s a = some s' → ok s a → I s')
    (hIJ : ∀ s a s', I s → f s a = some s' → ¬ ok s a → J s')
    (hJ : ∀ s a s', J s → f s a = some s' → J s') (hnot : ∀ s, J s → ¬ I s)
    {tr : List α} {s : σ} (hr : Run (ofOption f) s₀ tr s) :
    I s ↔ ∀ pre a post s', tr = pre ++ a :: post → Run (ofOption f) s₀ pre s' → ok s' a := by
  constructor
  · rintro hs pre a post s₁ rfl h1
    by_contra hbad
    obtain ⟨s₁', s₂, h1', ha, h2⟩ := hr.step_at
    obtain rfl := h1.functional h1'
    rw [← List.singleton_append, ← List.append_assoc] at hr
    obtain ⟨s₂', h2', hpost⟩ := hr.split
    obtain rfl := h2.functional h2'
    -- the states before the bad step have `I` or `J`, and those after it `J`
    have heither : I s₁ ∨ J s₁ := by
      refine h1.invariant (fun s => I s ∨ J s) (.inl h0) fun s b s' hs hb => ?_
      rcases hs with hs | hs
      · exact (em (ok s b)).imp (hI s b s' hs hb) (hIJ s b s' hs hb)
      · exact .inr (hJ s b s' hs hb)
    have hbad₂ : J s₂ := heither.elim (fun h => hIJ s₁ a s₂ h ha hbad) fun h => hJ s₁ a s₂ h ha
    exact hnot s (hpost.invariant J hbad₂ hJ) hs
  · intro hok
    induction hr with
    | nil => exact h0
    | @snoc tr s s' a hr hs ih =>
      refine hI s a s' (ih fun pre b post s₁ htr => ?_) hs (hok tr a [] s rfl hr)
      exact hok pre b (post ++ [a]) s₁ (by simp [htr])

/-- When `ok` says exactly which steps are defined from the states with `I`, then a
whole trace is defined if and only if `ok` holds at every step of it. -/
theorem exists_run_iff {f : σ → α → Option σ} {s₀ : σ} (I : σ → Prop) (ok : σ → α → Prop)
    (h0 : I s₀) (hI : ∀ s a s', I s → f s a = some s' → I s')
    (hok : ∀ s a, I s → ((∃ s', f s a = some s') ↔ ok s a)) (tr : List α) :
    (∃ s, Run (ofOption f) s₀ tr s) ↔
      ∀ pre a post s', tr = pre ++ a :: post → Run (ofOption f) s₀ pre s' → ok s' a := by
  constructor
  · rintro ⟨s, hr⟩ pre a post s₁ rfl h1
    obtain ⟨s₁', s₂, h1', hs, -⟩ := hr.step_at
    obtain rfl := h1.functional h1'
    exact (hok s₁ a (h1.invariant I h0 hI)).mp ⟨s₂, hs⟩
  · intro h
    induction tr using List.reverseRecOn with
    | nil => exact ⟨s₀, .nil⟩
    | append_singleton tr a ih =>
      obtain ⟨s, hr⟩ := ih fun pre b post s' htr => h pre b (post ++ [a]) s' (by simp [htr])
      obtain ⟨s', hs⟩ := (hok s a (hr.invariant I h0 hI)).mpr (h tr a [] s rfl hr)
      exact ⟨s', hr.snoc hs⟩

/-- Where every state that is not a goal has a step that makes a measure smaller, some run
ends in a goal. -/
theorem exists_run_to {f : σ → α → Option σ} {M : Type*} [LT M] [WellFoundedLT M] (μ : σ → M)
    (goal : σ → Prop) (hstep : ∀ s, ¬ goal s → ∃ a s', f s a = some s' ∧ μ s' < μ s) (s₀ : σ) :
    ∃ tr s, Run (ofOption f) s₀ tr s ∧ goal s := by
  induction hm : μ s₀ using WellFoundedLT.induction generalizing s₀ with
  | ind m ih =>
    by_cases hg : goal s₀
    · exact ⟨[], s₀, .nil, hg⟩
    · obtain ⟨a, s₁, hs, hlt⟩ := hstep s₀ hg
      obtain ⟨tr, s, hr, hgoal⟩ := ih (μ s₁) (hm ▸ hlt) s₁ rfl
      have hfirst : Run (ofOption f) s₀ [a] s₁ := Run.nil.snoc hs
      exact ⟨[a] ++ tr, s, hfirst.append hr, hgoal⟩

/-- The guarded relation of a partial step function is that of a partial step
function again, when the guard can be decided. -/
theorem guarded_ofOption (ok : σ → α → Prop) [∀ s a, Decidable (ok s a)] (f : σ → α → Option σ) :
    Guarded ok (ofOption f) = ofOption fun s a => if ok s a then f s a else none := by
  funext s a s'
  by_cases h : ok s a <;> simp [Guarded, ofOption, h]

/-- Running a partial step function along labels that pass a test, where the test is enough for
the guard. -/
theorem run_of_test {ok : σ → α → Prop} {test : σ → α → Bool}
    (htest : ∀ s a, test s a = true → ok s a) {f : σ → α → Option σ} {s₀ s : σ} {tr : List α}
    (h : tr.foldlM (fun s a => if test s a then f s a else none) s₀ = some s) :
    Run (Guarded ok (ofOption f)) s₀ tr s := by
  have hrun := (run_iff_foldlM _ s₀ tr s).mpr h
  rw [← guarded_ofOption (fun s a => test s a = true)] at hrun
  have hsim : Run (Guarded ok (ofOption f)) (id s₀) (tr.map id) (id s) :=
    hrun.simulation id id (fun _ => True) trivial (fun _ _ _ _ _ => trivial)
      fun s a s' _ hs => ⟨htest s a hs.1, hs.2⟩
  rwa [List.map_id] at hsim

end SchoolProjects.Transition
