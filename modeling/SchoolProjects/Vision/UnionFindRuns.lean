import SchoolProjects.Vision.UnionFind

/-! Union-find over whole runs: after any sequence of `find` and `Union` calls the
nodes `find` returns tell the classes of the pairs united so far apart, and
`collection` has one root for each class. -/

namespace SchoolProjects.Vision.UnionFind

open Forest

/-- The calls of a client that does not change values. -/
inductive Call where
  | find (num : ℤ)
  | Union (a b : ℤ)

def call (uf : UnionFind) : Call → Option UnionFind
  | .find num => (uf.find num).map Prod.snd
  | .Union a b => (uf.Union a b).map Prod.snd

/-- A call of either function is defined. -/
theorem call_sane {uf : UnionFind} (hs : uf.Sane) (q : Call) :
    ∃ uf', uf.call q = some uf' ∧ uf'.Sane := by
  cases q with
  | find num =>
    obtain ⟨r, uf', hfind, hs', -⟩ := find_sane hs num
    exact ⟨uf', by simp [call, hfind], hs'⟩
  | Union a b =>
    obtain ⟨uf', hunion, hs'⟩ := union_sane hs a b
    exact ⟨uf', by simp [call, hunion], hs'⟩

theorem calls_sane {uf : UnionFind} (hs : uf.Sane) (qs : List Call) :
    ∃ uf', qs.foldlM call uf = some uf' ∧ uf'.Sane := by
  induction qs generalizing uf with
  | nil => exact ⟨uf, rfl, hs⟩
  | cons q qs ih =>
    obtain ⟨uf₁, hcall, hs₁⟩ := call_sane hs q
    obtain ⟨uf', hrun, hs'⟩ := ih hs₁
    exact ⟨uf', by simp [hcall, hrun], hs'⟩

/-- The pairs passed to `Union`. -/
def united (calls : List Call) : List (ℤ × ℤ) :=
  calls.flatMap fun
    | .find _ => []
    | .Union a b => [(a, b)]

/-- The numbers passed to either function. -/
def numbers (calls : List Call) : List ℤ :=
  calls.flatMap fun
    | .find num => [num]
    | .Union a b => [a, b]

/-- One call is defined and keeps the structure in step with the calls so far. -/
theorem call_rep {uf : UnionFind} {calls : List Call} (hr : uf.Rep (united calls))
    (hk : ∀ k, uf.Known k ↔ k ∈ numbers calls) (c : Call) :
    ∃ uf', uf.call c = some uf' ∧ uf'.Rep (united (calls ++ [c])) ∧
      ∀ k, uf'.Known k ↔ k ∈ numbers (calls ++ [c]) := by
  cases c with
  | find num =>
    obtain ⟨r, uf', hfind, hr', -, hknown, -⟩ := find_rep hr num
    refine ⟨uf', by simp [call, hfind], by simpa [united] using hr', fun k => ?_⟩
    simp [hknown, hk, numbers]
  | Union a b =>
    obtain ⟨uf', hunion, hr', hknown⟩ := union_rep hr a b
    refine ⟨uf', by simp [call, hunion], by simpa [united] using hr', fun k => ?_⟩
    simp [hknown, hk, numbers]

theorem calls_rep (calls : List Call) :
    ∃ uf, calls.foldlM call empty = some uf ∧ uf.Rep (united calls) ∧
      ∀ k, uf.Known k ↔ k ∈ numbers calls := by
  induction calls using List.reverseRecOn with
  | nil => exact ⟨empty, rfl, empty_rep, by simp [Known, empty, numbers]⟩
  | append_singleton calls c ih =>
    obtain ⟨uf, hrun, hr, hk⟩ := ih
    obtain ⟨uf', hcall, hr', hk'⟩ := call_rep hr hk c
    exact ⟨uf', by simp [List.foldlM_append, hrun, hcall], hr', hk'⟩

/-- The class of a number. -/
def classOf (pairs : List (ℤ × ℤ)) (a : ℤ) : Set ℤ := {b | Related pairs a b}

theorem classOf_eq {pairs : List (ℤ × ℤ)} {a b : ℤ} :
    classOf pairs a = classOf pairs b ↔ Related pairs a b := by
  constructor
  · intro h
    have hb : b ∈ classOf pairs b := Related.refl pairs b
    rw [← h] at hb
    exact hb
  · intro h
    ext c
    exact ⟨h.symm.trans, h.trans⟩

/-- `collection` has as many roots as there are classes. -/
theorem Rep.length_collection {uf : UnionFind} {pairs : List (ℤ × ℤ)} (hr : uf.Rep pairs) :
    uf.collection.length = (classOf pairs '' {k | uf.Known k}).ncard := by
  choose! key hkey hroot using fun r (hr' : r ∈ uf.collection) => hr.wf.key_of_mem hr'
  have himage : classOf pairs '' {k | uf.Known k} =
      (fun r => classOf pairs (key r)) '' (uf.collection.toFinset : Set ℕ) := by
    ext c
    constructor
    · rintro ⟨k, hk, rfl⟩
      obtain ⟨r, hr'⟩ := hr.wf.root_exists hk
      have hmem := hr.wf.root_mem hr'
      exact ⟨r, by simpa using hmem,
        classOf_eq.mpr ((hr.agree (key r) k r r (hroot r hmem) hr').mp rfl)⟩
    · rintro ⟨r, hr', rfl⟩
      have hmem : r ∈ uf.collection := by simpa using hr'
      exact ⟨key r, by simp [Known, hkey r hmem], rfl⟩
  have hinj : Set.InjOn (fun r => classOf pairs (key r)) (uf.collection.toFinset : Set ℕ) := by
    intro r hr₁ s hs₁ h
    have hr₂ : r ∈ uf.collection := by simpa using hr₁
    have hs₂ : s ∈ uf.collection := by simpa using hs₁
    exact (hr.agree _ _ r s (hroot r hr₂) (hroot s hs₂)).mpr (classOf_eq.mp h)
  rw [himage, hinj.ncard_image, Set.ncard_coe_finset, List.toFinset_card_of_nodup hr.wf.nodup]

/-- After any calls, two further calls of `find` return and give the same node just
for related numbers, and `collection` holds the roots, one for each class. -/
theorem calls_correct (calls : List Call) :
    ∃ uf, calls.foldlM call empty = some uf ∧
      (∀ a b, ∃ r uf₁ s uf₂, uf.find a = some (r, uf₁) ∧ uf₁.find b = some (s, uf₂) ∧
        (r = s ↔ Related (united calls) a b)) ∧
      uf.collection.Nodup ∧
      (∀ r, r ∈ uf.collection ↔ ∃ n, uf.heap.read r = some n ∧ n.prev = none) ∧
      uf.collection.length = (classOf (united calls) '' {k | k ∈ numbers calls}).ncard := by
  obtain ⟨uf, hrun, hr, hk⟩ := calls_rep calls
  refine ⟨uf, hrun, fun a b => ?_, hr.wf.nodup, fun r => ?_, ?_⟩
  · obtain ⟨r, uf₁, hfind₁, hr₁, hra, -, -⟩ := find_rep hr a
    obtain ⟨s, uf₂, hfind₂, hr₂, hsb, -, hroot⟩ := find_rep hr₁ b
    exact ⟨r, uf₁, s, uf₂, hfind₁, hfind₂, hr₂.agree a b r s (hroot a r hra) hsb⟩
  · rw [hr.wf.roots]
    constructor
    · rintro ⟨ha, hp⟩
      obtain ⟨n, hn⟩ := Option.isSome_iff_exists.mp ha
      exact ⟨n, hn, (parent_of_read hn).symm.trans hp⟩
    · rintro ⟨n, hn, hp⟩
      exact ⟨by simp [hn], (parent_of_read hn).trans hp⟩
  · rw [hr.length_collection]
    simp only [hk]

example : (([.Union 1 2, .find 7, .Union 3 2] : List Call).foldlM call empty).map collection =
    some [2, 3] := by decide

end SchoolProjects.Vision.UnionFind
