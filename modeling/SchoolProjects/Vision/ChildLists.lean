import SchoolProjects.Lib.Transition
import SchoolProjects.Vision.UnionFindRuns

/-! The lists `next` of the union-find structure (`unionfind.h`). `find` means to take a node
that it redirects out of the list of its old parent, but erases it from a copy of the list.
The lists mirror the parents until the first such call, and never again after it. -/

namespace SchoolProjects.Vision.UnionFind

open Forest

/-- A node `n` is in the list of `m` exactly once if `m` is its parent, and not at all
otherwise. -/
def Mirror (uf : UnionFind) : Prop := Mirrors uf.parent uf.children

/-- A node is in the list of an old parent. -/
def Drifted (uf : UnionFind) : Prop := Stale uf.parent uf.children

/-- The number has no node, or one that is a root or the child of a root. -/
def Flat (uf : UnionFind) (num : ℤ) : Prop :=
  ∀ n, uf.nodeLocs num = some n → ∀ p, uf.parent n = some p → uf.parent p = none

def Call.Flat (uf : UnionFind) : Call → Prop
  | .find num => uf.Flat num
  | .Union a b => uf.Flat a ∧ uf.Flat b

section Find

variable {uf uf' : UnionFind} {num : ℤ} {r : ℕ}

theorem children_added (uf : UnionFind) (num : ℤ) : (uf.added num).children = uf.children := by
  funext a
  by_cases ha : a = uf.heap.fresh
  · subst ha
    simp [children, added, Heap.read_fresh]
  · simp [children, added, ha]

/-- A new node is a root. -/
theorem flat_added (hn : uf.nodeLocs num = none) (k : ℤ) :
    (uf.added num).Flat k ↔ uf.Flat k := by
  unfold Flat
  rw [parent_added, added_locs]
  by_cases hk : k = num
  · subst hk
    simp [hn, parent_fresh]
  · rw [if_neg hk]

/-- What `find` does to the parents and to the lists. -/
theorem find_cases (hs : uf.Sane) (h : uf.find num = some (r, uf')) :
    (uf.Flat num ∧ uf'.parent = uf.parent ∧ uf'.children = uf.children ∧
        ∀ k, uf'.Flat k ↔ uf.Flat k) ∨
      ∃ n p, uf.parent n = some p ∧ uf.parent p ≠ none ∧ p ≠ r ∧ uf.parent r = none ∧
        ¬ uf.Flat num ∧ uf'.parent = Function.update uf.parent n (some r) ∧
        uf'.children = attach uf.children r n := by
  cases hn : uf.nodeLocs num with
  | none =>
    obtain ⟨rfl, rfl⟩ := Prod.mk.inj (Option.some.inj ((find_new hn).symm.trans h))
    refine .inl ⟨?_, parent_added uf num, children_added uf num, flat_added hn⟩
    intro n hn'
    simp [hn] at hn'
  | some n =>
    obtain ⟨s, hs'⟩ := hs.forest n
    by_cases hflat : ∀ p, uf.parent n = some p → p = s
    · obtain ⟨rfl, rfl⟩ := Prod.mk.inj (Option.some.inj ((find_flat hs hn hs' hflat).symm.trans h))
      refine .inl ⟨fun m hm p hp => ?_, rfl, rfl, fun _ => Iff.rfl⟩
      obtain rfl := Option.some.inj (hn.symm.trans hm)
      rw [hflat p hp]
      exact hs'.parent_root
    · push Not at hflat
      obtain ⟨p, hp, hps⟩ := hflat
      obtain ⟨uf₁, hfind, -, -, -, hparent, hchildren⟩ := find_redirect hs hn hp hs' hps
      obtain ⟨rfl, rfl⟩ := Prod.mk.inj (Option.some.inj (hfind.symm.trans h))
      have hpne : uf.parent p ≠ none := by
        intro hnone
        exact hps (hs'.unique ((rootOf_self hnone).step hp)).symm
      exact .inr ⟨n, p, hp, hpne, hps, hs'.parent_root, fun hf => hpne (hf n hn p hp), hparent,
        hchildren⟩

theorem find_mirror (hs : uf.Sane) (hm : uf.Mirror) (h : uf.find num = some (r, uf'))
    (hf : uf.Flat num) : uf'.Mirror ∧ ∀ k, uf'.Flat k ↔ uf.Flat k := by
  obtain ⟨-, hparent, hchildren, hflat⟩ | ⟨_, _, _, _, _, _, hnot, _⟩ := find_cases hs h
  · unfold Mirror
    rw [hparent, hchildren]
    exact ⟨hm, hflat⟩
  · exact absurd hf hnot

theorem find_drifts (hs : uf.Sane) (hm : uf.Mirror) (h : uf.find num = some (r, uf'))
    (hf : ¬ uf.Flat num) : uf'.Drifted := by
  obtain ⟨hflat, -⟩ | ⟨n, p, hp, hpne, hpr, -, -, hparent, hchildren⟩ := find_cases hs h
  · exact absurd hflat hf
  · unfold Drifted
    rw [hparent, hchildren]
    exact Mirrors.stale hm hp hpne hpr

theorem find_drifted (hs : uf.Sane) (hd : uf.Drifted) (h : uf.find num = some (r, uf')) :
    uf'.Drifted := by
  unfold Drifted
  obtain ⟨-, hparent, hchildren, -⟩ | ⟨n, p, -, -, -, hr, -, hparent, hchildren⟩ :=
    find_cases hs h
  · rw [hparent, hchildren]
    exact hd
  · rw [hparent, hchildren]
    exact Stale.attach hd hr n

end Find

section Union

variable {uf uf' : UnionFind} {a b : ℤ} {ok : Bool}

/-- `Union` is two calls of `find`, and puts a root below another one or does nothing more. -/
theorem union_cases (hs : uf.Sane) (h : uf.Union a b = some (ok, uf')) :
    ∃ ra uf₁ rb uf₂, uf.find a = some (ra, uf₁) ∧ uf₁.Sane ∧ uf₁.find b = some (rb, uf₂) ∧
      (uf' = uf₂ ∨ uf₂.parent ra = none ∧ uf₂.parent rb = none ∧
        uf'.parent = Function.update uf₂.parent rb (some ra) ∧
        uf'.children = attach uf₂.children ra rb) := by
  obtain ⟨ra, uf₁, hfind₁, hs₁, hra, -⟩ := find_sane hs a
  obtain ⟨rb, uf₂, hfind₂, hs₂, ⟨nb, hnb, hrb⟩, hroot⟩ := find_sane hs₁ b
  obtain ⟨na, hna, hra⟩ := hroot a ra hra
  refine ⟨ra, uf₁, rb, uf₂, hfind₁, hs₁, hfind₂, ?_⟩
  by_cases hab : ra = rb
  · refine .inl ?_
    have hsame : (true, uf₂) = (ok, uf') := by simpa [Union, hfind₁, hfind₂, hab] using h
    exact (Prod.mk.inj hsame).2.symm
  · obtain ⟨h₁, h₂, n, hm₁, hm₂, hn, -, hparent, hchildren⟩ :=
      attach_eq (hs₂.root_alloc (hs₂.loc a na hna) hra) (hs₂.root_alloc (hs₂.loc b nb hnb) hrb) hab
    have hbind : ((eraseValue h₂ n.value uf₂.collection).bind fun cs =>
        some (true, { uf₂ with heap := h₂, collection := cs })) = some (ok, uf') := by
      simpa [Union, hfind₁, hfind₂, hab, hm₁, hm₂, hn] using h
    obtain ⟨cs, -, hcs⟩ := Option.bind_eq_some_iff.mp hbind
    obtain ⟨-, rfl⟩ := Prod.mk.inj (Option.some.inj hcs)
    exact .inr ⟨hra.parent_root, hrb.parent_root, hparent _ _, hchildren _ _⟩

/-- The lists stay as good as they are after the second `find`. -/
theorem union_after_finds (hs : uf.Sane) (h : uf.Union a b = some (ok, uf')) :
    ∃ ra uf₁ rb uf₂, uf.find a = some (ra, uf₁) ∧ uf₁.Sane ∧ uf₁.find b = some (rb, uf₂) ∧
      (uf₂.Mirror → uf'.Mirror) ∧ (uf₂.Drifted → uf'.Drifted) := by
  obtain ⟨ra, uf₁, rb, uf₂, hfind₁, hs₁, hfind₂, rfl | ⟨hra, hrb, hparent, hchildren⟩⟩ :=
    union_cases hs h
  · exact ⟨ra, uf₁, rb, uf', hfind₁, hs₁, hfind₂, id, id⟩
  · refine ⟨ra, uf₁, rb, uf₂, hfind₁, hs₁, hfind₂, fun hm => ?_, fun hd => ?_⟩
    · unfold Mirror
      rw [hparent, hchildren]
      exact Mirrors.attach hm hrb ra
    · unfold Drifted
      rw [hparent, hchildren]
      exact Stale.attach hd hra rb

end Union

/-! ### Runs -/

section Runs

variable {uf uf' : UnionFind} {c : Call}

theorem call_mirror (hs : uf.Sane) (hm : uf.Mirror) (h : uf.call c = some uf')
    (hf : c.Flat uf) : uf'.Mirror := by
  cases c with
  | find num =>
    obtain ⟨⟨r, uf₁⟩, hfind, rfl⟩ := Option.map_eq_some_iff.mp h
    exact (find_mirror hs hm hfind hf).1
  | Union a b =>
    obtain ⟨⟨ok, uf₁⟩, hunion, rfl⟩ := Option.map_eq_some_iff.mp h
    obtain ⟨ra, uf₁, rb, uf₂, hfind₁, hs₁, hfind₂, hmirror, -⟩ := union_after_finds hs hunion
    obtain ⟨hm₁, hflat⟩ := find_mirror hs hm hfind₁ hf.1
    exact hmirror (find_mirror hs₁ hm₁ hfind₂ ((hflat b).mpr hf.2)).1

theorem call_drifts (hs : uf.Sane) (hm : uf.Mirror) (h : uf.call c = some uf')
    (hf : ¬ c.Flat uf) : uf'.Drifted := by
  cases c with
  | find num =>
    obtain ⟨⟨r, uf₁⟩, hfind, rfl⟩ := Option.map_eq_some_iff.mp h
    exact find_drifts hs hm hfind hf
  | Union a b =>
    obtain ⟨⟨ok, uf₁⟩, hunion, rfl⟩ := Option.map_eq_some_iff.mp h
    obtain ⟨ra, uf₁, rb, uf₂, hfind₁, hs₁, hfind₂, -, hdrifted⟩ := union_after_finds hs hunion
    by_cases ha : uf.Flat a
    · obtain ⟨hm₁, hflat⟩ := find_mirror hs hm hfind₁ ha
      exact hdrifted (find_drifts hs₁ hm₁ hfind₂ fun hb => hf ⟨ha, (hflat b).mp hb⟩)
    · exact hdrifted (find_drifted hs₁ (find_drifts hs hm hfind₁ ha) hfind₂)

theorem call_drifted (hs : uf.Sane) (hd : uf.Drifted) (h : uf.call c = some uf') :
    uf'.Drifted := by
  cases c with
  | find num =>
    obtain ⟨⟨r, uf₁⟩, hfind, rfl⟩ := Option.map_eq_some_iff.mp h
    exact find_drifted hs hd hfind
  | Union a b =>
    obtain ⟨⟨ok, uf₁⟩, hunion, rfl⟩ := Option.map_eq_some_iff.mp h
    obtain ⟨ra, uf₁, rb, uf₂, hfind₁, hs₁, hfind₂, -, hdrifted⟩ := union_after_finds hs hunion
    exact hdrifted (find_drifted hs₁ (find_drifted hs hd hfind₁) hfind₂)

theorem call_keeps_sane (hs : uf.Sane) (h : uf.call c = some uf') : uf'.Sane := by
  obtain ⟨uf₁, hcall, hs₁⟩ := call_sane hs c
  obtain rfl := Option.some.inj (hcall.symm.trans h)
  exact hs₁

theorem empty_mirror : empty.Mirror := fun _ _ => rfl

/-- After any calls the lists mirror the parents if and only if no call was for a number whose
node stood two or more links below its root. -/
theorem mirror_iff (calls : List Call) : ∃ uf, calls.foldlM call empty = some uf ∧
    (uf.Mirror ↔ ∀ pre c post uf', calls = pre ++ c :: post →
      pre.foldlM call empty = some uf' → c.Flat uf') := by
  obtain ⟨uf, hrun, hs⟩ := calls_sane empty_sane calls
  refine ⟨uf, hrun, ?_⟩
  have hend := Transition.Run.end_iff (fun uf => uf.Sane ∧ uf.Mirror)
    (fun uf => uf.Sane ∧ uf.Drifted) (fun uf c => c.Flat uf) ⟨empty_sane, empty_mirror⟩
    (fun _ _ _ hI hc hf => ⟨call_keeps_sane hI.1 hc, call_mirror hI.1 hI.2 hc hf⟩)
    (fun _ _ _ hI hc hf => ⟨call_keeps_sane hI.1 hc, call_drifts hI.1 hI.2 hc hf⟩)
    (fun _ _ _ hJ hc => ⟨call_keeps_sane hJ.1 hc, call_drifted hJ.1 hJ.2 hc⟩)
    (fun _ hJ hI => hJ.2.not_mirrors hI.2)
    ((Transition.run_iff_foldlM call empty calls uf).mpr hrun)
  simp only [hs, true_and, Transition.run_iff_foldlM] at hend
  exact hend

/-- The child of a root that gets a parent is found, and stays in the old list. -/
theorem child_left_behind : ¬ ∀ calls : List Call,
    ∃ uf, calls.foldlM call empty = some uf ∧ uf.Mirror := by
  intro h
  obtain ⟨uf, hrun, hm⟩ := h [.Union 2 3, .Union 1 2, .find 3]
  have hlists : (([.Union 2 3, .Union 1 2, .find 3] : List Call).foldlM call empty).map
      (fun uf => (uf.children 0, uf.parent 1)) = some ([1], some 2) := by decide
  rw [hrun] at hlists
  obtain ⟨hchildren, hparent⟩ := Prod.mk.inj (Option.some.inj hlists)
  have hcount := hm 0 1
  rw [hchildren, hparent] at hcount
  revert hcount
  decide

end Runs

end SchoolProjects.Vision.UnionFind
