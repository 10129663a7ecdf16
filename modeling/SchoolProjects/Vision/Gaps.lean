import SchoolProjects.Vision.Axis

/-! The axis of an object (`DrawLine` of the second homework where `drawHoles` is false).
The colour of the line depends on the pixels that the scan has come to, and when it comes back
to the object after a gap of background the gap is filled by a line. What the pixels are
afterwards is a function of the pixels before: no pixel is read that was written before, as the
line over a gap does not go past its end, also where the numbers overflow. -/

namespace SchoolProjects.Vision

/-- The last marked element of a list, the first element if none is marked, and what comes
after it. -/
def Since {α : Type*} (mark : α → Prop) (ps : List α) (s : α) (after : List α) : Prop :=
  ∃ before, ps = before ++ s :: after ∧ (before = [] ∨ mark s) ∧ ∀ p ∈ after, ¬ mark p

section Since

variable {α : Type*} {mark : α → Prop} {ps after after' : List α} {q s s' : α}

theorem Since.mem (h : Since mark ps s after) : s ∈ ps := by
  obtain ⟨before, rfl, _⟩ := h
  simp

/-- A place in a longer list is its end, or a place before. -/
theorem concat_cases {before after : List α} {p : α} (h : ps ++ [q] = before ++ p :: after) :
    (before = ps ∧ p = q) ∨ ∃ after', ps = before ++ p :: after' := by
  rcases List.eq_nil_or_concat after with rfl | ⟨after, r, rfl⟩
  · obtain ⟨rfl, hq⟩ := List.append_inj' h rfl
    exact Or.inl ⟨rfl, (List.cons.inj hq).1.symm⟩
  · rw [List.concat_eq_append, ← List.cons_append, ← List.append_assoc] at h
    exact Or.inr ⟨after, (List.append_inj' h rfl).1⟩

theorem since_concat_of_mark (ps : List α) (hq : mark q) : Since mark (ps ++ [q]) q [] :=
  ⟨ps, rfl, Or.inr hq, by simp⟩

theorem since_singleton (q : α) : Since mark [q] q [] := ⟨[], rfl, Or.inl rfl, by simp⟩

theorem Since.concat (h : Since mark ps s after) (hq : ¬ mark q) :
    Since mark (ps ++ [q]) s (after ++ [q]) := by
  obtain ⟨before, rfl, hs, hafter⟩ := h
  refine ⟨before, by simp, hs, fun p hp => ?_⟩
  rcases List.mem_append.mp hp with hp | hp
  · exact hafter p hp
  · rwa [List.mem_singleton.mp hp]

theorem Since.unique (h : Since mark ps s after) (h' : Since mark ps s' after') :
    s = s' ∧ after = after' := by
  -- an element that comes later is not marked, and it is not the first one
  have hlast : ∀ {before before' : List α} {s s' : α} {after after' mid : List α},
      before' = before ++ s :: mid → after = mid ++ s' :: after' →
        (before' = [] ∨ mark s') → (∀ p ∈ after, ¬ mark p) → False := by
    rintro before _ s s' _ after' mid rfl rfl hs' hafter
    rcases hs' with hs' | hs'
    · simp at hs'
    · exact hafter s' (by simp) hs'
  obtain ⟨before, rfl, hs, hafter⟩ := h
  obtain ⟨before', heq, hs', hafter'⟩ := h'
  rcases List.append_eq_append_iff.mp heq with ⟨mid, hbefore, hrest⟩ | ⟨mid, hbefore, hrest⟩
  · cases mid with
    | nil => exact List.cons.inj hrest
    | cons m mid =>
      obtain ⟨rfl, hmid⟩ := List.cons.inj hrest
      exact (hlast hbefore hmid hs' hafter).elim
  · cases mid with
    | nil =>
      obtain ⟨h1, h2⟩ := List.cons.inj hrest
      exact ⟨h1.symm, h2.symm⟩
    | cons m mid =>
      obtain ⟨rfl, hmid⟩ := List.cons.inj hrest
      exact (hlast hbefore hmid hs hafter').elim

end Since

namespace Image

variable (v : Point → ℤ) (label color : ℤ) (bridge : Point → Point → List Point)

/-- The value is the label of the object, and it is not that of the background. -/
def Own (p : Point) : Prop := v p ≠ 0 ∧ v p = label

/-- After the last of the points that is of the object there is background. -/
def OpenGap (ps : List Point) (s : Point) : Prop :=
  ∃ after, Since (Own v label) ps s after ∧ ∃ z ∈ s :: after, v z = 0

/-- Among the points `q` is one of the object that comes after a gap. -/
def Gap (ps : List Point) (s q : Point) : Prop :=
  Own v label q ∧ ∃ before after, ps = before ++ q :: after ∧ OpenGap v label before s

/-- The value is that of another object. -/
def Foreign (p : Point) : Prop := v p ≠ 0 ∧ v p ≠ label

instance (p : Point) : Decidable (Own v label p) := inferInstanceAs (Decidable (_ ∧ _))

instance (p : Point) : Decidable (Foreign v label p) := inferInstanceAs (Decidable (_ ∧ _))

/-- The point is one of those over a gap. -/
def Filled (ps : List Point) (p : Point) : Prop := ∃ s q, Gap v label ps s q ∧ p ∈ bridge s q

/-- The colour is 0 if the last of the points that is of the object or background is
background, and 255 if it is of the object. -/
def carried (ps : List Point) : ℤ :=
  match (ps.filter fun p => v p = 0 ∨ v p = label).getLast? with
  | none => color
  | some p => if v p = 0 then 0 else 255

variable {v label color bridge} {ps : List Point} {p q s : Point}

theorem carried_concat : carried v label color (ps ++ [q]) =
    if v q = 0 then 0 else if v q = label then 255 else carried v label color ps := by
  unfold carried
  by_cases hq : v q = 0 ∨ v q = label
  · rw [List.filter_append, List.filter_cons_of_pos (by simpa using hq), List.filter_nil,
      List.getLast?_concat]
    by_cases h0 : v q = 0
    · simp [h0]
    · simp [hq.resolve_left h0]
  · rw [List.filter_append, List.filter_cons_of_neg (by simpa using hq), List.filter_nil,
      List.append_nil, if_neg fun h => hq (Or.inl h), if_neg fun h => hq (Or.inr h)]

theorem OpenGap.mem (h : OpenGap v label ps s) : s ∈ ps := by
  obtain ⟨after, hsince, _⟩ := h
  exact hsince.mem

theorem gap_concat {q' : Point} : Gap v label (ps ++ [q']) s q ↔
    Gap v label ps s q ∨ q = q' ∧ Own v label q ∧ OpenGap v label ps s := by
  constructor
  · rintro ⟨hown, before, after, heq, hopen⟩
    rcases concat_cases heq with ⟨rfl, hq⟩ | ⟨after', heq⟩
    · exact Or.inr ⟨hq, hown, hopen⟩
    · exact Or.inl ⟨hown, before, after', heq, hopen⟩
  · rintro (⟨hown, before, after, rfl, hopen⟩ | ⟨rfl, hown, hopen⟩)
    · exact ⟨hown, before, after ++ [q'], by simp, hopen⟩
    · exact ⟨hown, ps, [], rfl, hopen⟩

theorem filled_concat : Filled v label bridge (ps ++ [q]) p ↔
    Filled v label bridge ps p ∨ Own v label q ∧ ∃ s, OpenGap v label ps s ∧ p ∈ bridge s q := by
  simp only [Filled, gap_concat]
  constructor
  · rintro ⟨s, q', hgap | ⟨rfl, hown, hopen⟩, hp⟩
    · exact Or.inl ⟨s, q', hgap, hp⟩
    · exact Or.inr ⟨hown, s, hopen, hp⟩
  · rintro (⟨s, q', hgap, hp⟩ | ⟨hown, s, hopen, hp⟩)
    · exact ⟨s, q', Or.inl hgap, hp⟩
    · exact ⟨s, q, Or.inr ⟨rfl, hown, hopen⟩, hp⟩

/-- What is over a gap is over one between two of the points. -/
theorem Filled.exists_append (h : Filled v label bridge ps p) :
    ∃ before q after, ps = before ++ q :: after ∧ ∃ s ∈ before, p ∈ bridge s q := by
  obtain ⟨s, q, ⟨_, before, after, rfl, hopen⟩, hp⟩ := h
  exact ⟨before, q, after, rfl, s, hopen.mem, hp⟩

/-! ### The pixels -/

/-- The image after some points: 255 over gaps, the colour at the point itself where the scan
has been, and as it was elsewhere. -/
structure Drawn (im : Image) (label color : ℤ) (bridge : Point → Point → List Point)
    (ps : List Point) (im' : Image) : Prop where
  inside : ∀ p, im'.Inside p ↔ im.Inside p
  filled : ∀ p, im.Inside p → Filled im.pixelAt label bridge ps p → im'.pixelAt p = 255
  passed : ∀ before p after, ps = before ++ p :: after → im.Inside p →
    ¬ Filled im.pixelAt label bridge ps p →
    im'.pixelAt p = carried im.pixelAt label color (before ++ [p])
  others : ∀ p, im.Inside p → p ∉ ps → ¬ Filled im.pixelAt label bridge ps p →
    im'.pixelAt p = im.pixelAt p

theorem drawn_nil (im : Image) (label color : ℤ) (bridge : Point → Point → List Point) :
    im.Drawn label color bridge [] im where
  inside _ := Iff.rfl
  filled p _ h := by
    obtain ⟨before, q, after, hnil, _⟩ := h.exists_append
    simp at hnil
  passed before p after h := by simp at h
  others _ _ _ _ := rfl

theorem pixelAt_painted_point {im : Image} (hp : im.Inside p) (qs : List Point) (q : Point)
    (c : ℤ) :
    ((im.painted qs 255).painted [q] c).pixelAt p =
      if p = q then c else if p ∈ qs then 255 else im.pixelAt p := by
  rw [pixelAt_painted (show (im.painted qs 255).Inside p from hp), pixelAt_painted hp]
  simp only [List.mem_singleton]

/-- At the next point some points become 255, and then it takes its colour. -/
theorem Drawn.concat {im im' : Image} (h : im.Drawn label color bridge ps im')
    (qs : List Point) (c : ℤ)
    (hfilled : ∀ p, Filled im.pixelAt label bridge (ps ++ [q]) p ↔
      Filled im.pixelAt label bridge ps p ∨ p ∈ qs)
    (hps : q ∉ ps) (hnew : ¬ Filled im.pixelAt label bridge ps q)
    (hc : c = carried im.pixelAt label color (ps ++ [q])) (hqs : q ∈ qs → c = 255) :
    im.Drawn label color bridge (ps ++ [q]) ((im'.painted qs 255).painted [q] c) where
  inside := h.inside
  filled p hp hfill := by
    rw [pixelAt_painted_point ((h.inside p).mpr hp)]
    rcases (hfilled p).mp hfill with hold | hmem
    · have hne : p ≠ q := by
        rintro rfl
        exact hnew hold
      rw [if_neg hne, h.filled p hp hold, ite_self]
    · rw [if_pos hmem]
      split_ifs with heq
      · exact hqs (heq ▸ hmem)
      · rfl
  passed before p after hlist hp hfill := by
    obtain ⟨hold, hmem⟩ := not_or.mp fun h => hfill ((hfilled p).mpr h)
    rw [pixelAt_painted_point ((h.inside p).mpr hp), if_neg hmem]
    rcases concat_cases hlist with ⟨rfl, rfl⟩ | ⟨after', hlist'⟩
    · rw [if_pos rfl, hc]
    · have hne : p ≠ q := by
        rintro rfl
        exact hps (hlist' ▸ by simp)
      rw [if_neg hne]
      exact h.passed before p after' hlist' hp hold
  others p hp hmem hfill := by
    obtain ⟨hold, hmemqs⟩ := not_or.mp fun h => hfill ((hfilled p).mpr h)
    obtain ⟨hps, hpq⟩ := not_or.mp fun h => hmem (List.mem_append.mpr h)
    have hne : p ≠ q := fun heq => hpq (List.mem_singleton.mpr heq)
    rw [pixelAt_painted_point ((h.inside p).mpr hp), if_neg hne, if_neg hmemqs]
    exact h.others p hp hps hold

/-! ### The loop -/

/-- The variables of the loop after some points. -/
structure Walked (im : Image) (label color : ℤ) (bridge : Point → Point → List Point)
    (first : Point) (ps : List Point) (t : Stroke) : Prop where
  drawn : im.Drawn label color bridge ps t.image
  color_eq : t.color = carried im.pixelAt label color ps
  saved : ps = [] ∧ t.saved = first ∧ t.hole = false ∨
    ∃ after, Since (Own im.pixelAt label) ps t.saved after ∧
      (t.hole = true ↔ ∃ z ∈ t.saved :: after, im.pixelAt z = 0)

section Walked

variable {im : Image} {first : Point} {t : Stroke} {nested : Image → Point → Point → Image}

/-- The loop has seen a gap just where one is open. -/
theorem Walked.openGap_iff (h : im.Walked label color bridge first ps t) :
    OpenGap im.pixelAt label ps s ↔ t.hole = true ∧ s = t.saved := by
  rcases h.saved with ⟨rfl, _, hhole⟩ | ⟨after, hsince, hhole⟩
  · refine iff_of_false (fun hopen => absurd hopen.mem List.not_mem_nil) ?_
    simp [hhole]
  · constructor
    · rintro ⟨after', hsince', hzero⟩
      obtain ⟨rfl, rfl⟩ := hsince'.unique hsince
      exact ⟨hhole.mpr hzero, rfl⟩
    · rintro ⟨htrue, rfl⟩
      exact ⟨after, hsince, hhole.mp htrue⟩

/-- A point that is not of the object leaves `savedx` and `savedy` as they are. -/
theorem Walked.since_concat (h : im.Walked label color bridge first ps t)
    (hfirst : ps = [] → q = first)
    (hq : ¬ Own im.pixelAt label q) :
    ∃ after, Since (Own im.pixelAt label) (ps ++ [q]) t.saved after ∧
      ((t.hole = true ∨ im.pixelAt q = 0) ↔ ∃ z ∈ t.saved :: after, im.pixelAt z = 0) := by
  rcases h.saved with ⟨rfl, hsaved, hhole⟩ | ⟨after, hsince, hhole⟩
  · rw [hsaved, ← hfirst rfl]
    exact ⟨[], since_singleton q, by simp [hhole]⟩
  · refine ⟨after ++ [q], hsince.concat hq, ?_⟩
    rw [hhole, ← List.cons_append]
    simp only [List.mem_append, List.mem_singleton, or_and_right, exists_or, exists_eq_left]

/-- Where no gap ends, the point itself is all that is painted. -/
theorem Walked.drawn_point {c : ℤ} (h : im.Walked label color bridge first ps t) (hq : im.Inside q)
    (hmem : q ∉ ps) (hnew : ¬ Filled im.pixelAt label bridge ps q)
    (hno : ¬ Own im.pixelAt label q ∨ t.hole = false)
    (hc : c = carried im.pixelAt label color (ps ++ [q])) :
    im.Drawn label color bridge (ps ++ [q]) (t.image.withPixel q.1.toNat q.2.toNat c) := by
  have hfilled : ∀ p, Filled im.pixelAt label bridge (ps ++ [q]) p ↔
      Filled im.pixelAt label bridge ps p ∨ p ∈ ([] : List Point) := by
    intro p
    rw [filled_concat]
    refine or_congr_right (iff_of_false ?_ List.not_mem_nil)
    rintro ⟨hown, s, hopen, -⟩
    have htrue := (h.openGap_iff.mp hopen).1
    rcases hno with hno | hno
    · exact hno hown
    · rw [hno] at htrue
      cases htrue
  have hconcat := h.drawn.concat [] c hfilled hmem hnew hc (by simp)
  rwa [painted_nil, ← withPixel_eq ((h.drawn.inside q).mpr hq)] at hconcat

/-- Where a gap ends, the line over it is painted first. -/
theorem Walked.drawn_gap (h : im.Walked label color bridge first ps t)
    (hnested : ∀ im' s q, (∀ p, im'.Inside p ↔ im.Inside p) →
      nested im' s q = im'.painted (bridge s q) 255) (hq : im.Inside q) (hmem : q ∉ ps)
    (hnew : ¬ Filled im.pixelAt label bridge ps q)
    (hown : Own im.pixelAt label q) (hhole : t.hole = true)
    (hc : 255 = carried im.pixelAt label color (ps ++ [q])) :
    im.Drawn label color bridge (ps ++ [q])
      ((nested t.image t.saved q).withPixel q.1.toNat q.2.toNat 255) := by
  have hin : t.image.Inside q := (h.drawn.inside q).mpr hq
  have hopen := h.openGap_iff.mpr ⟨hhole, rfl⟩
  have hfilled : ∀ p, Filled im.pixelAt label bridge (ps ++ [q]) p ↔
      Filled im.pixelAt label bridge ps p ∨ p ∈ bridge t.saved q := by
    intro p
    rw [filled_concat]
    refine or_congr_right ⟨?_, fun hp => ⟨hown, t.saved, hopen, hp⟩⟩
    rintro ⟨-, s, hopen', hp⟩
    rwa [(h.openGap_iff.mp hopen').2] at hp
  have hconcat := h.drawn.concat (bridge t.saved q) 255 hfilled hmem hnew hc fun _ => rfl
  have hpixel := withPixel_eq (show (t.image.painted (bridge t.saved q) 255).Inside q from hin) 255
  rw [hnested _ _ _ h.drawn.inside, hpixel]
  exact hconcat

/-- The next point of the loop: background, a pixel of the object, or of another one. -/
theorem Walked.step (h : im.Walked label color bridge first ps t)
    (hnested : ∀ im' s q, (∀ p, im'.Inside p ↔ im.Inside p) →
      nested im' s q = im'.painted (bridge s q) 255) (hq : im.Inside q)
    (hfirst : ps = [] → q = first)
    (hmem : q ∉ ps) (hnew : ¬ Filled im.pixelAt label bridge ps q) :
    ∃ t', visit nested label false q t = some t' ∧
      im.Walked label color bridge first (ps ++ [q]) t' := by
  have hin : t.image.Inside q := (h.drawn.inside q).mpr hq
  have hbyte : t.image.pixelAt q = im.pixelAt q := h.drawn.others q hq hmem hnew
  have hcolor : carried im.pixelAt label color (ps ++ [q]) = if im.pixelAt q = 0 then 0
      else if im.pixelAt q = label then 255 else carried im.pixelAt label color ps := carried_concat
  unfold visit
  rw [if_neg (not_not.mpr hin)]
  simp only [Bool.false_eq_true, if_false, hbyte]
  by_cases h0 : im.pixelAt q = 0
  · have hown : ¬ Own im.pixelAt label q := fun hown => hown.1 h0
    obtain ⟨after, hsince, hzero⟩ := h.since_concat hfirst hown
    rw [if_pos h0] at hcolor
    rw [if_pos h0]
    have hdrawn := h.drawn_point hq hmem hnew (Or.inl hown) hcolor.symm
    exact ⟨_, rfl, hdrawn, hcolor.symm,
      Or.inr ⟨after, hsince, iff_of_true rfl (hzero.mp (Or.inr h0))⟩⟩
  · by_cases hl : im.pixelAt q = label
    · have hown : Own im.pixelAt label q := ⟨h0, hl⟩
      rw [if_neg h0, if_pos hl] at hcolor
      rw [if_neg h0, if_pos hl]
      refine ⟨_, rfl, ?_, hcolor.symm, Or.inr ⟨[], since_concat_of_mark ps hown, by simp [h0]⟩⟩
      cases hhole : t.hole with
      | false => exact h.drawn_point hq hmem hnew (Or.inr hhole) hcolor.symm
      | true => exact h.drawn_gap hnested hq hmem hnew hown hhole hcolor.symm
    · have hown : ¬ Own im.pixelAt label q := fun hown => hl hown.2
      obtain ⟨after, hsince, hzero⟩ := h.since_concat hfirst hown
      rw [if_neg h0, if_neg hl, ← h.color_eq] at hcolor
      rw [if_neg h0, if_neg hl]
      have hdrawn := h.drawn_point hq hmem hnew (Or.inl hown) hcolor.symm
      refine ⟨_, rfl, hdrawn, hcolor.symm, Or.inr ⟨after, hsince, ?_⟩⟩
      rw [← hzero]
      simp [h0]

/-- The loop over points up to the first that is not in the image, each of them not over a gap
between two points before it. -/
theorem Walked.sweep {R : Point → Point → Prop} (hirrefl : ∀ p, ¬ R p p)
    (hbridge : ∀ s q' q, R s q' → R q' q → q ∉ bridge s q')
    (hnested : ∀ im' s q, (∀ p, im'.Inside p ↔ im.Inside p) →
      nested im' s q = im'.painted (bridge s q) 255) (qs : List Point)
    (h : im.Walked label color bridge first ps t)
    (horder : (ps ++ qs.takeWhile fun p => im.Inside p).Pairwise R)
    (hfirst : ps = [] → qs.head? = some first) :
    im.Walked label color bridge first (ps ++ qs.takeWhile fun p => im.Inside p)
      (sweep (visit nested label false) qs t) := by
  induction qs generalizing ps t with
  | nil => simpa [Vision.sweep] using h
  | cons q qs ih =>
    by_cases hq : im.Inside q
    · rw [List.takeWhile_cons_of_pos (by simpa using hq)] at horder ⊢
      obtain ⟨hps, -, hafter⟩ := List.pairwise_append.mp horder
      have hbefore : ∀ p ∈ ps, R p q := fun p hp => hafter p hp q List.mem_cons_self
      have hmem : q ∉ ps := fun hp => hirrefl q (hbefore q hp)
      have hnew : ¬ Filled im.pixelAt label bridge ps q := by
        intro hfill
        obtain ⟨before, q', after, rfl, s, hs, hp⟩ := hfill.exists_append
        have hsq := (List.pairwise_append.mp hps).2.2 s hs q' List.mem_cons_self
        exact hbridge s q' q hsq (hbefore q' (by simp)) hp
      have hhead : ps = [] → q = first := fun hnil => Option.some.inj (hfirst hnil)
      obtain ⟨t', hvisit, hwalked⟩ := h.step hnested hq hhead hmem hnew
      have hrest := ih hwalked (by simpa using horder) (by simp)
      rw [Vision.sweep, hvisit]
      simpa using hrest
    · have hvisit : visit nested label false q t = none := by
        simp [visit, h.drawn.inside q, hq]
      rw [List.takeWhile_cons_of_neg (by simpa using hq), List.append_nil, Vision.sweep, hvisit]
      exact h

end Walked

theorem reached_congr {im im' : Image} (h : ∀ p, im'.Inside p ↔ im.Inside p) (P Q : Point)
    (int : ℤ → ℤ) : im'.reached P Q int = im.reached P Q int := by
  unfold reached
  congr 1
  funext p
  exact decide_eq_decide.mpr (h p)

theorem nonneg_of_inside {im : Image} (p : Point) (hp : decide (im.Inside p) = true) :
    0 ≤ p.1 ∧ 0 ≤ p.2 := by
  have hin : im.Inside p := by simpa using hp
  exact ⟨hin.1.1, hin.2.1⟩

/-- The pixels after `DrawLine` for an axis. -/
theorem drawn_drawLine (im : Image) {P Q : Point} (hP : IntPoint P) (hQ : IntPoint Q)
    (color label : ℤ) : im.Drawn label color (fun s q => im.reached s q int32)
      (im.reached P Q int32) (DrawLine im P Q color label false int32) := by
  let scan := LineScan.setup P Q int32
  have hstart : im.Walked label color (fun s q => im.reached s q int32) scan.lo []
      ⟨im, color, scan.lo, false⟩ :=
    ⟨im.drawn_nil label color _, rfl, Or.inl ⟨rfl, rfl, rfl⟩⟩
  have hirrefl : ∀ p, ¬ scan.Ahead p p := fun p hp => lt_irrefl _ hp.major_lt
  have hbridge : ∀ s q' q, scan.Ahead s q' → scan.Ahead q' q → q ∉ im.reached s q' int32 :=
    fun s q' q hsq hq hmem =>
      not_lt.mpr (major_le_of_ahead hsq nonneg_of_inside hmem) hq.major_lt
  have hnested : ∀ (im' : Image) (s q : Point), (∀ p, im'.Inside p ↔ im.Inside p) →
      drawWith (fun im _ _ => im) im' s q 255 label true int32 =
        im'.painted (im.reached s q int32) 255 := by
    intro im' s q hin
    rw [drawWith_solid, reached_congr hin]
  have hend := hstart.sweep hirrefl hbridge hnested (track P Q int32)
    (pairwise_track hP hQ nonneg_of_inside) (fun _ => head_track P Q int32)
  rw [DrawLine, drawWith, scan_eq_sweep]
  exact hend.drawn

/-- The colour with which the line comes to a pixel of another object has its value: the value
is 255 and what is before are pixels of other objects back to one of the object, or the value
is the first colour and there are only such pixels before. -/
def SameColor (v : Point → ℤ) (label color : ℤ) (before : List Point) (p : Point) : Prop :=
  (v p = 255 ∧ ∃ earlier o between, before = earlier ++ o :: between ∧ Own v label o ∧
    ∀ q ∈ between, Foreign v label q) ∨
  (v p = color ∧ ∀ q ∈ before, Foreign v label q)

theorem sameColor_concat : SameColor v label color (ps ++ [q]) p ↔
    (Own v label q ∧ v p = 255) ∨ (Foreign v label q ∧ SameColor v label color ps p) := by
  constructor
  · rintro (⟨hv, earlier, o, between, hlist, hown, hforeign⟩ | ⟨hv, hforeign⟩)
    · rcases concat_cases hlist with ⟨rfl, rfl⟩ | ⟨between', rfl⟩
      · exact Or.inl ⟨hown, hv⟩
      · obtain rfl : between = between' ++ [q] := by simpa using hlist.symm
        exact Or.inr ⟨hforeign q (by simp), Or.inl ⟨hv, earlier, o, between', rfl, hown,
          fun m hm => hforeign m (List.mem_append_left _ hm)⟩⟩
    · exact Or.inr ⟨hforeign q (by simp),
        Or.inr ⟨hv, fun m hm => hforeign m (List.mem_append_left _ hm)⟩⟩
  · have hconcat : ∀ {ms : List Point}, Foreign v label q → (∀ m ∈ ms, Foreign v label m) →
        ∀ m ∈ ms ++ [q], Foreign v label m := by
      intro ms hq hms m hm
      rcases List.mem_append.mp hm with hm | hm
      · exact hms m hm
      · rwa [List.mem_singleton.mp hm]
    rintro (⟨hown, hv⟩ | ⟨hq, ⟨hv, earlier, o, between, rfl, hown, hforeign⟩ | ⟨hv, hforeign⟩⟩)
    · exact Or.inl ⟨hv, ps, q, [], rfl, hown, by simp⟩
    · exact Or.inl ⟨hv, earlier, o, between ++ [q], by simp, hown, hconcat hq hforeign⟩
    · exact Or.inr ⟨hv, hconcat hq hforeign⟩

theorem carried_eq_iff (hp : v p ≠ 0) : carried v label color ps = v p ↔
    SameColor v label color ps p := by
  induction ps using List.reverseRecOn with
  | nil => simp [carried, SameColor, eq_comm]
  | append_singleton ps q ih =>
    rw [carried_concat, sameColor_concat, Own, Foreign]
    by_cases h0 : v q = 0
    · simp [h0, hp.symm]
    · by_cases hl : v q = label
      · have hlabel : label ≠ 0 := hl ▸ h0
        rw [if_neg h0, if_pos hl]
        simp [hl, hlabel, eq_comm]
      · rw [if_neg h0, if_neg hl, ih]
        simp [h0, hl]

/-- The pixels of other objects keep their values just when what is drawn over gaps meets only
such of value 255, and the scan comes elsewhere only to such as have the colour with which it
comes to them. Up to a distance of 46340 the scan goes along the digital line. -/
theorem drawLine_frame_iff (im : Image) {P Q : Point} (hP : IntPoint P) (hQ : IntPoint Q)
    (color label : ℤ) :
    ((∀ p, im.Inside p → Foreign im.pixelAt label p →
      (DrawLine im P Q color label false int32).pixelAt p = im.pixelAt p) ↔
    ∀ p, im.Inside p → Foreign im.pixelAt label p →
      (Filled im.pixelAt label (fun s q => im.reached s q int32) (im.reached P Q int32) p →
        im.pixelAt p = 255) ∧
      ∀ before after, im.reached P Q int32 = before ++ p :: after →
        ¬ Filled im.pixelAt label (fun s q => im.reached s q int32) (im.reached P Q int32) p →
        SameColor im.pixelAt label color before p) ∧
    (|Q.1 - P.1| ≤ 46340 → |Q.2 - P.2| ≤ 46340 → track P Q int32 = line P Q) := by
  refine ⟨?_, track_int32_eq_line hP hQ⟩
  have hdrawn := im.drawn_drawLine hP hQ color label
  have hcolor : ∀ before p, Foreign im.pixelAt label p →
      carried im.pixelAt label color (before ++ [p]) = carried im.pixelAt label color before :=
    fun before p hp => by rw [carried_concat, if_neg hp.1, if_neg hp.2]
  constructor
  · intro h p hp hforeign
    have hkept := h p hp hforeign
    refine ⟨fun hfill => ?_, fun before after hlist hfill => ?_⟩
    · rw [← hkept, hdrawn.filled p hp hfill]
    · rw [← carried_eq_iff hforeign.1, ← hcolor before p hforeign,
        ← hdrawn.passed before p after hlist hp hfill, hkept]
  · intro h p hp hforeign
    obtain ⟨hfilled, hpassed⟩ := h p hp hforeign
    by_cases hfill : Filled im.pixelAt label (fun s q => im.reached s q int32)
        (im.reached P Q int32) p
    · rw [hdrawn.filled p hp hfill, hfilled hfill]
    · by_cases hmem : p ∈ im.reached P Q int32
      · obtain ⟨before, after, hlist⟩ := List.append_of_mem hmem
        rw [hdrawn.passed before p after hlist hp hfill, hcolor before p hforeign,
          carried_eq_iff hforeign.1]
        exact hpassed before after hlist hfill
      · exact hdrawn.others p hp hmem hfill

/-- An object of value 30 above one of value 255. -/
def onWhite : Image := square fun i _ => if i = 0 then 30 else 255

/-- A pixel of another object that has the value 255 keeps it. -/
theorem drawLine_frame_white :
    (DrawLine onWhite (0, 0) (1, 0) 255 30 false int32).pixelAt (1, 0) = 255 ∧
      (DrawLine onWhite (0, 0) (1, 0) 255 30 false int32).pixelAt (1, 1) = 255 := by
  suffices hframe : ∀ p, onWhite.Inside p → Foreign onWhite.pixelAt 30 p →
      (DrawLine onWhite (0, 0) (1, 0) 255 30 false int32).pixelAt p = onWhite.pixelAt p from
    ⟨hframe (1, 0) (by decide) (by decide), hframe (1, 1) (by decide) (by decide)⟩
  refine (drawLine_frame_iff _ (by decide) (by decide) 255 30).1.mpr fun p hp hforeign => ?_
  have hwhite : onWhite.pixelAt p = 255 := by
    have hvalue : onWhite.pixelAt p = 30 ∨ onWhite.pixelAt p = 255 := ite_eq_or_eq _ _ _
    exact hvalue.resolve_left hforeign.2
  refine ⟨fun _ => hwhite, fun before after hlist _ => ?_⟩
  have hreached : onWhite.reached (0, 0) (1, 0) int32 = [(0, 0)] ++ [(1, 0)] := by
    rw [reached, track_int32_eq_line (by decide) (by decide) (by decide) (by decide)]
    decide
  rw [hreached] at hlist
  rcases concat_cases hlist with ⟨rfl, -⟩ | ⟨after', hfirst⟩
  · exact Or.inl ⟨hwhite, [], (0, 0), [], rfl, by decide, by simp⟩
  · have hmem : p ∈ [(0, 0)] := hfirst ▸ by simp
    obtain rfl := List.mem_singleton.mp hmem
    exact absurd hforeign (by decide)

/-- The line goes on past the object of label 30, and the pixel of the object of label 60
that it comes to becomes 255. -/
theorem other_object_overwritten :
    (square fun i _ => if i = 0 then 30 else 60).Inside (1, 0) ∧
    Foreign (square fun i _ => if i = 0 then 30 else 60).pixelAt 30 (1, 0) ∧
    (DrawLine (square fun i _ => if i = 0 then 30 else 60) (0, 0) (1, 0) 255 30 false
      int32).pixelAt (1, 0) ≠ (square fun i _ => if i = 0 then 30 else 60).pixelAt (1, 0) := by
  refine ⟨by decide, by decide, ?_⟩
  rw [DrawLine, drawWith, scan_eq_sweep,
    track_int32_eq_line (by decide) (by decide) (by decide) (by decide)]
  decide

end Image

end SchoolProjects.Vision
