import SchoolProjects.Lib.Loop
import SchoolProjects.Lib.Scan

/-! Input streams of the C++ library. An extraction skips white space and scans what
follows; once a flag is set nothing is read any more. A loop that extracts records until
the end of the text ends if and only if the text runs out before an extraction fails. -/

namespace SchoolProjects

open Text Loop

/-- `istream`: what is left of the text, `eofbit` and `failbit`. -/
structure Istream where
  rest : Text
  eof : Bool
  fail : Bool
  deriving DecidableEq

namespace Istream

def ofText (t : Text) : Istream := ⟨t, false, false⟩

/-- What comes before an extraction: nothing is read once a flag is set, and white space
is skipped. -/
def sentry (s : Istream) : Istream :=
  if s.eof || s.fail then { s with fail := true }
  else
    let t := s.rest.dropWhile isspace
    ⟨t, t.isEmpty, t.isEmpty⟩

variable {α β : Type*}

/-- `s >> target`, where `target` holds `old`. -/
def extract (scan : Text → Scan α) (s : Istream) (old : α) : α × Istream :=
  let s := s.sentry
  if s.fail then (old, s)
  else
    let r := scan s.rest
    (r.value, ⟨r.rest, r.rest.isEmpty, !r.ok⟩)

/-- The stream after an extraction. -/
def after (k : Text → Bool × Text) (s : Istream) : Istream :=
  let s := s.sentry
  if s.fail then s
  else
    let r := k s.rest
    ⟨r.2, r.2.isEmpty, !r.1⟩

theorem extract_snd (scan : Text → Scan α) (s : Istream) (old : α) :
    (s.extract scan old).2 = s.after (Scan.skim scan) := by
  unfold extract after
  dsimp only
  split_ifs <;> rfl

/-- The stream with a flag set. -/
def flagged (s : Istream) : Prop := s.eof = true ∨ s.fail = true

theorem not_flagged_ofText (t : Text) : ¬ (ofText t).flagged := by
  simp [flagged, ofText]

theorem sentry_flagged {s : Istream} (h : s.flagged) : s.sentry = { s with fail := true } := by
  have hflag : (s.eof || s.fail) = true := by simpa [flagged] using h
  rw [sentry, if_pos hflag]

theorem dropWhile_isspace_eq_nil {t : Text} : t.dropWhile isspace = [] ↔ t.all isspace = true := by
  rw [List.dropWhile_eq_nil_iff, List.all_eq_true]

theorem extract_ofText (scan : Text → Scan α) {t u : Text} (hu : t.dropWhile isspace = u)
    (hne : u ≠ []) (old : α) :
    (ofText t).extract scan old =
      ((scan u).value, ⟨(scan u).rest, (scan u).rest.isEmpty, !(scan u).ok⟩) := by
  have hempty : u.isEmpty = false := by simpa using hne
  simp [extract, sentry, ofText, hu, hempty]

/-- A value that is followed by something else. -/
theorem extract_token {scan : Text → Scan α} {t u rest : Text} {v : α}
    (hu : t.dropWhile isspace = u) (hne : u ≠ []) (hscan : scan u = ⟨v, true, rest⟩)
    (hrest : rest ≠ []) (old : α) : (ofText t).extract scan old = (v, ofText rest) := by
  have hempty : rest.isEmpty = false := by simpa using hrest
  rw [extract_ofText scan hu hne, hscan]
  simp only [hempty]
  rfl

theorem extract_blank (scan : Text → Scan α) {t : Text} (h : t.all isspace = true) (old : α) :
    (ofText t).extract scan old = (old, ⟨[], true, true⟩) := by
  simp [extract, sentry, ofText, dropWhile_isspace_eq_nil.mpr h]

section After

variable {k : Text → Bool × Text} {s : Istream} {t : Text}

theorem after_flagged (h : s.flagged) : s.after k = { s with fail := true } := by
  simp [after, sentry_flagged h]

theorem after_blank (h : t.all isspace = true) : (ofText t).after k = ⟨[], true, true⟩ := by
  simp [after, sentry, ofText, dropWhile_isspace_eq_nil.mpr h]

theorem after_ofText (h : ¬ t.all isspace = true) : (ofText t).after k =
    ⟨(k (t.dropWhile isspace)).2, (k (t.dropWhile isspace)).2.isEmpty,
      !(k (t.dropWhile isspace)).1⟩ := by
  have hempty : (t.dropWhile isspace).isEmpty = false := by
    simpa using mt dropWhile_isspace_eq_nil.mp h
  simp [after, sentry, ofText, hempty]

/-- A stream that is good after an extraction. -/
theorem after_good (h : ¬ ((ofText t).after k).flagged) :
    (k (t.dropWhile isspace)).1 = true ∧
      (ofText t).after k = ofText (k (t.dropWhile isspace)).2 := by
  have hblank : ¬ t.all isspace = true := by
    intro hblank
    rw [after_blank hblank] at h
    exact h (Or.inl rfl)
  rw [after_ofText hblank] at h ⊢
  generalize k (t.dropWhile isspace) = r at h ⊢
  obtain ⟨heof, hfail⟩ := not_or.mp h
  have hok : r.1 = true := by simpa using hfail
  have hrest : r.2.isEmpty = false := Bool.eq_false_iff.mpr heof
  rw [hok, hrest]
  exact ⟨rfl, rfl⟩

/-- Once a flag is set, extractions leave the end of the text as it is. -/
theorem eof_foldl (ks : List (Text → Bool × Text)) (h : s.flagged) :
    (ks.foldl (fun s k => s.after k) s).eof = s.eof ∧
      (ks.foldl (fun s k => s.after k) s).flagged := by
  induction ks generalizing s with
  | nil => exact ⟨rfl, h⟩
  | cons k ks ih =>
    rw [List.foldl_cons, after_flagged h]
    exact ih (Or.inr rfl)

end After

/-! ### Records -/

/-- A text whose fields, in the order of `format` over and over, run out before one of
them is bad: what is left is blank, or a field is looked at to the end of the text. The
second argument lists the fields that are still to come in the current record. -/
inductive UsedUp (format : List (Text → Bool × Text)) : List (Text → Bool × Text) → Text → Prop
  | blank {k ks t} : t.all isspace = true → UsedUp format (k :: ks) t
  | finish {k ks t} : (k (t.dropWhile isspace)).2 = [] → UsedUp format (k :: ks) t
  | field {k ks t} : (k (t.dropWhile isspace)).1 = true →
      UsedUp format ks (k (t.dropWhile isspace)).2 → UsedUp format (k :: ks) t
  | again {t} : UsedUp format format t → UsedUp format [] t

section Records

variable {format ks : List (Text → Bool × Text)} {k : Text → Bool × Text} {t : Text}

theorem usedUp_nil : UsedUp format [] t ↔ UsedUp format format t := by
  constructor
  · rintro (_ | _ | _ | h)
    exact h
  · exact .again

theorem usedUp_cons : UsedUp format (k :: ks) t ↔ t.all isspace = true ∨
    (k (t.dropWhile isspace)).2 = [] ∨
      (k (t.dropWhile isspace)).1 = true ∧ UsedUp format ks (k (t.dropWhile isspace)).2 := by
  constructor
  · rintro (h | h | ⟨h, h'⟩)
    · exact Or.inl h
    · exact Or.inr (Or.inl h)
    · exact Or.inr (Or.inr ⟨h, h'⟩)
  · rintro (h | h | ⟨h, h'⟩)
    · exact .blank h
    · exact .finish h
    · exact .field h h'

/-- A field that leaves something must be good. -/
theorem usedUp_token {u : Text} (hu : t.dropWhile isspace = u) (hne : u ≠ [])
    (hrest : (k u).2 ≠ []) :
    UsedUp format (k :: ks) t ↔ (k u).1 = true ∧ UsedUp format ks (k u).2 := by
  have hblank : ¬ t.all isspace = true := fun h =>
    hne (hu.symm.trans (dropWhile_isspace_eq_nil.mpr h))
  rw [usedUp_cons, hu, or_iff_right hblank, or_iff_right hrest]

/-- The fields of a text run out if and only if, after the rest of the record, the stream
is at the end, or it is good and the fields of what is left run out. -/
theorem usedUp_iff : UsedUp format ks t ↔
    (ks.foldl (fun s k => s.after k) (ofText t)).eof = true ∨
      ∃ u, ks.foldl (fun s k => s.after k) (ofText t) = ofText u ∧ UsedUp format [] u := by
  induction ks generalizing t with
  | nil => simp [ofText]
  | cons k ks ih =>
    rw [usedUp_cons, List.foldl_cons]
    have hflagged : ∀ s : Istream, s.flagged →
        ((ks.foldl (fun s k => s.after k) s).eof = true ∨
          (∃ u, ks.foldl (fun s k => s.after k) s = ofText u ∧ UsedUp format [] u) ↔
            s.eof = true) := by
      intro s hs
      obtain ⟨heof, hflag⟩ := eof_foldl ks hs
      rw [heof]
      refine or_iff_left ?_
      rintro ⟨u, hu, -⟩
      exact not_flagged_ofText u (hu ▸ hflag)
    by_cases hblank : t.all isspace = true
    · rw [after_blank hblank, hflagged _ (Or.inl rfl)]
      simp [hblank]
    rw [after_ofText hblank]
    generalize k (t.dropWhile isspace) = r
    obtain ⟨ok, rest⟩ := r
    cases hrest : rest.isEmpty with
    | true =>
      rw [hflagged _ (Or.inl rfl)]
      simp_all
    | false =>
      have hne : rest ≠ [] := by simpa using hrest
      cases ok with
      | true =>
        rw [or_iff_right hblank, or_iff_right hne, and_iff_right rfl]
        exact ih
      | false =>
        rw [hflagged _ (Or.inr rfl)]
        simp [hblank, hne]

/-- The body of `while (!s.eof()) { read a record; use it }`. -/
def untilEof (read : Istream → α × Istream) (use : α → β → β) :
    Istream × β → (Istream × β) ⊕ β
  | (s, b) => if s.eof then .inr b else .inl ((read s).2, use (read s).1 b)

variable {read : Istream → α × Istream} {use : α → β → β}

theorem untilEof_eof {s : Istream} (h : s.eof = true) (b : β) :
    untilEof read use (s, b) = .inr b := if_pos h

theorem untilEof_read {s : Istream} (h : s.eof = false) (b : β) :
    untilEof read use (s, b) = .inl ((read s).2, use (read s).1 b) :=
  if_neg (Bool.eq_false_iff.mp h)

/-- A field that is good takes something from the text. -/
def Consumes (k : Text → Bool × Text) : Prop :=
  ∀ t, (k t).1 = true → (k t).2.length < t.length

/-- A good stream after the fields of a record. -/
theorem length_of_foldl (hks : ∀ k ∈ ks, Consumes k) {u : Text}
    (h : ks.foldl (fun s k => s.after k) (ofText t) = ofText u) :
    u.length + ks.length ≤ t.length := by
  induction ks generalizing t with
  | nil =>
    obtain rfl : t = u := congrArg Istream.rest h
    simp
  | cons k ks ih =>
    rw [List.foldl_cons] at h
    have hgood : ¬ ((ofText t).after k).flagged := by
      intro hflag
      exact not_flagged_ofText u (h ▸ (eof_foldl ks hflag).2)
    obtain ⟨hok, hafter⟩ := after_good hgood
    rw [hafter] at h
    have hlt := hks k (by simp) _ hok
    have hskip := (List.dropWhile_suffix (l := t) isspace).length_le
    have hrec := ih (fun k hk => hks k (by simp [hk])) h
    simp only [List.length_cons]
    omega

/-- Reading records to the end of the text ends if and only if the fields run out before
one of them is bad. -/
theorem untilEof_ends_iff (hread : ∀ s, (read s).2 = format.foldl (fun s k => s.after k) s)
    (hformat : ∀ k ∈ format, Consumes k) (hne : format ≠ []) (t : Text) (b : β) :
    (∃ r, Ends (untilEof read use) (ofText t, b) r) ↔ UsedUp format [] t := by
  induction hlen : t.length using Nat.strong_induction_on generalizing t b with
  | _ n ih =>
    have hfirst : untilEof read use (ofText t, b) =
        .inl ((read (ofText t)).2, use (read (ofText t)).1 b) := untilEof_read rfl b
    simp only [ends_again_iff hfirst, hread]
    rw [usedUp_nil, usedUp_iff]
    set s := format.foldl (fun s k => s.after k) (ofText t) with hs
    generalize use (read (ofText t)).1 b = b'
    cases heof : s.eof with
    | true =>
      refine iff_of_true ⟨b', .exit (untilEof_eof heof b')⟩ (Or.inl rfl)
    | false =>
      cases hfail : s.fail with
      | false =>
        obtain ⟨u, hu⟩ : ∃ u, s = ofText u := ⟨s.rest, by
          rcases s with ⟨rest, eof, fail⟩
          cases heof
          cases hfail
          rfl⟩
        have hshort := length_of_foldl hformat (hs.symm.trans hu)
        have hpos := List.length_pos_iff.mpr hne
        rw [hu, ih u.length (by omega) u b' rfl]
        simp [ofText]
      | true =>
        -- the flag stays set, and the end of the text is never looked for
        refine iff_of_false ?_ ?_
        · rintro ⟨r, hr⟩
          refine not_ends (fun x => x.1.eof = false ∧ x.1.fail = true) ?_ ⟨heof, hfail⟩ hr
          rintro ⟨s', b''⟩ ⟨heof', hfail'⟩
          refine ⟨_, untilEof_read heof' b'', ?_, ?_⟩
          · rw [hread]
            exact (eof_foldl format (Or.inr hfail')).1.trans heof'
          · have hflag := (eof_foldl format (s := s') (Or.inr hfail')).2
            have heof'' := (eof_foldl format (s := s') (Or.inr hfail')).1.trans heof'
            rw [hread]
            simpa [flagged, heof''] using hflag
        · rintro (h | ⟨u, hu, -⟩)
          · cases h
          · rw [hu] at hfail
            cases hfail

end Records

end Istream

end SchoolProjects
