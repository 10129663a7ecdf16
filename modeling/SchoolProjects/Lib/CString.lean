import SchoolProjects.Lib.Text

/-! C strings in buffers. A pointer into a buffer is an index, and a read that runs off the
buffer is `none`. `strtok` marks the ends of the tokens in the buffer; what it finds is a
function of the text behind the pointer, and successive calls find the tokens of the string. -/

namespace SchoolProjects.CString

/-- A string in a buffer of `size` bytes, its end included. -/
def fits (size : ℕ) (t : Text) : Option Text := if t.length < size then some t else none

/-- The bytes before the first NUL. -/
def cut (t : Text) : Text := t.takeWhile (· ≠ 0)

/-- The string at the index `k`. -/
def stringAt (buf : Text) (k : ℕ) : Option Text :=
  if 0 ∈ buf.drop k then some (cut (buf.drop k)) else none

/-- How many bytes from `k` on meet `p`. -/
def strspn (p : UInt8 → Bool) (buf : Text) (k : ℕ) : ℕ := ((buf.drop k).takeWhile p).length

/-- The bytes of a token. -/
def inToken (delim : UInt8 → Bool) (c : UInt8) : Bool := !delim c && c != 0

/-- `strtok` from the index `s`: the index of the token, the buffer, and where the next call
starts. -/
def strtok (delim : UInt8 → Bool) (buf : Text) (s : ℕ) : Option (Option ℕ × Text × ℕ) := do
  let token := s + strspn delim buf s
  let c ← buf[token]?
  if c = 0 then return (none, buf, token)
  let stop := token + strspn (inToken delim) buf token
  let c ← buf[stop]?
  if c = 0 then return (some token, buf, stop)
  else return (some token, buf.set stop 0, stop + 1)

/-- The token that `strtok` finds in a text, and what is left for the next call. -/
def nextToken (delim : UInt8 → Bool) (t : Text) : Option (Option Text × Text) :=
  match t.dropWhile delim with
  | [] => none
  | c :: u =>
    if c = 0 then some (none, c :: u)
    else
      let w := (c :: u).takeWhile (inToken delim)
      match (c :: u).dropWhile (inToken delim) with
      | [] => none
      | d :: v => some (some w, if d = 0 then d :: v else v)

/-- The tokens of a text. -/
def tokens (delim : UInt8 → Bool) (t : Text) : List Text :=
  (t.splitOnP delim).filter (· ≠ [])

/-! ### Strings -/

theorem cut_append_nul {t : Text} (ht : 0 ∉ t) (u : Text) : cut (t ++ 0 :: u) = t := by
  rw [cut, List.takeWhile_append_of_pos fun c hc => by
    have : c ≠ 0 := fun h => ht (h ▸ hc)
    simpa using this]
  simp

theorem cut_append {t : Text} (ht : 0 ∉ t) (u : Text) : cut (t ++ u) = t ++ cut u := by
  rw [cut, List.takeWhile_append_of_pos fun c hc => by
    have : c ≠ 0 := fun h => ht (h ▸ hc)
    simpa using this]
  rfl

theorem cut_of_notMem {t : Text} (ht : 0 ∉ t) : cut t = t := by
  simpa [cut] using cut_append ht []

theorem eq_cut_append {t : Text} (ht : 0 ∈ t) : ∃ u, t = cut t ++ 0 :: u := by
  have hsplit := List.takeWhile_append_dropWhile (p := (· ≠ 0)) (l := t)
  rcases hu : t.dropWhile (· ≠ 0) with _ | ⟨c, u⟩
  · rw [hu, List.append_nil] at hsplit
    have := List.mem_takeWhile_imp (hsplit ▸ ht)
    simp at this
  · have hne : t.dropWhile (· ≠ 0) ≠ [] := by
      rw [hu]
      exact List.cons_ne_nil _ _
    have hc := List.head_dropWhile_not _ hne
    simp only [hu, List.head_cons] at hc
    obtain rfl : c = 0 := by simpa using hc
    exact ⟨u, by rw [← hu]; exact hsplit.symm⟩

theorem nul_notMem_cut (t : Text) : 0 ∉ cut t := by
  intro h
  have := List.mem_takeWhile_imp h
  simp at this

theorem cut_append_of_mem {t : Text} (ht : 0 ∈ t) (u : Text) : cut (t ++ u) = cut t := by
  obtain ⟨v, hv⟩ := eq_cut_append ht
  calc cut (t ++ u) = cut (cut t ++ 0 :: (v ++ u)) := by
        rw [← List.cons_append, ← List.append_assoc, ← hv]
    _ = cut t := cut_append_nul (nul_notMem_cut t) _

/-- A text that goes on with another byte than NUL shows where its string ends. -/
theorem cut_append_cons_inj {t u v : Text} {c : UInt8} (hc : c ≠ 0) :
    cut t ++ c :: u = t ++ c :: v ↔ 0 ∉ t ∧ u = v := by
  constructor
  · intro h
    have ht : 0 ∉ t := by
      intro ht
      obtain ⟨w, hw⟩ := eq_cut_append ht
      rw [hw, List.append_assoc, ← hw] at h
      exact hc (List.cons.inj (List.append_cancel_left h)).1
    rw [cut_of_notMem ht] at h
    exact ⟨ht, (List.cons.inj (List.append_cancel_left h)).2⟩
  · rintro ⟨ht, rfl⟩
    rw [cut_of_notMem ht]

/-- A string and its end are within the buffer. -/
theorem length_stringAt {buf t : Text} {k : ℕ} (h : stringAt buf k = some t) :
    t.length < buf.length - k := by
  unfold stringAt at h
  split_ifs at h with hmem
  cases h
  obtain ⟨u, hu⟩ := eq_cut_append hmem
  have hlen := congrArg List.length hu
  rw [List.length_append, List.length_drop, List.length_cons] at hlen
  omega

/-! ### Tokens -/

variable {delim : UInt8 → Bool}

theorem tokens_append_cons {d : UInt8} (hd : delim d = true) (t u : Text) :
    tokens delim (t ++ d :: u) = tokens delim t ++ tokens delim u := by
  rw [tokens, List.splitOnP_append_cons t u hd, List.filter_append]
  rfl

theorem tokens_delims {ds : Text} (hds : ∀ d ∈ ds, delim d = true) (t : Text) :
    tokens delim (ds ++ t) = tokens delim t := by
  induction ds with
  | nil => rfl
  | cons d ds ih =>
    have hfirst := tokens_append_cons (hds d (by simp)) [] (ds ++ t)
    rw [List.cons_append, ← List.nil_append (d :: (ds ++ t)), hfirst,
      ih fun e he => hds e (by simp [he])]
    rfl

theorem tokens_word {w : Text} (hne : w ≠ []) (hw : ∀ c ∈ w, delim c = false) :
    tokens delim w = [w] := by
  rw [tokens, List.splitOnP_eq_singleton hw]
  simp [hne]

theorem inToken_iff {c : UInt8} : inToken delim c = true ↔ delim c = false ∧ c ≠ 0 := by
  simp [inToken]

theorem nul_notMem_takeWhile (delim : UInt8 → Bool) (t : Text) : 0 ∉ t.takeWhile (inToken delim) :=
  fun h => (inToken_iff.1 (List.mem_takeWhile_imp h)).2 rfl

theorem tokens_token {ds w : Text} (hds : ∀ d ∈ ds, delim d = true) (hne : w ≠ [])
    (hw : ∀ c ∈ w, inToken delim c = true) : tokens delim (ds ++ w) = [w] := by
  rw [tokens_delims hds, tokens_word hne fun c hc => (inToken_iff.1 (hw c hc)).1]

/-- A token is in front of what the next call starts from. -/
theorem tokens_cut_token {ds w v : Text} {d : UInt8} (hds : ∀ d ∈ ds, delim d = true)
    (hds0 : 0 ∉ ds) (hne : w ≠ []) (hw : ∀ c ∈ w, inToken delim c = true)
    (hd : inToken delim d = false) : tokens delim (cut (ds ++ (w ++ d :: v))) =
      w :: tokens delim (cut (if d = 0 then d :: v else v)) := by
  have hw0 : 0 ∉ ds ++ w := by
    intro h
    rcases List.mem_append.1 h with h | h
    · exact hds0 h
    · exact (inToken_iff.1 (hw 0 h)).2 rfl
  rw [← List.append_assoc]
  split_ifs with hd0
  · rw [hd0, cut_append_nul hw0, tokens_token hds hne hw]
    rfl
  · have hdelim : delim d = true := by
      by_contra hnot
      have := inToken_iff.2 ⟨Bool.eq_false_of_not_eq_true hnot, hd0⟩
      simp [hd] at this
    have hcut : cut (d :: v) = d :: cut v := by
      simp [cut, hd0]
    rw [cut_append hw0, hcut, tokens_append_cons hdelim, tokens_token hds hne hw]
    rfl

/-- What `nextToken` says about a string. -/
theorem nextToken_cases (h0 : delim 0 = false) (t : Text) :
    (nextToken delim t = none ∧ 0 ∉ t) ∨
      (∃ u, nextToken delim t = some (none, u) ∧ 0 ∈ t ∧ tokens delim (cut t) = []) ∨
      ∃ w u, nextToken delim t = some (some w, u) ∧ u.length < t.length ∧ (0 ∈ t ↔ 0 ∈ u) ∧
        tokens delim (cut t) = w :: tokens delim (cut u) := by
  have hds : ∀ d ∈ t.takeWhile delim, delim d = true := fun d hd => List.mem_takeWhile_imp hd
  have hds0 : 0 ∉ t.takeWhile delim := by
    intro h
    have := hds 0 h
    simp [h0] at this
  have ht := List.takeWhile_append_dropWhile (p := delim) (l := t)
  generalize t.takeWhile delim = ds at *
  unfold nextToken
  rcases hu : t.dropWhile delim with _ | ⟨c, u⟩
  · refine .inl ⟨rfl, ?_⟩
    rw [hu, List.append_nil] at ht
    rwa [← ht]
  rw [hu] at ht
  have hc : delim c = false := by
    have := List.head_dropWhile_not delim (l := t) (by simp [hu])
    simpa [hu] using this
  by_cases hc0 : c = 0
  · subst hc0
    refine .inr (.inl ⟨_, if_pos rfl, by rw [← ht]; simp, ?_⟩)
    rw [← ht, cut_append_nul hds0, ← List.append_nil ds, tokens_delims hds]
    rfl
  have hw : ∀ e ∈ (c :: u).takeWhile (inToken delim), inToken delim e = true :=
    fun e he => List.mem_takeWhile_imp he
  have hne : (c :: u).takeWhile (inToken delim) ≠ [] := by
    simp [inToken_iff.2 ⟨hc, hc0⟩]
  have hword := List.takeWhile_append_dropWhile (p := inToken delim) (l := c :: u)
  have hw0 := nul_notMem_takeWhile delim (c :: u)
  simp only [if_neg hc0]
  generalize (c :: u).takeWhile (inToken delim) = w at *
  rcases hv : (c :: u).dropWhile (inToken delim) with _ | ⟨d, v⟩
  · refine .inl ⟨rfl, ?_⟩
    rw [hv, List.append_nil] at hword
    rw [← ht, ← hword, List.mem_append]
    exact fun h => h.elim hds0 hw0
  have hd : inToken delim d = false := by
    have := List.head_dropWhile_not (inToken delim) (l := c :: u) (by simp [hv])
    simpa [hv] using this
  rw [hv] at hword
  refine .inr (.inr ⟨w, _, rfl, ?_, ?_, ?_⟩)
  · have hpos := List.length_pos_iff.2 hne
    rw [← ht, ← hword]
    split_ifs <;> simp <;> omega
  · rw [← ht, ← hword]
    by_cases hd0 : d = 0
    · simp [hd0]
    · simp [hd0, hds0, hw0, Ne.symm hd0]
  · rw [← ht, ← hword, tokens_cut_token hds hds0 hne hw hd]

/-! ### `strtok` in the buffer -/

theorem drop_strspn (p : UInt8 → Bool) (buf : Text) (k : ℕ) :
    buf.drop (k + strspn p buf k) = (buf.drop k).dropWhile p := by
  rw [strspn, ← List.drop_drop]
  nth_rewrite 2 [← List.takeWhile_append_dropWhile (p := p) (l := buf.drop k)]
  exact List.drop_left

theorem stringAt_eq {buf w v : Text} {k : ℕ} (h : buf.drop k = w ++ 0 :: v) (hw : 0 ∉ w) :
    stringAt buf k = some w := by
  rw [stringAt, h, if_pos (by simp), cut_append_nul hw]

/-- The string at a token after its end is marked. -/
theorem stringAt_set {buf w v : Text} {k : ℕ} {d : UInt8} (h : buf.drop k = w ++ d :: v)
    (hw : 0 ∉ w) : stringAt (buf.set (k + w.length) 0) k = some w := by
  refine stringAt_eq (v := v) ?_ hw
  rw [List.drop_set, if_neg (by omega), h, Nat.add_sub_cancel_left]
  simp

/-- What a call of `strtok` finds in the buffer is what `nextToken` finds in the text. -/
theorem strtok_spec (delim : UInt8 → Bool) (buf : Text) (s : ℕ) :
    match nextToken delim (buf.drop s) with
    | none => strtok delim buf s = none
    | some (none, _) => ∃ s', strtok delim buf s = some (none, buf, s')
    | some (some w, u) => ∃ k buf' s', strtok delim buf s = some (some k, buf', s') ∧
        stringAt buf' k = some w ∧ buf'.drop s' = u := by
  have hstart := drop_strspn delim buf s
  generalize hk : s + strspn delim buf s = k at hstart
  have hfirst : buf[k]? = ((buf.drop s).dropWhile delim).head? := by
    rw [← hstart, List.head?_drop]
  rcases hu : (buf.drop s).dropWhile delim with _ | ⟨c, u⟩
  · simp [nextToken, strtok, hk, hfirst, hu]
  rw [hu] at hstart hfirst
  by_cases hc : c = 0
  · simp [nextToken, strtok, hk, hfirst, hu, hc]
  have hstop := drop_strspn (inToken delim) buf k
  rw [hstart] at hstop
  have hj : k + strspn (inToken delim) buf k = k + ((c :: u).takeWhile (inToken delim)).length := by
    rw [strspn, hstart]
  have hlast : buf[k + strspn (inToken delim) buf k]? =
      ((c :: u).dropWhile (inToken delim)).head? := by
    rw [← hstop, List.head?_drop]
  have hword := List.takeWhile_append_dropWhile (p := inToken delim) (l := c :: u)
  have hw0 := nul_notMem_takeWhile delim (c :: u)
  rcases hv : (c :: u).dropWhile (inToken delim) with _ | ⟨d, v⟩
  · rw [hv] at hlast
    simp [nextToken, strtok, hk, hfirst, hu, hc, hv, hlast]
  rw [hv] at hlast hstop hword
  rw [← hword] at hstart
  by_cases hd : d = 0
  · subst hd
    have hnext : nextToken delim (buf.drop s) =
        some (some ((c :: u).takeWhile (inToken delim)), 0 :: v) := by
      simp [nextToken, hu, hc, hv]
    have htok : strtok delim buf s =
        some (some k, buf, k + strspn (inToken delim) buf k) := by
      simp [strtok, hk, hfirst, hc, hlast]
    rw [hnext]
    exact ⟨k, buf, _, htok, stringAt_eq hstart hw0, hstop⟩
  · have hnext : nextToken delim (buf.drop s) =
        some (some ((c :: u).takeWhile (inToken delim)), v) := by
      simp [nextToken, hu, hc, hv, hd]
    have htok : strtok delim buf s = some (some k, buf.set (k + strspn (inToken delim) buf k) 0,
        k + strspn (inToken delim) buf k + 1) := by
      simp [strtok, hk, hfirst, hc, hlast, hd]
    rw [hnext]
    refine ⟨k, _, _, htok, ?_, ?_⟩
    · rw [hj]
      exact stringAt_set hstart hw0
    · rw [List.drop_set, if_pos (by omega), ← List.drop_drop, hstop]
      rfl

end SchoolProjects.CString
