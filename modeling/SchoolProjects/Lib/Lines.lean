import SchoolProjects.Lib.Text

/-! What successive calls of `fgets` read from a file. The buffer cuts a long line into
pieces, so a file is a list of pieces: each ends with a newline, or fills the buffer, or
is the last. A file made of whole lines is cut where a longer file that begins with it
is cut. -/

namespace SchoolProjects.Text

theorem takeLine_append (n : ℕ) (t : Text) : (takeLine n t).1 ++ (takeLine n t).2 = t := by
  induction n generalizing t with
  | zero => rfl
  | succ n ih =>
    cases t with
    | nil => rfl
    | cons c t =>
      unfold takeLine
      split_ifs with hc
      · rw [hc]; rfl
      · exact congrArg (List.cons c) (ih t)

theorem takeLine_ne_nil {n : ℕ} {t : Text} (ht : t ≠ []) : (takeLine (n + 1) t).1 ≠ [] := by
  obtain ⟨c, t, rfl⟩ := List.exists_cons_of_ne_nil ht
  unfold takeLine
  split_ifs <;> simp

theorem length_takeLine {n : ℕ} {t : Text} (ht : t ≠ []) :
    (takeLine (n + 1) t).2.length < t.length := by
  have hlen := congrArg List.length (takeLine_append (n + 1) t)
  have hpos := List.length_pos_iff.mpr (takeLine_ne_nil (n := n) ht)
  rw [List.length_append] at hlen
  omega

/-- The pieces of a file that `fgets` reads with a buffer of `room + 2` bytes. -/
def pieces (room : ℕ) (t : Text) : List Text :=
  if h : t = [] then []
  else
    have : (takeLine (room + 1) t).2.length < t.length := length_takeLine h
    (takeLine (room + 1) t).1 :: pieces room (takeLine (room + 1) t).2
termination_by t.length

variable {room : ℕ} {t u : Text}

@[simp] theorem pieces_nil : pieces room [] = [] := by
  rw [pieces, dif_pos rfl]

theorem pieces_of_ne_nil (ht : t ≠ []) :
    pieces room t = (takeLine (room + 1) t).1 :: pieces room (takeLine (room + 1) t).2 := by
  rw [pieces, dif_neg ht]

theorem pieces_eq_nil : pieces room t = [] ↔ t = [] := by
  constructor
  · intro h
    by_contra ht
    rw [pieces_of_ne_nil ht] at h
    cases h
  · rintro rfl
    exact pieces_nil

theorem flatten_pieces (room : ℕ) (t : Text) : (pieces room t).flatten = t := by
  by_cases ht : t = []
  · rw [ht, pieces_nil]; rfl
  · have := length_takeLine (n := room) ht
    rw [pieces_of_ne_nil ht, List.flatten_cons, flatten_pieces room _, takeLine_append]
termination_by t.length

/-- `fgets` reads the first piece, and leaves the text of the others. -/
theorem fgets_pieces {p : Text} {ps : List Text} (h : pieces room t = p :: ps) (line : Text) :
    fgets (room + 2) line t = (p, ps.flatten) ∧ pieces room ps.flatten = ps := by
  have ht : t ≠ [] := by
    rintro rfl
    simp at h
  rw [pieces_of_ne_nil ht] at h
  obtain ⟨rfl, rfl⟩ := List.cons.inj h
  rw [flatten_pieces]
  exact ⟨by rw [fgets, if_neg ht]; rfl, rfl⟩

/-- The text of the last pieces is cut into them. -/
theorem pieces_suffix {ps qs : List Text} (h : pieces room t = ps ++ qs) :
    pieces room qs.flatten = qs := by
  induction ps generalizing t with
  | nil =>
    rw [List.nil_append] at h
    rw [← h, flatten_pieces]
  | cons p ps ih => exact ih (fgets_pieces h []).2

theorem fgets_nil (size : ℕ) (line : Text) : fgets size line [] = (line, []) := by
  rw [fgets, if_pos rfl]

/-- A text of whole lines: it is empty or ends with a newline. -/
def Whole (t : Text) : Prop := ∀ c ∈ t.getLast?, c = 10

theorem Whole.tail {c : UInt8} (h : Whole (c :: t)) : Whole t := by
  intro d hd
  cases t with
  | nil => cases hd
  | cons e t => exact h d (by simpa [List.getLast?_cons_cons] using hd)

theorem whole_line (t : Text) : Whole (t ++ [10]) := by
  intro c hc
  simpa using hc.symm

theorem Whole.append (h : Whole t) (h' : Whole u) : Whole (t ++ u) := by
  intro c hc
  rw [List.getLast?_append] at hc
  cases hu : u.getLast? with
  | none =>
    rw [hu] at hc
    exact h c hc
  | some d =>
    rw [hu] at hc
    obtain rfl : d = c := by simpa using hc
    exact h' d hu

/-- A piece of a text of whole lines does not look past the text. -/
theorem takeLine_whole (n : ℕ) (hu : Whole u) (hne : u ≠ []) (t : Text) :
    takeLine n (u ++ t) = ((takeLine n u).1, (takeLine n u).2 ++ t) ∧ Whole (takeLine n u).2 := by
  induction n generalizing u with
  | zero => exact ⟨rfl, hu⟩
  | succ n ih =>
    obtain ⟨c, u, rfl⟩ := List.exists_cons_of_ne_nil hne
    by_cases hc : c = 10
    · simp only [List.cons_append, takeLine, if_pos hc]
      exact ⟨trivial, hu.tail⟩
    · have hne' : u ≠ [] := by
        rintro rfl
        exact hc (hu c rfl)
      obtain ⟨heq, hwhole⟩ := ih hu.tail hne'
      simp only [List.cons_append, takeLine, if_neg hc, heq]
      exact ⟨trivial, hwhole⟩

theorem pieces_append {u : Text} (hu : Whole u) (t : Text) :
    pieces room (u ++ t) = pieces room u ++ pieces room t := by
  by_cases hne : u = []
  · rw [hne]; simp
  · obtain ⟨heq, hwhole⟩ := takeLine_whole (room + 1) hu hne t
    have hlt := length_takeLine (n := room) hne
    rw [pieces_of_ne_nil (by simp [hne]), pieces_of_ne_nil hne, heq, pieces_append hwhole t]
    rfl
termination_by u.length

end SchoolProjects.Text
