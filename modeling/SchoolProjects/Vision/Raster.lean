import SchoolProjects.Vision.Image

/-! The row-by-row order of the pixels and the loops that follow it. When a pixel is
reached, the pixels before it are those above it and those to its left. -/

namespace SchoolProjects.Vision.Image

/-- Row by row, and within a row from left to right. -/
def Earlier (p q : ℕ × ℕ) : Prop := p.1 < q.1 ∨ (p.1 = q.1 ∧ p.2 < q.2)

theorem mem_scan {rows cols : ℕ} {p : ℕ × ℕ} : p ∈ scan rows cols ↔ p.1 < rows ∧ p.2 < cols := by
  obtain ⟨i, j⟩ := p
  simp [scan]

theorem scan_sorted (rows cols : ℕ) : (scan rows cols).Pairwise Earlier := by
  refine List.pairwise_flatMap.mpr ⟨fun i _ => ?_, ?_⟩
  · refine List.pairwise_map.mpr (List.pairwise_lt_range.imp fun {a b} h => ?_)
    exact Or.inr ⟨rfl, h⟩
  · refine List.pairwise_lt_range.imp fun {a b} h p hp q hq => ?_
    obtain ⟨_, -, rfl⟩ := List.mem_map.mp hp
    obtain ⟨_, -, rfl⟩ := List.mem_map.mp hq
    exact Or.inl h

theorem nodup_scan (rows cols : ℕ) : (scan rows cols).Nodup :=
  (scan_sorted rows cols).imp fun {p q} h hpq => by
    subst hpq
    unfold Earlier at h
    omega

/-- Row by row, the pixels are numbered from 0. -/
theorem scan_eq_map (rows cols : ℕ) :
    scan rows cols = (List.range (rows * cols)).map fun n => (n / cols, n % cols) := by
  induction rows with
  | zero => simp [scan]
  | succ rows ih =>
    have hscan : scan (rows + 1) cols =
        scan rows cols ++ (List.range cols).map fun j => (rows, j) := by
      simp [scan, List.range_succ]
    rw [hscan, ih, Nat.succ_mul, List.range_add, List.map_append, List.map_map]
    refine congrArg _ (List.map_congr_left fun j hj => ?_)
    have hj : j < cols := List.mem_range.mp hj
    have h0 : 0 < cols := by omega
    simp [Nat.mul_add_div h0, Nat.mul_comm rows cols, Nat.div_eq_of_lt hj, Nat.mod_eq_of_lt hj]

theorem length_scan (rows cols : ℕ) : (scan rows cols).length = rows * cols := by
  simp [scan_eq_map]

section Prefix

variable {rows cols : ℕ} {done rest : List (ℕ × ℕ)} {p q : ℕ × ℕ}

/-- What the loop has passed when it reaches `p`. -/
theorem mem_done (h : scan rows cols = done ++ p :: rest) :
    q ∈ done ↔ q.2 < cols ∧ Earlier q p := by
  have hsort := h ▸ scan_sorted rows cols
  obtain ⟨-, htail, hcross⟩ := List.pairwise_append.mp hsort
  have hp : p.1 < rows ∧ p.2 < cols := mem_scan.mp (by simp [h])
  constructor
  · intro hq
    have hqs : q ∈ scan rows cols := by simp [h, hq]
    exact ⟨(mem_scan.mp hqs).2, hcross q hq p (by simp)⟩
  · rintro ⟨hc, hlt⟩
    have hqs : q ∈ done ++ p :: rest := by
      rw [← h]
      refine mem_scan.mpr ⟨?_, hc⟩
      unfold Earlier at hlt
      omega
    rcases List.mem_append.mp hqs with hq | hq
    · exact hq
    · rcases List.mem_cons.mp hq with rfl | hq
      · unfold Earlier at hlt
        omega
      · have := (List.pairwise_cons.mp htail).1 q hq
        unfold Earlier at this hlt
        omega

theorem not_mem_done (h : scan rows cols = done ++ p :: rest) : p ∉ done := fun hp => by
  have := ((mem_done h).mp hp).2
  unfold Earlier at this
  omega

theorem pixel_mem (h : scan rows cols = done ++ p :: rest) : p.1 < rows ∧ p.2 < cols :=
  mem_scan.mp (by simp [h])

/-- The number of a pixel. -/
theorem length_done (h : scan rows cols = done ++ p :: rest) : done.length = p.1 * cols + p.2 := by
  have hp : (scan rows cols)[done.length]? = some p := by simp [h]
  rw [scan_eq_map, List.getElem?_map, Option.map_eq_some_iff] at hp
  obtain ⟨n, hn, rfl⟩ := hp
  have hn' : done.length = n := by
    rw [List.getElem?_eq_some_iff] at hn
    obtain ⟨_, hn⟩ := hn
    simpa using hn
  rw [hn', Nat.mul_comm, Nat.div_add_mod]

end Prefix

theorem scan_getElem? {rows cols : ℕ} {p : ℕ × ℕ} (h1 : p.1 < rows) (h2 : p.2 < cols) :
    (scan rows cols)[p.1 * cols + p.2]? = some p := by
  obtain ⟨l, r, h⟩ := List.append_of_mem (mem_scan.mpr ⟨h1, h2⟩)
  rw [← length_done h, h]
  simp

/-- What one pixel after the pixels `done` keeps holds after all pixels. -/
theorem prefix_induction {ps : List (ℕ × ℕ)} (P : List (ℕ × ℕ) → Prop) (h0 : P [])
    (hstep : ∀ done p rest, ps = done ++ p :: rest → P done → P (done ++ [p])) : P ps := by
  have hsuffix : ∀ rest done, ps = done ++ rest → P done → P ps := by
    intro rest
    induction rest with
    | nil => exact fun done hps hP => by simpa [hps] using hP
    | cons p rest ih =>
      exact fun done hps hP => ih (done ++ [p]) (by simp [hps]) (hstep done p rest hps hP)
  exact hsuffix ps [] rfl h0

/-- A loop over pixels, step by step. -/
theorem foldlM_loop (f : Image → ℕ × ℕ → Option Image) (ps : List (ℕ × ℕ))
    (P : List (ℕ × ℕ) → Image → Prop) {im : Image} (h0 : P [] im)
    (hstep : ∀ done p rest im, ps = done ++ p :: rest → P done im →
      ∃ im', f im p = some im' ∧ P (done ++ [p]) im') :
    ∃ im', ps.foldlM f im = some im' ∧ P ps im' := by
  refine prefix_induction (fun done => ∃ im', done.foldlM f im = some im' ∧ P done im')
    ⟨im, rfl, h0⟩ ?_
  rintro done p rest hps ⟨im₁, hrun, hP⟩
  obtain ⟨im', hf, hP'⟩ := hstep done p rest im₁ hps hP
  exact ⟨im', by simp [hrun, hf], hP'⟩

/-- The pixel loop of `ReadImage`, step by step. -/
theorem readPixels_loop {int : ℤ → ℤ} {p2Flag : Bool} {bytes : List UInt8}
    (P : List (ℕ × ℕ) → Image → Prop) {ps : List (ℕ × ℕ)} {im : Image} (h0 : P [] im)
    (hlen : ps.length ≤ bytes.length)
    (hstep : ∀ done p rest im byte, ps = done ++ p :: rest → bytes[done.length]? = some byte →
      P done im → ∃ im', im.readPixel p2Flag p byte int = some im' ∧ P (done ++ [p]) im') :
    ∃ im', readPixels p2Flag ps bytes im int = some (true, im') ∧ P ps im' := by
  have hsuffix : ∀ (rest done : List (ℕ × ℕ)) (im : Image), ps = done ++ rest → P done im →
      ∃ im', readPixels p2Flag rest (bytes.drop done.length) im int = some (true, im') ∧
        P ps im' := by
    intro rest
    induction rest with
    | nil =>
      rintro done im rfl hP
      exact ⟨im, by simp [readPixels], by simpa using hP⟩
    | cons p rest ih =>
      intro done im hps hP
      have hlt : done.length < bytes.length := by
        have := congrArg List.length hps
        simp only [List.length_append, List.length_cons] at this
        omega
      obtain ⟨im₁, hf, hP₁⟩ := hstep done p rest im _ hps (List.getElem?_eq_getElem hlt) hP
      obtain ⟨im', hrun, hP'⟩ := ih (done ++ [p]) im₁ (by simp [hps]) hP₁
      refine ⟨im', ?_, hP'⟩
      rw [List.drop_eq_getElem_cons hlt]
      simpa [readPixels, hf] using hrun
  simpa using hsuffix ps [] im rfl h0

end SchoolProjects.Vision.Image
