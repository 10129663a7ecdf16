import SchoolProjects.Vision.Chart

/-! The provisional labels of a picture and the calls to the union-find structure that
`setLabel` makes on the way. Neither depends on that structure: an image that is used
again gets the labels and makes the calls of a new one. -/

namespace SchoolProjects.Vision

open UnionFind

/-- Labels given so far, the last number taken, and the calls made. -/
structure Provisional where
  label : Pixel → ℤ
  count : ℤ
  calls : List Call

namespace Provisional

def start : Provisional := ⟨fun _ => -1, 0, []⟩

/-! ### One pixel -/

/-- The label above a pixel. -/
def top (label : Pixel → ℤ) : Pixel → ℤ
  | (0, _) => -1
  | (i + 1, j) => label (i, j)

/-- The label to the left of a pixel. -/
def left (label : Pixel → ℤ) : Pixel → ℤ
  | (_, 0) => -1
  | (i, j + 1) => label (i, j)

/-- The label above a pixel to the left. -/
def diag (label : Pixel → ℤ) : Pixel → ℤ
  | (i + 1, j + 1) => label (i, j)
  | _ => -1

/-- The label of a lit pixel, the last number taken afterwards, and the calls made. -/
def give (count top left diag : ℤ) : ℤ × ℤ × List Call :=
  if top + left + diag = -3 then (count + 1, count + 1, [.find (count + 1)])
  else if diag > 0 then (diag, count, [])
  else if top + diag = -2 then (left, count, [])
  else if left + diag = -2 then (top, count, [])
  else if left ≠ top then (left, count, [.Union left top])
  else (-1, count, [])

/-- What `setLabel` gives a pixel. The top left corner takes one number more. -/
def given (lit : Prop) [Decidable lit] (label : Pixel → ℤ) (count : ℤ) (p : Pixel) :
    ℤ × ℤ × List Call :=
  if lit then
    give (if p = (0, 0) then count + 1 else count) (top label p) (left label p) (diag label p)
  else (-1, count, [])

def step (lit : Pixel → Prop) [DecidablePred lit] (v : Provisional) (p : Pixel) : Provisional :=
  let g := given (lit p) v.label v.count p
  ⟨Function.update v.label p g.1, g.2.1, v.calls ++ g.2.2⟩

theorem step_label (lit : Pixel → Prop) [DecidablePred lit] (v : Provisional) (p : Pixel) :
    (v.step lit p).label = Function.update v.label p (given (lit p) v.label v.count p).1 := rfl

/-- The labels after the pixels `done`. -/
def upTo (lit : Pixel → Prop) [DecidablePred lit] (done : List Pixel) : Provisional :=
  done.foldl (step lit) start

theorem upTo_append (lit : Pixel → Prop) [DecidablePred lit] (done : List Pixel) (p : Pixel) :
    upTo lit (done ++ [p]) = (upTo lit done).step lit p := by
  simp [upTo]

theorem give_count_le (count top left diag : ℤ) : (give count top left diag).2.1 ≤ count + 1 := by
  unfold give
  split_ifs <;> simp

/-- A pixel takes at most one number, and the top left corner two. -/
theorem upTo_count_le (lit : Pixel → Prop) [DecidablePred lit] {done : List Pixel}
    (hnodup : done.Nodup) :
    (upTo lit done).count ≤ done.length + if (0, 0) ∈ done then 1 else 0 := by
  induction done using List.reverseRecOn with
  | nil => simp [upTo, start]
  | append_singleton done p ih =>
    rw [← List.concat_eq_append, List.nodup_concat] at hnodup
    have hstep : ((upTo lit done).step lit p).count ≤
        (upTo lit done).count + 1 + if p = (0, 0) then 1 else 0 := by
      simp only [step, given]
      split_ifs with hlit hp
      · have := give_count_le ((upTo lit done).count + 1) (top (upTo lit done).label p)
          (left (upTo lit done).label p) (diag (upTo lit done).label p)
        omega
      · have := give_count_le (upTo lit done).count (top (upTo lit done).label p)
          (left (upTo lit done).label p) (diag (upTo lit done).label p)
        omega
      · dsimp only
        omega
      · dsimp only
        omega
    have hcorner : (if p = (0, 0) then 1 else 0) + (if (0, 0) ∈ done then 1 else 0) =
        if (0, 0) ∈ done ++ [p] then (1 : ℤ) else 0 := by
      by_cases hp : p = (0, 0)
      · subst hp
        simp [hnodup.1]
      · simp [hp, Ne.symm hp]
    have hle := ih hnodup.2
    rw [upTo_append, List.length_append, List.length_singleton, Nat.cast_add, Nat.cast_one]
    omega

end Provisional

/-! ### What `setLabel` does -/

namespace Image

open Provisional

variable {im : Image} {i j : ℕ} {g : ℤ}

theorem labelTop_eq (im : Image) (i j : ℕ) : im.labelTop i j = top im.label (i, j) := by
  cases i <;> rfl

theorem labelLeft_eq (im : Image) (i j : ℕ) : im.labelLeft i j = left im.label (i, j) := by
  cases j <;> rfl

theorem labelTopLeft_eq (im : Image) (i j : ℕ) : im.labelTopLeft i j = diag im.label (i, j) := by
  cases i <;> cases j <;> rfl

/-- The branches of `setLabel` for a lit pixel, after its first stores. -/
theorem assignLabel_give {count k₀ top left diag : ℤ} {uf : UnionFind}
    (hk₀ : top + left + diag = -3 ∨ k₀ = -1)
    (hcalls : (give count top left diag).2.2.foldlM call im.labelChart = some uf) :
    (im.assigned i j k₀ count im.labelChart).assignLabel i j top left diag =
      some (im.assigned i j (give count top left diag).1 (give count top left diag).2.1 uf) := by
  unfold give at hcalls ⊢
  unfold assignLabel
  split_ifs at hcalls ⊢ with hnew hdiag hleft htop hjoin
  · obtain ⟨r, hr, rfl⟩ : ∃ r, im.labelChart.find (count + 1) = some r ∧ r.2 = uf := by
      simpa [call] using hcalls
    simp [newLabel, assigned, putLabel, hr]
  · obtain rfl : im.labelChart = uf := by simpa using hcalls
    rw [assigned_putLabel]
  · obtain rfl : im.labelChart = uf := by simpa using hcalls
    rw [assigned_putLabel]
  · obtain rfl : im.labelChart = uf := by simpa using hcalls
    rw [assigned_putLabel]
  · obtain ⟨r, hr, rfl⟩ : ∃ r, im.labelChart.Union left top = some r ∧ r.2 = uf := by
      simpa [call] using hcalls
    simp [assigned, putLabel, hr]
  · obtain rfl : im.labelChart = uf := by simpa using hcalls
    rw [hk₀.resolve_left hnew]

/-- `setLabel` gives the pixel its label and makes the calls. -/
theorem setLabel_given (hi : i < im.num_rows) (hj : j < im.num_columns) {uf : UnionFind}
    (hcalls : (given (g = 255) im.label im.labelCount (i, j)).2.2.foldlM call im.labelChart =
      some uf) :
    im.setLabel i j g = some (im.assigned i j (given (g = 255) im.label im.labelCount (i, j)).1
      (given (g = 255) im.label im.labelCount (i, j)).2.1 uf) := by
  have hin : ¬ (im.num_rows ≤ i ∨ im.num_columns ≤ j) := by omega
  rw [setLabel, if_neg hin]
  by_cases hg : g = 255
  · set corner : Prop := (i, j) = ((0, 0) : Pixel) with hcorner
    have hclear : im.clearLabel i j g = im.assigned i j
        (if corner then im.labelCount + 1 else -1)
        (if corner then im.labelCount + 1 else im.labelCount) im.labelChart := by
      unfold clearLabel
      by_cases hc : i = 0 ∧ j = 0
      · simp [hcorner, hc, hg, newLabel, putLabel, assigned]
      · simp [hcorner, hc, assigned]
    obtain ⟨htop, hleft, hdiag⟩ := neighbours_assigned im i j
      (if corner then im.labelCount + 1 else -1)
      (if corner then im.labelCount + 1 else im.labelCount) im.labelChart
    -- in the corner no label is read, so the branch for a new item is taken
    have hk₀ : top im.label (i, j) + left im.label (i, j) + diag im.label (i, j) = -3 ∨
        (if corner then im.labelCount + 1 else -1) = -1 := by
      by_cases hc : corner
      · obtain ⟨rfl, rfl⟩ := Prod.mk.inj hc
        exact Or.inl rfl
      · exact Or.inr (if_neg hc)
    simp only [given, if_pos hg] at hcalls ⊢
    rw [hclear, htop, hleft, hdiag, labelTop_eq, labelLeft_eq, labelTopLeft_eq]
    exact assignLabel_give hk₀ hcalls
  · have hclear : im.clearLabel i j g = im.putLabel i j (-1) := by
      simp [clearLabel, hg, putLabel]
    obtain rfl : im.labelChart = uf := by simpa [given, hg] using hcalls
    simp only [given, if_neg hg, hclear, putLabel_putLabel]
    rfl

/-- Only the labels of the neighbours are read. -/
theorem given_congr {lit : Prop} [Decidable lit] {label label' : Pixel → ℤ} {p : Pixel}
    (h : ∀ q, Adjacent q p → label q = label' q) (count : ℤ) :
    given lit label count p = given lit label' count p := by
  have htop : top label p = top label' p := by
    obtain ⟨i, j⟩ := p
    cases i with
    | zero => rfl
    | succ i => exact h (i, j) (Or.inr (Or.inl ⟨rfl, rfl⟩))
  have hleft : left label p = left label' p := by
    obtain ⟨i, j⟩ := p
    cases j with
    | zero => rfl
    | succ j => exact h (i, j) (Or.inl ⟨rfl, rfl⟩)
  have hdiag : diag label p = diag label' p := by
    obtain ⟨i, j⟩ := p
    cases i with
    | zero => rfl
    | succ i =>
      cases j with
      | zero => rfl
      | succ j => exact h (i, j) (Or.inr (Or.inr ⟨rfl, rfl⟩))
  simp only [given, htop, hleft, hdiag]

/-- The state of the pixel loop of `ReadImage` after the pixels `done`, started with the
structure `uf₀`. -/
structure Follows (rows cols : ℕ) (bytes : List UInt8) (uf₀ : UnionFind) (done : List Pixel)
    (im : Image) : Prop where
  num_rows : im.num_rows = rows
  num_columns : im.num_columns = cols
  pixels : ∀ p ∈ done, im.pixels p.1 p.2 = (pixelByte cols bytes p).toNat
  label : ∀ p ∈ done, im.label p = (upTo (Lit rows cols bytes) done).label p
  count : im.labelCount = (upTo (Lit rows cols bytes) done).count
  calls : (upTo (Lit rows cols bytes) done).calls.foldlM call uf₀ = some im.labelChart
  sane : im.labelChart.Sane

section Loop

variable {rows cols : ℕ} {bytes : List UInt8} {uf₀ : UnionFind} {done rest : List Pixel}
  {p : Pixel} {int : ℤ → ℤ}

/-- One pixel of the loop. -/
theorem Follows.step (hscan : scan rows cols = done ++ p :: rest) {byte : UInt8}
    (hbyte : bytes[done.length]? = some byte) (h : Follows rows cols bytes uf₀ done im) :
    ∃ im', im.readPixel true p byte int = some im' ∧
      Follows rows cols bytes uf₀ (done ++ [p]) im' := by
  obtain ⟨hi, hj⟩ := pixel_mem hscan
  have hp := not_mem_done hscan
  have hb := pixelByte_of_scan hscan hbyte
  have hlit : ((byte.toNat : ℤ) = 255) ↔ Lit rows cols bytes p := by
    rw [byte_eq_255, Lit, hb]
    simp [hi, hj]
  have hgiven : given ((byte.toNat : ℤ) = 255) im.label im.labelCount p =
      given (Lit rows cols bytes p) (upTo (Lit rows cols bytes) done).label
        (upTo (Lit rows cols bytes) done).count p := by
    rw [h.count, given_congr fun q hq => h.label q (adjacent_done hscan hq)]
    simp only [given, hlit]
  obtain ⟨uf, hcalls, hs⟩ := calls_sane h.sane
    (given ((byte.toNat : ℤ) = 255) im.label im.labelCount p).2.2
  have hset : (im.withPixel p.1 p.2 byte.toNat).setLabel p.1 p.2 byte.toNat =
      some ((im.withPixel p.1 p.2 byte.toNat).assigned p.1 p.2
        (given ((byte.toNat : ℤ) = 255) im.label im.labelCount p).1
        (given ((byte.toNat : ℤ) = 255) im.label im.labelCount p).2.1 uf) :=
    setLabel_given (h.num_rows.symm ▸ hi) (h.num_columns.symm ▸ hj) hcalls
  rw [hgiven] at hset hcalls
  obtain ⟨im', hread, hrows, hcols, hpix, hlab, hcnt, hchart⟩ :=
    readPixel_eq (h.num_rows ▸ hi) (h.num_columns ▸ hj) hset
  refine ⟨im', hread, hrows.trans h.num_rows, hcols.trans h.num_columns, fun q hq => ?_,
    fun q hq => ?_, ?_, ?_, hchart ▸ hs⟩
  · rw [hpix]
    exact pixels_step hscan hbyte h.pixels q hq
  · rw [hlab, upTo_append, step_label]
    rcases List.mem_append.mp hq with hq | hq
    · rw [update_of_mem hp hq, h.label q hq]
      exact (update_of_mem hp hq _).symm
    · rw [List.mem_singleton.mp hq, Function.update_self, Function.update_self]
  · rw [hcnt, upTo_append]
    rfl
  · rw [upTo_append, hchart]
    simp only [Provisional.step, List.foldlM_append, h.calls]
    exact hcalls

/-- Reading a picture with labels into an image whose structure is sane. -/
theorem readPixels_follows {im₀ : Image} (hrows : im₀.num_rows = rows)
    (hcols : im₀.num_columns = cols) (hcount : im₀.labelCount = 0) (hs : im₀.labelChart.Sane)
    (hlen : rows * cols ≤ bytes.length) :
    ∃ im, readPixels true (scan rows cols) bytes im₀ int = some (true, im) ∧
      Follows rows cols bytes im₀.labelChart (scan rows cols) im := by
  refine readPixels_loop (Follows rows cols bytes im₀.labelChart) ?_ (by rwa [length_scan])
    fun done p rest im byte hscan hbyte h => h.step hscan hbyte
  exact ⟨hrows, hcols, by simp, by simp, hcount, rfl, hs⟩

/-- No more provisional labels are given than there are pixels, and one. -/
theorem labelCount_le {memory : ℕ → ℕ → ℤ} {im : Image} (hlen : rows * cols ≤ bytes.length)
    (h : ReadImage memory rows cols true bytes int = some (true, im)) :
    im.labelCount ≤ rows * cols + 1 := by
  obtain ⟨im', hread, hfollows⟩ : ∃ im', ReadImage memory rows cols true bytes int =
      some (true, im') ∧ Follows rows cols bytes .empty (scan rows cols) im' :=
    readPixels_follows rfl rfl rfl empty_sane hlen
  obtain rfl : im' = im := by simpa using hread.symm.trans h
  have hle := upTo_count_le (Lit rows cols bytes) (nodup_scan rows cols)
  rw [← hfollows.count, length_scan] at hle
  split_ifs at hle <;> push_cast at hle <;> omega

end Loop

end Image

/-! ### Which labels are given -/

namespace Provisional

/-- The calls `find first, find (first + 1), ...` up to, not including, `next`, with
`Union` of numbers found before. -/
inductive Orderly (first : ℤ) : ℤ → List Call → Prop
  | nil : Orderly first first []
  | find {next : ℤ} {qs : List Call} :
      Orderly first next qs → Orderly first (next + 1) (qs ++ [.find next])
  | union {next a b : ℤ} {qs : List Call} : Orderly first next qs → first ≤ a → a < next →
      first ≤ b → b < next → Orderly first next (qs ++ [.Union a b])

theorem Orderly.le {first next : ℤ} {qs : List Call} (h : Orderly first next qs) :
    first ≤ next := by
  induction h with
  | nil => exact le_rfl
  | find _ ih => omega
  | union _ _ _ _ _ ih => exact ih

section Numbers

variable {lit : Pixel → Prop} [DecidablePred lit] {rows cols : ℕ} {done rest : List Pixel}
  {p : Pixel}

/-- The first number of a picture: a lit corner takes two. -/
def first (lit : Pixel → Prop) [DecidablePred lit] : ℤ := if lit (0, 0) then 2 else 1

/-- The labels given to the pixels `done` are the numbers from `first` up to, not
including, `next`. -/
structure Numbers (lit : Pixel → Prop) [DecidablePred lit] (next : ℤ) (done : List Pixel)
    (v : Provisional) : Prop where
  orderly : Orderly (first lit) next v.calls
  count : (done = [] ∧ v.count = 0 ∧ next = first lit) ∨ (done ≠ [] ∧ v.count + 1 = next)
  shape : ∀ p ∈ done, v.label p = -1 ∨ (lit p ∧ first lit ≤ v.label p ∧ v.label p < next)
  used : ∀ k, first lit ≤ k → k < next → ∃ p ∈ done, v.label p = k
  none : next = first lit → ∀ p ∈ done, ¬ lit p

theorem first_cases (lit : Pixel → Prop) [DecidablePred lit] :
    first lit = 1 ∨ first lit = 2 := by
  unfold first
  split_ifs <;> simp

theorem first_pos (lit : Pixel → Prop) [DecidablePred lit] : 1 ≤ first lit := by
  rcases first_cases lit with h | h <;> omega

/-- The labels of the neighbours of a pixel. -/
theorem neighbour_mem (P : ℤ → Prop) (h0 : P (-1)) {label : Pixel → ℤ}
    (h : ∀ q, Adjacent q p → P (label q)) :
    P (top label p) ∧ P (left label p) ∧ P (diag label p) := by
  obtain ⟨i, j⟩ := p
  refine ⟨?_, ?_, ?_⟩
  · cases i with
    | zero => exact h0
    | succ i => exact h (i, j) (Or.inr (Or.inl ⟨rfl, rfl⟩))
  · cases j with
    | zero => exact h0
    | succ j => exact h (i, j) (Or.inl ⟨rfl, rfl⟩)
  · cases i with
    | zero => exact h0
    | succ i =>
      cases j with
      | zero => exact h0
      | succ j => exact h (i, j) (Or.inr (Or.inr ⟨rfl, rfl⟩))

/-- The loop begins in the corner. -/
theorem corner_iff (hscan : Image.scan rows cols = done ++ p :: rest) :
    p = (0, 0) ↔ done = [] := by
  have hlen := Image.length_done hscan
  have hj := (Image.pixel_mem hscan).2
  obtain ⟨i, j⟩ := p
  constructor
  · intro h
    obtain ⟨rfl, rfl⟩ := Prod.mk.inj h
    simpa using hlen
  · rintro rfl
    have h0 : i * cols = 0 ∧ j = 0 := by simpa [eq_comm] using hlen
    have hi : i = 0 := (Nat.mul_eq_zero.mp h0.1).resolve_right (by omega)
    rw [hi, h0.2]

/-- A pixel that gets a label in use, or none. -/
theorem Numbers.keep {v : Provisional} {next k count : ℤ} {qs : List Call}
    (h : Numbers lit next done v) (hp : p ∉ done) (hqs : Orderly (first lit) next (v.calls ++ qs))
    (hcount : count + 1 = next)
    (hk : k = -1 ∧ ¬ lit p ∨ k = -1 ∧ first lit < next ∨
      lit p ∧ first lit ≤ k ∧ k < next) :
    Numbers lit next (done ++ [p]) ⟨Function.update v.label p k, count, v.calls ++ qs⟩ where
  orderly := hqs
  count := Or.inr ⟨by simp, hcount⟩
  shape q hq := by
    rcases List.mem_append.mp hq with hq | hq
    · change Function.update v.label p k q = _ ∨ _
      simp only [update_of_mem hp hq]
      exact h.shape q hq
    · rw [List.mem_singleton.mp hq]
      simp only [Function.update_self]
      tauto
  used x h1 h2 := by
    obtain ⟨q, hq, hx⟩ := h.used x h1 h2
    exact ⟨q, by simp [hq], by simp only [update_of_mem hp hq, hx]⟩
  none hnext q hq := by
    rcases List.mem_append.mp hq with hq | hq
    · exact h.none hnext q hq
    · rw [List.mem_singleton.mp hq]
      rcases hk with ⟨-, hk⟩ | ⟨-, hk⟩ | ⟨-, h1, h2⟩
      · exact hk
      · omega
      · omega

/-- A lit pixel that gets a new number. -/
theorem Numbers.fresh {v : Provisional} {next : ℤ} (h : Numbers lit next done v) (hp : p ∉ done)
    (hlit : lit p) : Numbers lit (next + 1) (done ++ [p])
      ⟨Function.update v.label p next, next, v.calls ++ [.find next]⟩ where
  orderly := h.orderly.find
  count := Or.inr ⟨by simp, rfl⟩
  shape q hq := by
    rcases List.mem_append.mp hq with hq | hq
    · simp only [update_of_mem hp hq]
      exact (h.shape q hq).imp id fun ⟨hl, h1, h2⟩ => ⟨hl, h1, by omega⟩
    · rw [List.mem_singleton.mp hq]
      simp only [Function.update_self]
      exact Or.inr ⟨hlit, h.orderly.le, by omega⟩
  used k h1 h2 := by
    by_cases hk : k = next
    · exact ⟨p, by simp, by simp [hk]⟩
    · obtain ⟨q, hq, hx⟩ := h.used k h1 (by omega)
      exact ⟨q, by simp [hq], by simp only [update_of_mem hp hq, hx]⟩
  none hnext := by
    have := h.orderly.le
    omega

/-- One pixel of a picture. -/
theorem Numbers.step (hscan : Image.scan rows cols = done ++ p :: rest) {v : Provisional}
    {next : ℤ} (h : Numbers lit next done v) :
    ∃ next', Numbers lit next' (done ++ [p]) (v.step lit p) := by
  have hp := Image.not_mem_done hscan
  have hcorner := corner_iff hscan
  unfold Provisional.step given
  by_cases hlit : lit p
  · rw [if_pos hlit]
    have hcount : (if p = (0, 0) then v.count + 1 else v.count) + 1 = next := by
      rcases h.count with ⟨hd, hc, hn⟩ | ⟨hd, hc⟩
      · obtain rfl := hcorner.mpr hd
        simp [hn, hc, first, hlit]
      · rw [if_neg (mt hcorner.mp hd), hc]
    generalize (if p = (0, 0) then v.count + 1 else v.count) = count at hcount ⊢
    obtain ⟨htop, hleft, hdiag⟩ := neighbour_mem
      (fun x => x = -1 ∨ (first lit ≤ x ∧ x < next)) (Or.inl rfl) fun q hq =>
        (h.shape q (Image.adjacent_done hscan hq)).imp id And.right
    have h1 := first_pos lit
    have hqs : Orderly (first lit) next (v.calls ++ []) := by simpa using h.orderly
    generalize top v.label p = t, left v.label p = l, diag v.label p = d at htop hleft hdiag ⊢
    unfold give
    split_ifs with hnew hd ht hl hlt
    · exact ⟨next + 1, by simpa [hcount] using h.fresh hp hlit⟩
    · exact ⟨next, h.keep hp hqs hcount (Or.inr (Or.inr ⟨hlit, by omega, by omega⟩))⟩
    · exact ⟨next, h.keep hp hqs hcount (Or.inr (Or.inr ⟨hlit, by omega, by omega⟩))⟩
    · exact ⟨next, h.keep hp hqs hcount (Or.inr (Or.inr ⟨hlit, by omega, by omega⟩))⟩
    · exact ⟨next, h.keep hp (h.orderly.union (by omega) (by omega) (by omega) (by omega)) hcount
        (Or.inr (Or.inr ⟨hlit, by omega, by omega⟩))⟩
    · exact ⟨next, h.keep hp hqs hcount (Or.inr (Or.inl ⟨rfl, by omega⟩))⟩
  · rw [if_neg hlit]
    refine ⟨next, h.keep hp (by simpa using h.orderly) ?_ (Or.inl ⟨rfl, hlit⟩)⟩
    rcases h.count with ⟨hd, hc, hn⟩ | ⟨-, hc⟩
    · obtain rfl := hcorner.mpr hd
      simp [hn, hc, first, hlit]
    · exact hc

/-- The numbers of a picture. -/
theorem numbers_scan (lit : Pixel → Prop) [DecidablePred lit] (rows cols : ℕ) :
    ∃ next, Numbers lit next (Image.scan rows cols) (upTo lit (Image.scan rows cols)) := by
  refine Image.prefix_induction (fun done => ∃ next, Numbers lit next done (upTo lit done)) ?_ ?_
  · exact ⟨first lit, .nil, Or.inl ⟨rfl, rfl, rfl⟩, by simp, by omega, by simp⟩
  · rintro done p rest hscan ⟨next, h⟩
    rw [upTo_append]
    exact h.step hscan

/-- A lit pixel after neighbours that all have the number 2. -/
theorem given_two {lit : Prop} [Decidable lit] {label : Pixel → ℤ} (hlit : lit)
    (hcorner : p ≠ (0, 0)) (hread : ∀ q, Adjacent q p → label q = 2) :
    given lit label 2 p = (2, 2, []) := by
  rw [given, if_pos hlit, if_neg hcorner]
  obtain ⟨i, j⟩ := p
  cases i with
  | zero =>
    cases j with
    | zero => exact absurd rfl hcorner
    | succ j =>
      have hl : left label (0, j + 1) = 2 := hread (0, j) (Or.inl ⟨rfl, rfl⟩)
      rw [hl]
      rfl
  | succ i =>
    have ht : top label (i + 1, j) = 2 := hread (i, j) (Or.inr (Or.inl ⟨rfl, rfl⟩))
    cases j with
    | zero =>
      rw [ht]
      rfl
    | succ j =>
      have hl : left label (i + 1, j + 1) = 2 := hread (i + 1, j) (Or.inl ⟨rfl, rfl⟩)
      have hd : diag label (i + 1, j + 1) = 2 := hread (i, j) (Or.inr (Or.inr ⟨rfl, rfl⟩))
      rw [ht, hl, hd]
      rfl

/-- A picture with lit pixels only has one number, 2, taken in the corner. -/
theorem upTo_full (hlit : ∀ p ∈ Image.scan rows cols, lit p) :
    Image.scan rows cols ≠ [] →
      (upTo lit (Image.scan rows cols)).calls = [.find 2] ∧
      (upTo lit (Image.scan rows cols)).count = 2 ∧
      ∀ p ∈ Image.scan rows cols, (upTo lit (Image.scan rows cols)).label p = 2 := by
  refine Image.prefix_induction (fun done => done ≠ [] →
    (upTo lit done).calls = [.find 2] ∧ (upTo lit done).count = 2 ∧
      ∀ p ∈ done, (upTo lit done).label p = 2) (by simp) fun done p rest hscan ih _ => ?_
  have hp := Image.not_mem_done hscan
  have hcorner := corner_iff hscan
  have hlit' : lit p := hlit p (by simp [hscan])
  have hgiven : given (lit p) (upTo lit done).label (upTo lit done).count p =
      (2, 2, if done = [] then [.find 2] else []) := by
    by_cases hd : done = []
    · obtain rfl := hcorner.mpr hd
      subst hd
      rw [given, if_pos hlit']
      rfl
    · obtain ⟨-, hc, hlab⟩ := ih hd
      rw [hc, if_neg hd]
      exact given_two hlit' (mt hcorner.mp hd) fun q hq => hlab q (Image.adjacent_done hscan hq)
  rw [upTo_append]
  unfold Provisional.step
  rw [hgiven]
  by_cases hd : done = []
  · subst hd
    exact ⟨rfl, rfl, by simp⟩
  · obtain ⟨hcalls, -, hlab⟩ := ih hd
    refine ⟨by simp [hd, hcalls], rfl, fun q hq => ?_⟩
    rcases List.mem_append.mp hq with hq | hq
    · simp only [update_of_mem hp hq, hlab q hq]
    · rw [List.mem_singleton.mp hq]
      simp only [Function.update_self]

end Numbers

end Provisional

end SchoolProjects.Vision
