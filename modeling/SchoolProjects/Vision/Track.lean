import SchoolProjects.Lib.MachineInt
import SchoolProjects.Vision.Line

/-! The points that the scan of `DrawLine` passes through, in the `int` of the source. The
squares that tell the longer side overflow from a distance of 46341 on, and the decision
variable further out, so that the points need not be those of the digital line. What is left
of it in every case: a point is one further along the side of the scan than the one before,
and in an image it moves at most by one, and always in the same sense, along the other
side. -/

namespace SchoolProjects.Vision

namespace LineScan

/-- The points that the moves alone pass through. -/
def points (s : LineScan) (c : Cursor) (int : ℤ → ℤ := id) : List Point :=
  (c.x, c.y) ::
    match _h : s.move c int with
    | none => []
    | some c' => points s c' int
termination_by s.remaining c
decreasing_by exact remaining_move _h

variable {s : LineScan} {c c' : Cursor} {int : ℤ → ℤ}

theorem points_of_none (h : s.move c int = none) : s.points c int = [(c.x, c.y)] := by
  rw [points]
  split
  · rfl
  · next c' h' => rw [h] at h'; cases h'

theorem points_of_some (h : s.move c int = some c') :
    s.points c int = (c.x, c.y) :: s.points c' int := by
  rw [points]
  split
  · next h' => rw [h] at h'; cases h'
  · next c'' h' =>
    rw [h] at h'
    obtain rfl := Option.some.inj h'
    rfl

theorem head_points (s : LineScan) (c : Cursor) (int : ℤ → ℤ) :
    (s.points c int).head? = some (c.x, c.y) := by
  rw [points, List.head?_cons]

/-- The loop does its work at these points. -/
theorem walk_eq_sweep {σ : Type*} (body : Point → σ → Option σ) (c : Cursor) (st : σ) :
    s.walk body c st int = sweep body (s.points c int) st := by
  induction hn : s.remaining c using Nat.strong_induction_on generalizing c st with
  | _ n ih =>
    rw [walk]
    cases hmove : s.move c int with
    | none =>
      rw [points_of_none hmove, sweep]
      cases body (c.x, c.y) st with
      | none => rfl
      | some st => rfl
    | some c' =>
      rw [points_of_some hmove, sweep]
      cases body (c.x, c.y) st with
      | none => rfl
      | some st => exact ih _ (hn ▸ remaining_move hmove) c' st rfl

end LineScan

/-- The points from one end to the other that the scan passes through. -/
def track (P Q : Point) (int : ℤ → ℤ := id) : List Point :=
  (LineScan.setup P Q int).points
    ⟨(LineScan.setup P Q int).xmin, (LineScan.setup P Q int).ymin, (LineScan.setup P Q int).d⟩ int

theorem scan_eq_sweep {σ : Type*} (P Q : Point) (body : Point → σ → Option σ) (st : σ)
    (int : ℤ → ℤ) : LineScan.scan P Q body st int = sweep body (track P Q int) st :=
  LineScan.walk_eq_sweep body _ st

theorem sweep_collect (ps qs : List Point) :
    sweep (fun p t => some (t ++ [p])) ps qs = qs ++ ps := by
  induction ps generalizing qs with
  | nil => rw [sweep, List.append_nil]
  | cons p ps ih =>
    rw [sweep]
    exact (ih (qs ++ [p])).trans (List.append_cons qs p ps).symm

/-- In exact integers they are the digital line. -/
theorem track_eq_line (P Q : Point) : track P Q = line P Q := by
  have hscan := scan_eq P Q (fun p t => some (t ++ [p])) []
  rw [scan_eq_sweep, sweep_collect, sweep_collect, List.nil_append, List.nil_append] at hscan
  exact hscan

/-- A point of two numbers of type `int`. -/
def IntPoint (p : Point) : Prop := IsInt p.1 ∧ IsInt p.2

instance (p : Point) : Decidable (IntPoint p) := inferInstanceAs (Decidable (_ ∧ _))

theorem intPoint_iff (dir : Dir) (p : Point) :
    IntPoint p ↔ IsInt (dir.major p) ∧ IsInt (dir.minor p) := by
  cases dir with
  | DIR_X => exact Iff.rfl
  | DIR_Y => exact and_comm

/-- A point that an image may have as a pixel. -/
def Addressable (p : Point) : Prop := IntPoint p ∧ 0 ≤ p.1 ∧ 0 ≤ p.2

theorem addressable_iff (dir : Dir) (p : Point) : Addressable p ↔
    (IsInt (dir.major p) ∧ IsInt (dir.minor p)) ∧ 0 ≤ dir.major p ∧ 0 ≤ dir.minor p := by
  rw [Addressable, intPoint_iff dir]
  cases dir with
  | DIR_X => exact Iff.rfl
  | DIR_Y => exact and_congr_right fun _ => and_comm

namespace LineScan

/-! ### The ends -/

def lo (s : LineScan) : Point := (s.xmin, s.ymin)

def hi (s : LineScan) : Point := (s.xmax, s.ymax)

/-- The side of the scan. -/
def side (P Q : Point) (int : ℤ → ℤ) : Dir :=
  if int (int (Q.1 - P.1) * int (Q.1 - P.1)) > int (int (Q.2 - P.2) * int (Q.2 - P.2)) then .DIR_X
  else .DIR_Y

/-- The ends in order along a side. -/
def ends (dir : Dir) (P Q : Point) : Point × Point :=
  if dir.major Q < dir.major P then (Q, P) else (P, Q)

/-- The setup for two ends in order. -/
def setupOf (dir : Dir) (lo hi : Point) (int : ℤ → ℤ) : LineScan :=
  increments dir lo.1 hi.1 lo.2 hi.2 (int (dir.major hi - dir.major lo))
    (int (dir.minor hi - dir.minor lo)) int

theorem setup_eq_setupOf (P Q : Point) (int : ℤ → ℤ) : setup P Q int =
    setupOf (side P Q int) (ends (side P Q int) P Q).1 (ends (side P Q int) P Q).2 int := by
  unfold side setup ends
  by_cases hdir : int (int (Q.1 - P.1) * int (Q.1 - P.1)) > int (int (Q.2 - P.2) * int (Q.2 - P.2))
  · simp only [if_pos hdir, SWAP_eq, Dir.major]
    by_cases hswap : Q.1 < P.1
    · simp only [if_pos hswap]
      rfl
    · simp only [if_neg hswap]
      rfl
  · simp only [if_neg hdir, SWAP_eq, Dir.major]
    by_cases hswap : Q.2 < P.2
    · simp only [if_pos hswap]
      rfl
    · simp only [if_neg hswap]
      rfl

/-- The ends of the scan in the order of its side. -/
theorem setup_ends (P Q : Point) (int : ℤ → ℤ) :
    ((setup P Q int).lo = P ∧ (setup P Q int).hi = Q ∨
      (setup P Q int).lo = Q ∧ (setup P Q int).hi = P) ∧
    (setup P Q int).dir.major (setup P Q int).lo ≤
      (setup P Q int).dir.major (setup P Q int).hi := by
  rw [setup_eq_setupOf]
  change (((ends (side P Q int) P Q).1 = P ∧ (ends (side P Q int) P Q).2 = Q ∨
    (ends (side P Q int) P Q).1 = Q ∧ (ends (side P Q int) P Q).2 = P) ∧
    (side P Q int).major (ends (side P Q int) P Q).1 ≤
      (side P Q int).major (ends (side P Q int) P Q).2)
  unfold ends
  split_ifs with hswap
  · exact ⟨Or.inr ⟨rfl, rfl⟩, hswap.le⟩
  · exact ⟨Or.inl ⟨rfl, rfl⟩, not_lt.mp hswap⟩

/-- The sense in which the other coordinate moves. -/
def sign (s : LineScan) : ℤ :=
  match s.mpCase with
  | .one => 1
  | .two => -1

theorem sign_setupOf (dir : Dir) (lo hi : Point) (int : ℤ → ℤ) :
    (setupOf dir lo hi int).sign = if int (dir.minor hi - dir.minor lo) ≥ 0 then 1 else -1 := by
  unfold sign setupOf increments
  split_ifs <;> rfl

theorem sign_setup (P Q : Point) (int : ℤ → ℤ) : (setup P Q int).sign =
    if int ((setup P Q int).dir.minor (setup P Q int).hi -
      (setup P Q int).dir.minor (setup P Q int).lo) ≥ 0 then 1 else -1 := by
  rw [setup_eq_setupOf]
  exact sign_setupOf _ _ _ int

/-! ### A move -/

variable {s : LineScan} {c c' : Cursor} {int : ℤ → ℤ}

theorem advance_cases {last a b d : ℤ} {r : ℤ × ℤ × ℤ} (h : s.advance last a b d int = some r) :
    a < last ∧ r.1 = a + 1 ∧ (r.2.1 = b ∨ r.2.1 = int (b + s.sign)) := by
  obtain ⟨hlast, hnext⟩ := advance_eq_some h
  refine ⟨hlast, hnext, ?_⟩
  unfold advance at h
  unfold sign
  rw [if_pos hlast] at h
  cases hm : s.mpCase with
  | one =>
    simp only [hm] at h
    split_ifs at h
    · exact Or.inl (congrArg (fun r => r.2.1) (Option.some.inj h)).symm
    · exact Or.inr (congrArg (fun r => r.2.1) (Option.some.inj h)).symm
  | two =>
    simp only [hm] at h
    split_ifs at h
    · exact Or.inr (congrArg (fun r => r.2.1) (Option.some.inj h)).symm
    · exact Or.inl (congrArg (fun r => r.2.1) (Option.some.inj h)).symm

/-- What a move does to the point: one step along the side of the scan, and none or one along
the other. -/
theorem move_cases (h : s.move c int = some c') :
    s.dir.major (c.x, c.y) < s.dir.major s.hi ∧
    s.dir.major (c'.x, c'.y) = s.dir.major (c.x, c.y) + 1 ∧
    (s.dir.minor (c'.x, c'.y) = s.dir.minor (c.x, c.y) ∨
      s.dir.minor (c'.x, c'.y) = int (s.dir.minor (c.x, c.y) + s.sign)) := by
  unfold move at h
  cases hd : s.dir with
  | DIR_X =>
    simp only [hd] at h
    obtain ⟨r, hr, rfl⟩ := Option.map_eq_some_iff.mp h
    exact advance_cases hr
  | DIR_Y =>
    simp only [hd] at h
    obtain ⟨r, hr, rfl⟩ := Option.map_eq_some_iff.mp h
    exact advance_cases hr

/-- No point is beyond the end along the side of the scan. -/
theorem major_le_of_mem_points {p : Point} (hc : s.dir.major (c.x, c.y) ≤ s.dir.major s.hi)
    (hp : p ∈ s.points c int) : s.dir.major p ≤ s.dir.major s.hi := by
  induction hn : s.remaining c using Nat.strong_induction_on generalizing c with
  | _ n ih =>
    cases hmove : s.move c int with
    | none =>
      rw [points_of_none hmove, List.mem_singleton] at hp
      rwa [hp]
    | some c' =>
      obtain ⟨hlast, hmajor, -⟩ := move_cases hmove
      rw [points_of_some hmove, List.mem_cons] at hp
      rcases hp with rfl | hp
      · exact hc
      · exact ih _ (hn ▸ remaining_move hmove) (by omega) hp rfl

/-! ### The points in an image -/

/-- The cursor stays in the range of `int`. -/
theorem intPoint_of_mem_points {p : Point} (hc : IntPoint (c.x, c.y)) (hhi : IntPoint s.hi)
    (hp : p ∈ s.points c int32) : IntPoint p := by
  induction hn : s.remaining c using Nat.strong_induction_on generalizing c with
  | _ n ih =>
    cases hmove : s.move c int32 with
    | none =>
      rw [points_of_none hmove, List.mem_singleton] at hp
      rwa [hp]
    | some c' =>
      rw [points_of_some hmove, List.mem_cons] at hp
      rcases hp with rfl | hp
      · exact hc
      · refine ih _ (hn ▸ remaining_move hmove) ?_ hp rfl
        obtain ⟨hlast, hmajor, hminor⟩ := move_cases hmove
        rw [intPoint_iff s.dir] at hc hhi ⊢
        constructor
        · rw [hmajor]
          exact ⟨by linarith [hc.1.1], by linarith [hhi.1.2]⟩
        · rcases hminor with hminor | hminor
          · rw [hminor]
            exact hc.2
          · rw [hminor]
            exact isInt_int32 _

/-- How a later point of the scan lies to an earlier one: further along its side, and along the
other side not further than that, and in the sense of the scan. -/
structure Ahead (s : LineScan) (p q : Point) : Prop where
  left : Addressable p
  right : Addressable q
  major_lt : s.dir.major p < s.dir.major q
  sign_nonneg : 0 ≤ s.sign * (s.dir.minor q - s.dir.minor p)
  sign_le : s.sign * (s.dir.minor q - s.dir.minor p) ≤ s.dir.major q - s.dir.major p

theorem Ahead.trans {p q r : Point} (h : s.Ahead p q) (h' : s.Ahead q r) : s.Ahead p r where
  left := h.left
  right := h'.right
  major_lt := h.major_lt.trans h'.major_lt
  sign_nonneg := by linarith [h.sign_nonneg, h'.sign_nonneg]
  sign_le := by linarith [h.sign_le, h'.sign_le]

instance (s : LineScan) : Trans s.Ahead s.Ahead s.Ahead := ⟨Ahead.trans⟩

theorem sign_eq (s : LineScan) : s.sign = 1 ∨ s.sign = -1 := by
  unfold sign
  cases s.mpCase with
  | one => exact Or.inl rfl
  | two => exact Or.inr rfl

/-- Within an image the other coordinate does not overflow. -/
theorem int32_step {b : ℤ} (hb : IsInt b) (h0 : 0 ≤ b) (hnext : 0 ≤ int32 (b + s.sign)) :
    int32 (b + s.sign) = b + s.sign := by
  obtain ⟨-, h1⟩ := hb
  by_cases hlast : b + s.sign = 2 ^ 31
  · have hover : int32 (b + s.sign) = -2 ^ 31 := by
      rw [hlast]
      decide +kernel
    rw [hover] at hnext
    omega
  · exact int32_of_range (by rcases s.sign_eq with h | h <;> omega)
      (by rcases s.sign_eq with h | h <;> omega)

theorem ahead_of_move (h : s.move c int32 = some c') (hp : Addressable (c.x, c.y))
    (hq : Addressable (c'.x, c'.y)) : s.Ahead (c.x, c.y) (c'.x, c'.y) := by
  obtain ⟨-, hmajor, hminor⟩ := move_cases h
  refine ⟨hp, hq, by omega, ?_, ?_⟩ <;>
    rw [addressable_iff s.dir] at hp hq <;>
    rcases hminor with hminor | hminor
  · rw [hminor, sub_self, mul_zero]
  · rw [hminor, int32_step hp.1.2 hp.2.2 (hminor ▸ hq.2.2), add_sub_cancel_left]
    exact mul_self_nonneg _
  · rw [hminor, sub_self, mul_zero]
    omega
  · rw [hminor, int32_step hp.1.2 hp.2.2 (hminor ▸ hq.2.2), add_sub_cancel_left, hmajor]
    rcases s.sign_eq with hsign | hsign <;> rw [hsign] <;> omega

/-- The points up to the first that does not pass a test which only pixels pass. -/
theorem pairwise_takeWhile_points {test : Point → Bool} (s : LineScan) (c : Cursor)
    (htest : ∀ p ∈ s.points c int32, test p → Addressable p) :
    ((s.points c int32).takeWhile test).Pairwise s.Ahead := by
  rw [← List.isChain_iff_pairwise]
  induction hn : s.remaining c using Nat.strong_induction_on generalizing c with
  | _ n ih =>
    by_cases hc : test (c.x, c.y)
    · cases hmove : s.move c int32 with
      | none =>
        rw [points_of_none hmove, List.takeWhile_cons_of_pos hc, List.takeWhile_nil]
        exact List.isChain_singleton _
      | some c' =>
        rw [points_of_some hmove] at htest ⊢
        obtain ⟨hfirst, hrest⟩ := List.forall_mem_cons.mp htest
        rw [List.takeWhile_cons_of_pos hc]
        refine (ih _ (hn ▸ remaining_move hmove) c' hrest rfl).cons fun q hq => ?_
        rw [List.head?_takeWhile, Option.mem_filter_iff, head_points] at hq
        obtain ⟨hq, hin⟩ := hq
        obtain rfl := Option.some.inj hq
        exact ahead_of_move hmove (hfirst hc)
          (hrest _ (List.mem_of_mem_head? (head_points s c' int32)) hin)
    · have hnil : (s.points c int32).takeWhile test = [] := by
        rw [points, List.takeWhile_cons_of_neg hc]
      rw [hnil]
      exact List.isChain_nil

end LineScan

section Track

variable {P Q p q : Point} {s : LineScan} {test : Point → Bool}

open LineScan

theorem head_track (P Q : Point) (int : ℤ → ℤ) :
    (track P Q int).head? = some (setup P Q int).lo := head_points _ _ int

theorem intPoint_of_mem_track (hP : IntPoint P) (hQ : IntPoint Q) (hp : p ∈ track P Q int32) :
    IntPoint p := by
  have hends := (setup_ends P Q int32).1
  refine intPoint_of_mem_points ?_ ?_ hp
  · change IntPoint (setup P Q int32).lo
    rcases hends with ⟨hlo, -⟩ | ⟨hlo, -⟩ <;> rw [hlo] <;> assumption
  · rcases hends with ⟨-, hhi⟩ | ⟨-, hhi⟩ <;> rw [hhi] <;> assumption

/-- The points up to the first outside an image go ahead. -/
theorem pairwise_track (hP : IntPoint P) (hQ : IntPoint Q)
    (htest : ∀ p, test p → 0 ≤ p.1 ∧ 0 ≤ p.2) :
    ((track P Q int32).takeWhile test).Pairwise (setup P Q int32).Ahead :=
  pairwise_takeWhile_points _ _ fun p hp hin => ⟨intPoint_of_mem_track hP hQ hp, htest p hin⟩

theorem major_le_of_mem_track (hp : p ∈ track P Q int32) :
    (setup P Q int32).dir.major p ≤ (setup P Q int32).dir.major (setup P Q int32).hi :=
  major_le_of_mem_points (setup_ends P Q int32).2 hp

/-- The first point, and those ahead of it. -/
theorem eq_lo_or_ahead (hP : IntPoint P) (hQ : IntPoint Q)
    (htest : ∀ p, test p → 0 ≤ p.1 ∧ 0 ≤ p.2) (hp : p ∈ (track P Q int32).takeWhile test) :
    p = (setup P Q int32).lo ∨ (setup P Q int32).Ahead (setup P Q int32).lo p := by
  have hpairwise := pairwise_track hP hQ htest
  obtain ⟨ps, hps⟩ := List.head?_eq_some_iff.mp (head_track P Q int32)
  rw [hps] at hp hpairwise
  by_cases hlo : test (setup P Q int32).lo
  · rw [List.takeWhile_cons_of_pos hlo] at hp hpairwise
    rcases List.mem_cons.mp hp with hp | hp
    · exact Or.inl hp
    · exact Or.inr ((List.pairwise_cons.mp hpairwise).1 p hp)
  · rw [List.takeWhile_cons_of_neg hlo] at hp
    exact absurd hp List.not_mem_nil

theorem Dir.major_of_ne {dir dir' : Dir} (h : dir ≠ dir') (p : Point) :
    dir.major p = dir'.minor p ∧ dir.minor p = dir'.major p := by
  cases dir <;> cases dir' <;> first | exact absurd rfl h | exact ⟨rfl, rfl⟩

/-- The difference of two pixels is an `int`. -/
theorem int32_major_sub {dir : Dir} (hp : Addressable p) (hq : Addressable q) :
    int32 (dir.major q - dir.major p) = dir.major q - dir.major p := by
  obtain ⟨⟨⟨-, hp1⟩, -⟩, hp0, -⟩ := (addressable_iff dir p).mp hp
  obtain ⟨⟨⟨-, hq1⟩, -⟩, hq0, -⟩ := (addressable_iff dir q).mp hq
  exact int32_of_range (by omega) (by omega)

/-- The line from a point of a scan to a later one, when it is scanned along the other side: it
moves at most as often as the other coordinate differs. -/
theorem major_le_of_other_side {r : Point} (hahead : s.Ahead p q)
    (hdir : (setup p q int32).dir ≠ s.dir) (hle : s.dir.minor r ≤ s.dir.minor (setup p q int32).hi)
    (hr : (setup p q int32).Ahead (setup p q int32).lo r) : s.dir.major r ≤ s.dir.major q := by
  have hsides := fun x => Dir.major_of_ne hdir x
  obtain ⟨hends, horder⟩ := setup_ends p q int32
  have hsign := sign_setup p q int32
  have hnonneg := hr.sign_nonneg
  have hmoves := hr.sign_le
  have hmajor := hahead.major_lt
  simp only [(hsides _).1, (hsides _).2] at hsign hnonneg hmoves horder
  rcases hends with ⟨hlo, hhi⟩ | ⟨hlo, hhi⟩
  · have hpos : s.dir.major q - s.dir.major p ≥ 0 := by omega
    rw [hlo, hhi, int32_major_sub hahead.left hahead.right, if_pos hpos] at hsign
    rw [hlo, hhi] at horder
    rw [hsign, hlo] at hmoves
    rw [hhi] at hle
    have hstep := hahead.sign_le
    have hsense := hahead.sign_nonneg
    rcases s.sign_eq with h | h <;> rw [h] at hstep hsense <;> omega
  · have hneg : ¬ s.dir.major p - s.dir.major q ≥ 0 := by omega
    rw [hlo, hhi, int32_major_sub hahead.right hahead.left, if_neg hneg] at hsign
    rw [hsign, hlo] at hnonneg
    omega

/-- The line from a point of a scan to a later one does not go past the later one along the side
of that scan, whichever side it is scanned along itself. -/
theorem major_le_of_ahead {r : Point} (hahead : s.Ahead p q)
    (htest : ∀ p, test p → 0 ≤ p.1 ∧ 0 ≤ p.2) (hr : r ∈ (track p q int32).takeWhile test) :
    s.dir.major r ≤ s.dir.major q := by
  have hends := (setup_ends p q int32).1
  have hmajor := hahead.major_lt
  have hle := major_le_of_mem_track (List.takeWhile_subset _ hr)
  by_cases hdir : (setup p q int32).dir = s.dir
  · rw [hdir] at hle
    rcases hends with ⟨-, hhi⟩ | ⟨-, hhi⟩ <;> rw [hhi] at hle <;> omega
  · rcases eq_lo_or_ahead hahead.left.1 hahead.right.1 htest hr with rfl | hr
    · rcases hends with ⟨hlo, -⟩ | ⟨hlo, -⟩ <;> rw [hlo]
      exact hmajor.le
    · rw [(Dir.major_of_ne hdir _).1, (Dir.major_of_ne hdir _).1] at hle
      exact major_le_of_other_side hahead hdir hle hr

end Track

/-! ### Short lines -/

section Short

variable {P Q : Point} {s : LineScan} {g : Segment} {c c' : Cursor} {int : ℤ → ℤ}

theorem LineScan.advance_of_exact {last a b d : ℤ} {r : ℤ × ℤ × ℤ}
    (h : s.advance last a b d = some r) (hb : int r.2.1 = r.2.1) (hd : int r.2.2 = r.2.2) :
    s.advance last a b d int = some r := by
  unfold LineScan.advance at h ⊢
  by_cases hlast : a < last
  · rw [if_pos hlast] at h ⊢
    cases hm : s.mpCase <;> simp only [hm] at h ⊢ <;> split_ifs at h ⊢ <;>
      obtain rfl := Option.some.inj h
    · exact congrArg some (Prod.ext rfl (Prod.ext rfl hd))
    · exact congrArg some (Prod.ext rfl (Prod.ext hb hd))
    · exact congrArg some (Prod.ext rfl (Prod.ext hb hd))
    · exact congrArg some (Prod.ext rfl (Prod.ext rfl hd))
  · rw [if_neg hlast] at h
    cases h

theorem LineScan.advance_of_none {last a b d : ℤ} (h : s.advance last a b d = none) :
    s.advance last a b d int = none := by
  unfold LineScan.advance at h ⊢
  by_cases hlast : a < last
  · rw [if_pos hlast] at h
    cases hm : s.mpCase <;> simp only [hm] at h <;> split_ifs at h
  · rw [if_neg hlast]

/-- A move whose outcome is in range is an exact one. -/
theorem LineScan.move_of_exact (h : s.move c = some c') (hx : int c'.x = c'.x)
    (hy : int c'.y = c'.y) (hd : int c'.d = c'.d) : s.move c int = some c' := by
  unfold LineScan.move at h ⊢
  cases hdir : s.dir with
  | DIR_X =>
    simp only [hdir] at h ⊢
    obtain ⟨r, hr, rfl⟩ := Option.map_eq_some_iff.mp h
    rw [advance_of_exact hr hy hd, Option.map_some]
  | DIR_Y =>
    simp only [hdir] at h ⊢
    obtain ⟨r, hr, rfl⟩ := Option.map_eq_some_iff.mp h
    rw [advance_of_exact hr hx hd, Option.map_some]

theorem LineScan.move_of_none (h : s.move c = none) : s.move c int = none := by
  unfold LineScan.move at h ⊢
  cases hdir : s.dir <;> simp only [hdir, Option.map_eq_none_iff] at h ⊢ <;>
    exact advance_of_none h

/-- A scan whose cursor stays in range is an exact one. -/
theorem Segment.points_cursor (hint : ∀ k : ℕ, (k : ℤ) ≤ g.run →
      int (g.cursor k).x = (g.cursor k).x ∧ int (g.cursor k).y = (g.cursor k).y ∧
        int (g.cursor k).d = (g.cursor k).d) (n k : ℕ) (hn : k + n = g.run.toNat) :
    g.lineScan.points (g.cursor k) int = g.lineScan.points (g.cursor k) := by
  induction n generalizing k with
  | zero =>
    have hmove : g.lineScan.move (g.cursor k) = none := by
      rw [move_cursor (Int.natCast_nonneg k), if_neg (by omega)]
    rw [LineScan.points_of_none hmove, LineScan.points_of_none (LineScan.move_of_none hmove)]
  | succ n ih =>
    have hmove : g.lineScan.move (g.cursor k) = some (g.cursor (k + 1 : ℕ)) := by
      rw [move_cursor (Int.natCast_nonneg k), if_pos (by omega), Nat.cast_succ]
    obtain ⟨hx, hy, hd⟩ := hint (k + 1) (by omega)
    rw [LineScan.points_of_some hmove,
      LineScan.points_of_some (LineScan.move_of_exact hmove hx hy hd), ih (k + 1) (by omega)]

theorem Segment.abs_decision_le {k : ℤ} : |g.decision k| ≤ 4 * g.run := by
  have hrun := g.run_nonneg
  have hrise := abs_le.mp g.abs_rise_le
  rcases hrun.eq_or_lt with hzero | hpos
  · have h0 : g.rise = 0 := by omega
    simp [decision, ← hzero, h0]
  · obtain ⟨hlow, hhigh⟩ := DigitalLine.near_minor hpos g.rise k
    rw [decision, abs_le]
    split_ifs <;> constructor <;> linarith

/-- The numbers of the setup for such a line. -/
theorem int32_of_short {a b : ℤ} (h : |a| ≤ 46340) (h' : |b| ≤ 46340) :
    int32 a = a ∧ int32 (a * a) = a * a ∧ int32 (2 * b) = 2 * b ∧
      int32 (2 * b - a) = 2 * b - a ∧ int32 (2 * b + a) = 2 * b + a ∧
      int32 (2 * (b - a)) = 2 * (b - a) ∧ int32 (2 * (b + a)) = 2 * (b + a) := by
  have ha := abs_le.mp h
  have hb := abs_le.mp h'
  have hsq : a * a ≤ 46340 * 46340 := by nlinarith
  have hsq0 := mul_self_nonneg a
  refine ⟨?_, ?_, ?_, ?_, ?_, ?_, ?_⟩ <;> exact int32_of_range (by omega) (by omega)

theorem LineScan.side_int32 (hx : |Q.1 - P.1| ≤ 46340) (hy : |Q.2 - P.2| ≤ 46340) :
    side P Q int32 = side P Q id := by
  obtain ⟨h1, hsq1, -⟩ := int32_of_short hx hy
  obtain ⟨h2, hsq2, -⟩ := int32_of_short hy hx
  unfold side
  rw [h1, h2, hsq1, hsq2]
  rfl

theorem LineScan.setupOf_int32 (dir : Dir) (hx : |Q.1 - P.1| ≤ 46340)
    (hy : |Q.2 - P.2| ≤ 46340) : setupOf dir P Q int32 = setupOf dir P Q id := by
  have hmajor : |dir.major Q - dir.major P| ≤ 46340 := by cases dir <;> assumption
  have hminor : |dir.minor Q - dir.minor P| ≤ 46340 := by cases dir <;> assumption
  obtain ⟨hrun, -, hE, hd, hd', hNE, hSE⟩ := int32_of_short hmajor hminor
  obtain ⟨hrise, -⟩ := int32_of_short hminor hmajor
  unfold setupOf increments
  rw [hrun, hrise, hE, hd, hd', hNE, hSE]
  rfl

theorem LineScan.setup_int32 (hx : |Q.1 - P.1| ≤ 46340) (hy : |Q.2 - P.2| ≤ 46340) :
    setup P Q int32 = setup P Q := by
  rw [setup_eq_setupOf, setup_eq_setupOf, side_int32 hx hy, ends]
  split_ifs
  · exact setupOf_int32 _ (by rwa [abs_sub_comm]) (by rwa [abs_sub_comm])
  · exact setupOf_int32 _ hx hy

/-- The cursor of such a line stays in range. -/
theorem int32_cursor (hP : IntPoint P) (hQ : IntPoint Q) (hx : |Q.1 - P.1| ≤ 46340)
    (hy : |Q.2 - P.2| ≤ 46340) {k : ℕ} (hk : (k : ℤ) ≤ (segment P Q).run) :
    int32 ((segment P Q).cursor k).x = ((segment P Q).cursor k).x ∧
      int32 ((segment P Q).cursor k).y = ((segment P Q).cursor k).y ∧
      int32 ((segment P Q).cursor k).d = ((segment P Q).cursor k).d := by
  have hmem := mem_uIcc_of_mem_line (mem_line.mpr ⟨k, hk, rfl⟩)
  rw [Set.uIcc_prod_eq] at hmem
  obtain ⟨h1, h2⟩ := hmem
  rw [Set.mem_uIcc] at h1 h2
  obtain ⟨⟨hP1, hP1'⟩, hP2, hP2'⟩ := hP
  obtain ⟨⟨hQ1, hQ1'⟩, hQ2, hQ2'⟩ := hQ
  have hd := abs_le.mp (Segment.abs_decision_le (g := segment P Q) (k := k))
  have hrun : (segment P Q).run ≤ 46340 := by
    rw [run_segment]
    exact max_le hx hy
  exact ⟨int32_of_range (by change _ ≤ ((segment P Q).nth k).1; omega)
      (by change ((segment P Q).nth k).1 < _; omega),
    int32_of_range (by change _ ≤ ((segment P Q).nth k).2; omega)
      (by change ((segment P Q).nth k).2 < _; omega),
    int32_of_range (by change _ ≤ (segment P Q).decision k; omega)
      (by change (segment P Q).decision k < _; omega)⟩

/-- Up to a distance of 46340 the scan in `int` passes through the digital line. -/
theorem track_int32_eq_line (hP : IntPoint P) (hQ : IntPoint Q) (hx : |Q.1 - P.1| ≤ 46340)
    (hy : |Q.2 - P.2| ≤ 46340) : track P Q int32 = line P Q := by
  have hint : ∀ k : ℕ, (k : ℤ) ≤ (segment P Q).run →
      int32 ((segment P Q).cursor k).x = ((segment P Q).cursor k).x ∧
        int32 ((segment P Q).cursor k).y = ((segment P Q).cursor k).y ∧
        int32 ((segment P Q).cursor k).d = ((segment P Q).cursor k).d :=
    fun k hk => int32_cursor hP hQ hx hy hk
  have hpoints := Segment.points_cursor hint (segment P Q).run.toNat 0 (zero_add _)
  rw [← track_eq_line, track, track, LineScan.setup_int32 hx hy, setup_eq]
  rw [← Segment.cursor_zero] at hpoints
  exact hpoints

end Short

end SchoolProjects.Vision
