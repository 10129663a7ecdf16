import Mathlib.Data.Int.Bitwise
import SchoolProjects.Lib.DigitalLine
import SchoolProjects.Lib.Table

/-! The scan of `DrawLine`, which is the same in the programs that draw lines: the ends are
put in order along the longer side, and a decision variable tells in each of the four cases
whether the next point is one further along the shorter side as well. The function `int` is
what becomes of a number of type `int`: the number itself, or its reduction. In exact
integers the scan passes through the digital line between the two ends. -/

namespace SchoolProjects.Vision

abbrev Point := ℤ × ℤ

/-- `{a^=b; b^=a; a^=b;}` -/
def SWAP (a b : ℤ) : ℤ × ℤ :=
  let a := Int.xor a b
  let b := Int.xor b a
  let a := Int.xor a b
  (a, b)

inductive Dir where
  | DIR_X
  | DIR_Y
  deriving DecidableEq

inductive MpCase where
  | one
  | two
  deriving DecidableEq

/-- What is fixed before the scan starts, and the first value of `d`. -/
structure LineScan where
  dir : Dir
  xmin : ℤ
  xmax : ℤ
  ymin : ℤ
  ymax : ℤ
  mpCase : MpCase
  d : ℤ
  incrNE : ℤ
  incrE : ℤ
  incrSE : ℤ
  deriving DecidableEq

/-- The running coordinates and `d`. -/
structure Cursor where
  x : ℤ
  y : ℤ
  d : ℤ
  deriving DecidableEq

namespace LineScan

/-- The end of both branches of the setup, where `run` and `rise` are `dx` and `dy` or the
other way round. -/
def increments (dir : Dir) (xmin xmax ymin ymax run rise : ℤ) (int : ℤ → ℤ := id) :
    LineScan where
  dir := dir
  xmin := xmin
  xmax := xmax
  ymin := ymin
  ymax := ymax
  mpCase := if rise ≥ 0 then .one else .two
  d := if rise ≥ 0 then int (2 * rise - run) else int (2 * rise + run)
  incrNE := int (2 * (rise - run))
  incrE := int (2 * rise)
  incrSE := int (2 * (rise + run))

/-- What comes before the scan. -/
def setup (P Q : Point) (int : ℤ → ℤ := id) : LineScan :=
  let dx := int (Q.1 - P.1)
  let dy := int (Q.2 - P.2)
  if int (dx * dx) > int (dy * dy) then
    let (xmin, xmax) := if Q.1 < P.1 then SWAP P.1 Q.1 else (P.1, Q.1)
    let (ymin, ymax) := if Q.1 < P.1 then SWAP P.2 Q.2 else (P.2, Q.2)
    increments .DIR_X xmin xmax ymin ymax (int (xmax - xmin)) (int (ymax - ymin)) int
  else
    let (xmin, xmax) := if Q.2 < P.2 then SWAP P.1 Q.1 else (P.1, Q.1)
    let (ymin, ymax) := if Q.2 < P.2 then SWAP P.2 Q.2 else (P.2, Q.2)
    increments .DIR_Y xmin xmax ymin ymax (int (ymax - ymin)) (int (xmax - xmin)) int

/-- One case of `switch(dir)`, for the coordinate `a` along the longer side, which runs up
to `last`, and the other coordinate `b`; `none` is `done=1`. No number after `a` up to `last`
is too great for an `int`. -/
def advance (s : LineScan) (last a b d : ℤ) (int : ℤ → ℤ := id) : Option (ℤ × ℤ × ℤ) :=
  if a < last then
    match s.mpCase with
    | .one =>
      if d ≤ 0 then some (a + 1, b, int (d + s.incrE))
      else some (a + 1, int (b + 1), int (d + s.incrNE))
    | .two =>
      if d ≤ 0 then some (a + 1, int (b - 1), int (d + s.incrSE))
      else some (a + 1, b, int (d + s.incrE))
  else none

/-- `// Move to the next point.` -/
def move (s : LineScan) (c : Cursor) (int : ℤ → ℤ := id) : Option Cursor :=
  match s.dir with
  | .DIR_X => (s.advance s.xmax c.x c.y c.d int).map fun r => ⟨r.1, r.2.1, r.2.2⟩
  | .DIR_Y => (s.advance s.ymax c.y c.x c.d int).map fun r => ⟨r.2.1, r.1, r.2.2⟩

/-- How far the scan still has to go. -/
def remaining (s : LineScan) (c : Cursor) : ℕ :=
  match s.dir with
  | .DIR_X => (s.xmax - c.x).toNat
  | .DIR_Y => (s.ymax - c.y).toNat

theorem advance_eq_some {int : ℤ → ℤ} {s : LineScan} {last a b d : ℤ} {r : ℤ × ℤ × ℤ}
    (h : s.advance last a b d int = some r) : a < last ∧ r.1 = a + 1 := by
  unfold advance at h
  by_cases hlast : a < last
  · rw [if_pos hlast] at h
    refine ⟨hlast, ?_⟩
    cases hm : s.mpCase <;> simp only [hm] at h <;> split_ifs at h <;>
      exact (congrArg Prod.fst (Option.some.inj h)).symm
  · rw [if_neg hlast] at h
    cases h

theorem remaining_move {int : ℤ → ℤ} {s : LineScan} {c c' : Cursor}
    (h : s.move c int = some c') :
    s.remaining c' < s.remaining c := by
  unfold move at h
  unfold remaining
  split at h
  · obtain ⟨r, hr, rfl⟩ := Option.map_eq_some_iff.mp h
    obtain ⟨hlast, hnext⟩ := advance_eq_some hr
    dsimp only
    omega
  · obtain ⟨r, hr, rfl⟩ := Option.map_eq_some_iff.mp h
    obtain ⟨hlast, hnext⟩ := advance_eq_some hr
    dsimp only
    omega

/-- The loop, where `body` does what comes before the move; `none` is a `break`. -/
def walk {σ : Type*} (s : LineScan) (body : Point → σ → Option σ) (c : Cursor) (st : σ)
    (int : ℤ → ℤ := id) : σ :=
  match body (c.x, c.y) st with
  | none => st
  | some st =>
    match _h : s.move c int with
    | none => st
    | some c' => walk s body c' st int
termination_by s.remaining c
decreasing_by exact remaining_move _h

/-- The loop from the start. -/
def scan {σ : Type*} (P Q : Point) (body : Point → σ → Option σ) (st : σ)
    (int : ℤ → ℤ := id) : σ :=
  let s := setup P Q int
  s.walk body ⟨s.xmin, s.ymin, s.d⟩ st int

/-! ### The ends in order -/

theorem xor_xor_right (a b : ℤ) : Int.xor (Int.xor a b) b = a := by
  cases a <;> cases b <;> simp [Int.xor]

theorem xor_comm (a b : ℤ) : Int.xor a b = Int.xor b a := by
  cases a <;> cases b <;> simp [Int.xor, Nat.xor_comm]

theorem SWAP_eq (a b : ℤ) : SWAP a b = (b, a) := by
  have hb : Int.xor b (Int.xor a b) = a := by rw [xor_comm, xor_xor_right]
  have ha : Int.xor (Int.xor a b) a = b := by rw [xor_comm a b, xor_xor_right]
  simp only [SWAP, hb, ha]

end LineScan

/-- The coordinate along the longer side. -/
def Dir.major (dir : Dir) (p : Point) : ℤ :=
  match dir with
  | .DIR_X => p.1
  | .DIR_Y => p.2

/-- The coordinate along the shorter side. -/
def Dir.minor (dir : Dir) (p : Point) : ℤ :=
  match dir with
  | .DIR_X => p.2
  | .DIR_Y => p.1

def Dir.point (dir : Dir) (a b : ℤ) : Point :=
  match dir with
  | .DIR_X => (a, b)
  | .DIR_Y => (b, a)

@[simp] theorem Dir.major_point (dir : Dir) (a b : ℤ) : dir.major (dir.point a b) = a := by
  cases dir <;> rfl

@[simp] theorem Dir.minor_point (dir : Dir) (a b : ℤ) : dir.minor (dir.point a b) = b := by
  cases dir <;> rfl

theorem Dir.point_eq (dir : Dir) (p : Point) : dir.point (dir.major p) (dir.minor p) = p := by
  cases dir <;> rfl

/-- Two ends in the order of the scan: not further apart along the side `minor` than along
the other, along which the first comes first. -/
structure Segment where
  dir : Dir
  lo : Point
  hi : Point
  slope : |dir.minor hi - dir.minor lo| ≤ dir.major hi - dir.major lo

namespace Segment

variable (g : Segment)

def run : ℤ := g.dir.major g.hi - g.dir.major g.lo

def rise : ℤ := g.dir.minor g.hi - g.dir.minor g.lo

theorem abs_rise_le : |g.rise| ≤ g.run := g.slope

theorem run_nonneg : 0 ≤ g.run := (abs_nonneg _).trans g.slope

/-- The point of the digital line after `k` steps. -/
def nth (k : ℤ) : Point :=
  g.dir.point (g.dir.major g.lo + k) (g.dir.minor g.lo + DigitalLine.minor g.run g.rise k)

/-- The digital line. -/
def points : List Point := (List.range (g.run.toNat + 1)).map fun k : ℕ => g.nth k

/-- The setup of the scan for two ends in order. -/
def lineScan : LineScan :=
  .increments g.dir g.lo.1 g.hi.1 g.lo.2 g.hi.2 g.run g.rise

/-- Twice the distance, in units of `run`, of the line from the middle between the two
points that may be next. -/
def decision (k : ℤ) : ℤ :=
  2 * g.rise * (k + 1) - 2 * g.run * DigitalLine.minor g.run g.rise k +
    if 0 ≤ g.rise then -g.run else g.run

def cursor (k : ℤ) : Cursor := ⟨(g.nth k).1, (g.nth k).2, g.decision k⟩

variable {g}

theorem nth_zero : g.nth 0 = g.lo := by
  rw [nth, DigitalLine.minor_zero g.run_nonneg, add_zero, add_zero, g.dir.point_eq]

theorem nth_run : g.nth g.run = g.hi := by
  rw [nth, DigitalLine.minor_run g.abs_rise_le, run, rise, add_sub_cancel, add_sub_cancel,
    g.dir.point_eq]

theorem decision_succ (k : ℤ) : g.decision (k + 1) = g.decision k + 2 * g.rise -
    2 * g.run * (DigitalLine.minor g.run g.rise (k + 1) - DigitalLine.minor g.run g.rise k) := by
  unfold decision
  ring

/-- A move that adds `δ` to the other coordinate, and to `d` what belongs to it. -/
theorem advance_of_step {k δ e : ℤ}
    (hadvance : g.lineScan.advance (g.dir.major g.hi) (g.dir.major g.lo + k)
      (g.dir.minor g.lo + DigitalLine.minor g.run g.rise k) (g.decision k) =
        some (g.dir.major g.lo + k + 1, g.dir.minor g.lo + DigitalLine.minor g.run g.rise k + δ,
          g.decision k + e))
    (hminor : DigitalLine.minor g.run g.rise (k + 1) = DigitalLine.minor g.run g.rise k + δ)
    (he : e = 2 * g.rise - 2 * g.run * δ) :
    g.lineScan.advance (g.dir.major g.hi) (g.dir.major g.lo + k)
      (g.dir.minor g.lo + DigitalLine.minor g.run g.rise k) (g.decision k) =
        some (g.dir.major g.lo + (k + 1),
          g.dir.minor g.lo + DigitalLine.minor g.run g.rise (k + 1), g.decision (k + 1)) := by
  rw [hadvance, decision_succ, hminor, he]
  simp only [Option.some.injEq, Prod.mk.injEq]
  exact ⟨by ring, by ring, by ring⟩

/-- The two cases of a rising line. -/
theorem advance_rising {k : ℤ} (hrise : 0 ≤ g.rise) (hk : 0 ≤ k) (hrun : k < g.run)
    (hlast : g.dir.major g.lo + k < g.dir.major g.hi) :
    g.lineScan.advance (g.dir.major g.hi) (g.dir.major g.lo + k)
      (g.dir.minor g.lo + DigitalLine.minor g.run g.rise k) (g.decision k) =
        some (g.dir.major g.lo + (k + 1),
          g.dir.minor g.lo + DigitalLine.minor g.run g.rise (k + 1), g.decision (k + 1)) := by
  have hcase : g.lineScan.mpCase = .one := if_pos hrise
  have hE : g.lineScan.incrE = 2 * g.rise - 2 * g.run * 0 := by
    show 2 * g.rise = _
    ring
  have hNE : g.lineScan.incrNE = 2 * g.rise - 2 * g.run * 1 := by
    show 2 * (g.rise - g.run) = _
    ring
  have hstep := DigitalLine.minor_succ_of_nonneg hrise (abs_le.mp g.abs_rise_le).2 (by omega) k
  have hsign : g.decision k = 2 * g.rise * (k + 1) -
      2 * g.run * DigitalLine.minor g.run g.rise k - g.run := by
    rw [decision, if_pos hrise]
    ring
  rw [← hsign] at hstep
  split_ifs at hstep with hle
  · refine advance_of_step (δ := 0) ?_ (by rw [hstep, add_zero]) hE
    rw [LineScan.advance, if_pos hlast, hcase, add_zero]
    exact if_pos hle
  · refine advance_of_step ?_ hstep hNE
    rw [LineScan.advance, if_pos hlast, hcase]
    exact if_neg hle

/-- The two cases of a falling line. -/
theorem advance_falling {k : ℤ} (hrise : g.rise < 0)
    (hlast : g.dir.major g.lo + k < g.dir.major g.hi) :
    g.lineScan.advance (g.dir.major g.hi) (g.dir.major g.lo + k)
      (g.dir.minor g.lo + DigitalLine.minor g.run g.rise k) (g.decision k) =
        some (g.dir.major g.lo + (k + 1),
          g.dir.minor g.lo + DigitalLine.minor g.run g.rise (k + 1), g.decision (k + 1)) := by
  have hcase : g.lineScan.mpCase = .two := if_neg (not_le.mpr hrise)
  have hE : g.lineScan.incrE = 2 * g.rise - 2 * g.run * 0 := by
    show 2 * g.rise = _
    ring
  have hSE : g.lineScan.incrSE = 2 * g.rise - 2 * g.run * (-1) := by
    show 2 * (g.rise + g.run) = _
    ring
  have hstep := DigitalLine.minor_succ_of_neg hrise (abs_le.mp g.abs_rise_le).1 k
  have hsign : g.decision k = 2 * g.rise * (k + 1) -
      2 * g.run * DigitalLine.minor g.run g.rise k + g.run := by
    rw [decision, if_neg (not_le.mpr hrise)]
  rw [← hsign] at hstep
  split_ifs at hstep with hle
  · refine advance_of_step (δ := -1) ?_ (by rw [hstep, sub_eq_add_neg]) hSE
    rw [LineScan.advance, if_pos hlast, hcase, ← sub_eq_add_neg]
    exact if_pos hle
  · refine advance_of_step (δ := 0) ?_ (by rw [hstep, add_zero]) hE
    rw [LineScan.advance, if_pos hlast, hcase, add_zero]
    exact if_neg hle

/-- A move is a step along the digital line. -/
theorem advance_eq {k : ℤ} (hk : 0 ≤ k) :
    g.lineScan.advance (g.dir.major g.hi) (g.dir.major g.lo + k)
      (g.dir.minor g.lo + DigitalLine.minor g.run g.rise k) (g.decision k) =
      if k < g.run then
        some (g.dir.major g.lo + (k + 1),
          g.dir.minor g.lo + DigitalLine.minor g.run g.rise (k + 1), g.decision (k + 1))
      else none := by
  have hlast : g.dir.major g.lo + k < g.dir.major g.hi ↔ k < g.run := by
    unfold run
    omega
  by_cases hrun : k < g.run
  · rw [if_pos hrun]
    rcases le_or_gt 0 g.rise with hrise | hrise
    · exact advance_rising hrise hk hrun (hlast.mpr hrun)
    · exact advance_falling hrise (hlast.mpr hrun)
  · rw [if_neg hrun]
    exact if_neg (mt hlast.mp hrun)

theorem move_cursor {k : ℤ} (hk : 0 ≤ k) : g.lineScan.move (g.cursor k) =
    if k < g.run then some (g.cursor (k + 1)) else none := by
  have hadvance := advance_eq (g := g) hk
  have hdir : g.lineScan.dir = g.dir := rfl
  unfold LineScan.move
  cases hd : g.dir with
  | DIR_X =>
    rw [hd] at hadvance
    simp only [hdir, hd, cursor, nth, Dir.point]
    refine (congrArg (Option.map _) hadvance).trans ?_
    split_ifs <;> rfl
  | DIR_Y =>
    rw [hd] at hadvance
    simp only [hdir, hd, cursor, nth, Dir.point]
    refine (congrArg (Option.map _) hadvance).trans ?_
    split_ifs <;> rfl

end Segment

/-- A loop over points that may be left with `break`. -/
def sweep {σ : Type*} (body : Point → σ → Option σ) : List Point → σ → σ
  | [], st => st
  | p :: ps, st =>
    match body p st with
    | none => st
    | some st => sweep body ps st

namespace Segment

variable {g : Segment} {σ : Type*}

/-- The scan from the point after `k` steps on passes through the points from there on. -/
theorem walk_cursor (body : Point → σ → Option σ) (n k : ℕ) (hn : k + n = g.run.toNat) (st : σ) :
    g.lineScan.walk body (g.cursor k) st =
      sweep body ((List.range' k (n + 1)).map fun k : ℕ => g.nth k) st := by
  induction n generalizing k st with
  | zero =>
    have hend : ¬ (k : ℤ) < g.run := by omega
    rw [LineScan.walk, move_cursor (Int.natCast_nonneg k), if_neg hend]
    simp only [zero_add, List.range'_one, List.map_cons, List.map_nil, sweep]
    rfl
  | succ n ih =>
    have hrun : (k : ℤ) < g.run := by
      have := g.run_nonneg
      omega
    rw [LineScan.walk, move_cursor (Int.natCast_nonneg k), if_pos hrun, List.range'_succ,
      List.map_cons, sweep]
    change (match body (g.nth k) st with
      | none => st
      | some st => g.lineScan.walk body (g.cursor ((k + 1 : ℕ) : ℤ)) st) = _
    cases body (g.nth k) st with
    | none => rfl
    | some st => exact ih (k + 1) (by omega) st

theorem cursor_zero (g : Segment) :
    (⟨g.lo.1, g.lo.2, g.lineScan.d⟩ : Cursor) = g.cursor (0 : ℕ) := by
  have hd : g.lineScan.d = g.decision (0 : ℕ) := by
    change (if g.rise ≥ 0 then 2 * g.rise - g.run else 2 * g.rise + g.run) = _
    rw [decision, Nat.cast_zero, DigitalLine.minor_zero g.run_nonneg]
    split_ifs <;> ring
  rw [cursor, hd, Nat.cast_zero, nth_zero]

/-- The scan from the first end passes through the digital line. -/
theorem walk_eq (g : Segment) (body : Point → σ → Option σ) (st : σ) :
    g.lineScan.walk body ⟨g.lo.1, g.lo.2, g.lineScan.d⟩ st = sweep body g.points st := by
  rw [cursor_zero, walk_cursor body g.run.toNat 0 (zero_add _), points, List.range_eq_range']

end Segment

/-! ### The ends in order -/

/-- The side along which the ends are further apart. -/
def longer (P Q : Point) : Dir :=
  if (Q.1 - P.1) * (Q.1 - P.1) > (Q.2 - P.2) * (Q.2 - P.2) then .DIR_X else .DIR_Y

theorem abs_minor_le (P Q : Point) : |(longer P Q).minor Q - (longer P Q).minor P| ≤
    |(longer P Q).major Q - (longer P Q).major P| := by
  unfold longer
  split_ifs with h
  · exact sq_le_sq.mp (by simp only [sq]; exact le_of_lt h)
  · exact sq_le_sq.mp (by simp only [sq]; exact not_lt.mp h)

/-- The two ends in the order of the scan. -/
def segment (P Q : Point) : Segment :=
  if h : (longer P Q).major Q < (longer P Q).major P then
    { dir := longer P Q, lo := Q, hi := P
      slope := by
        rw [← abs_of_pos (sub_pos.mpr h), abs_sub_comm, abs_sub_comm ((longer P Q).major P)]
        exact abs_minor_le P Q }
  else
    { dir := longer P Q, lo := P, hi := Q
      slope := by
        rw [← abs_of_nonneg (sub_nonneg.mpr (not_lt.mp h))]
        exact abs_minor_le P Q }

theorem setup_eq (P Q : Point) : LineScan.setup P Q = (segment P Q).lineScan := by
  unfold LineScan.setup segment longer
  simp only [id_eq]
  by_cases hdir : (Q.1 - P.1) * (Q.1 - P.1) > (Q.2 - P.2) * (Q.2 - P.2)
  · simp only [if_pos hdir, LineScan.SWAP_eq]
    by_cases hswap : Q.1 < P.1
    · rw [dif_pos (show Dir.DIR_X.major Q < Dir.DIR_X.major P from hswap)]
      simp only [if_pos hswap]
      rfl
    · rw [dif_neg (show ¬ Dir.DIR_X.major Q < Dir.DIR_X.major P from hswap)]
      simp only [if_neg hswap]
      rfl
  · simp only [if_neg hdir, LineScan.SWAP_eq]
    by_cases hswap : Q.2 < P.2
    · rw [dif_pos (show Dir.DIR_Y.major Q < Dir.DIR_Y.major P from hswap)]
      simp only [if_pos hswap]
      rfl
    · rw [dif_neg (show ¬ Dir.DIR_Y.major Q < Dir.DIR_Y.major P from hswap)]
      simp only [if_neg hswap]
      rfl

/-- The digital line between two points. -/
def line (P Q : Point) : List Point := (segment P Q).points

/-- The scan passes through the digital line between the ends. -/
theorem scan_eq {σ : Type*} (P Q : Point) (body : Point → σ → Option σ) (st : σ) :
    LineScan.scan P Q body st = sweep body (line P Q) st := by
  have hscan := (segment P Q).walk_eq body st
  rw [← setup_eq] at hscan
  have hlo : (LineScan.setup P Q).xmin = (segment P Q).lo.1 ∧
      (LineScan.setup P Q).ymin = (segment P Q).lo.2 := by
    rw [setup_eq]
    exact ⟨rfl, rfl⟩
  rw [LineScan.scan, hlo.1, hlo.2]
  exact hscan

/-! ### The digital line between two points -/

section Points

variable {P Q p : Point}

theorem segment_dir (P Q : Point) : (segment P Q).dir = longer P Q := by
  unfold segment
  split_ifs <;> rfl

theorem segment_ends (P Q : Point) : ((segment P Q).lo = P ∧ (segment P Q).hi = Q) ∨
    ((segment P Q).lo = Q ∧ (segment P Q).hi = P) := by
  unfold segment
  split_ifs
  · exact Or.inr ⟨rfl, rfl⟩
  · exact Or.inl ⟨rfl, rfl⟩

theorem longer_comm (P Q : Point) : longer P Q = longer Q P := by
  unfold longer
  rw [← neg_sub P.1 Q.1, ← neg_sub P.2 Q.2, neg_mul_neg, neg_mul_neg]

/-- Points at one place along the longer side are the same. -/
theorem eq_of_major_eq (h : (longer P Q).major P = (longer P Q).major Q) : P = Q := by
  have habs := abs_minor_le P Q
  rw [h, sub_self, abs_zero] at habs
  have hminor := sub_eq_zero.mp (abs_nonpos_iff.mp habs)
  calc P = (longer P Q).point ((longer P Q).major P) ((longer P Q).minor P) :=
        ((longer P Q).point_eq P).symm
    _ = (longer P Q).point ((longer P Q).major Q) ((longer P Q).minor Q) := by rw [h, hminor]
    _ = Q := (longer P Q).point_eq Q

/-- The order of the ends does not matter. -/
theorem segment_comm (P Q : Point) : segment P Q = segment Q P := by
  rcases lt_trichotomy ((longer P Q).major P) ((longer P Q).major Q) with h | h | h
  · have h' : (longer Q P).major P < (longer Q P).major Q := by rwa [longer_comm Q P]
    unfold segment
    rw [dif_neg (not_lt.mpr h.le), dif_pos h']
    simp only [longer_comm Q P]
  · rw [eq_of_major_eq h]
  · have h' : (longer Q P).major Q < (longer Q P).major P := by rwa [longer_comm Q P]
    unfold segment
    rw [dif_pos h, dif_neg (not_lt.mpr h'.le)]
    simp only [longer_comm Q P]

theorem line_comm (P Q : Point) : line P Q = line Q P := by
  rw [line, segment_comm, line]

theorem run_segment (P Q : Point) : (segment P Q).run = max |Q.1 - P.1| |Q.2 - P.2| := by
  have habs : (segment P Q).run = |(longer P Q).major Q - (longer P Q).major P| := by
    rw [← abs_of_nonneg (segment P Q).run_nonneg, Segment.run, segment_dir]
    rcases segment_ends P Q with ⟨hlo, hhi⟩ | ⟨hlo, hhi⟩
    · rw [hlo, hhi]
    · rw [hlo, hhi, abs_sub_comm]
  have hle := abs_minor_le P Q
  rw [habs]
  cases hd : longer P Q with
  | DIR_X =>
    rw [hd] at hle
    exact (max_eq_left hle).symm
  | DIR_Y =>
    rw [hd] at hle
    exact (max_eq_right hle).symm

theorem mem_line : p ∈ line P Q ↔
    ∃ k : ℕ, (k : ℤ) ≤ (segment P Q).run ∧ p = (segment P Q).nth k := by
  have hrun := (segment P Q).run_nonneg
  simp only [line, Segment.points, List.mem_map, List.mem_range]
  constructor
  · rintro ⟨k, hk, rfl⟩
    exact ⟨k, by omega, rfl⟩
  · rintro ⟨k, hk, rfl⟩
    exact ⟨k, by omega, rfl⟩

theorem length_line (P Q : Point) :
    ((line P Q).length : ℤ) = max |Q.1 - P.1| |Q.2 - P.2| + 1 := by
  have hrun := (segment P Q).run_nonneg
  rw [line, Segment.points, List.length_map, List.length_range, ← run_segment]
  omega

/-- Each point is one further along the longer side than the one before. -/
theorem major_line (P Q : Point) : (line P Q).map (longer P Q).major =
    (List.range (line P Q).length).map fun k : ℕ => (longer P Q).major (segment P Q).lo + k := by
  rw [line, Segment.points, List.map_map, List.length_map, List.length_range]
  refine List.map_congr_left fun k _ => ?_
  rw [Function.comp_apply, Segment.nth, segment_dir, Dir.major_point]

theorem head_line (P Q : Point) : (line P Q).head? = some (segment P Q).lo := by
  rw [line, Segment.points, List.head?_map, List.head?_range]
  simp [Segment.nth_zero]

theorem getLast_line (P Q : Point) : (line P Q).getLast? = some (segment P Q).hi := by
  have hrun := (segment P Q).run_nonneg
  have hcast : (((segment P Q).run.toNat : ℕ) : ℤ) = (segment P Q).run := by omega
  rw [line, Segment.points, List.range_succ, List.map_append, List.map_singleton,
    List.getLast?_append]
  simp only [List.getLast?_singleton, Option.some_or]
  rw [hcast, Segment.nth_run]

/-- Up to a later point the line stays in the rectangle of that point and the start. -/
theorem Segment.nth_mem_uIcc {g : Segment} {k l : ℤ} (hk : 0 ≤ k) (hkl : k ≤ l) :
    g.nth k ∈ Set.uIcc g.lo (g.nth l) := by
  have hmajor : g.dir.major g.lo + k ∈
      Set.uIcc (g.dir.major g.lo) (g.dir.major g.lo + l) :=
    Set.mem_uIcc_of_le (by omega) (by omega)
  have hminor : g.dir.minor g.lo + DigitalLine.minor g.run g.rise k ∈
      Set.uIcc (g.dir.minor g.lo) (g.dir.minor g.lo + DigitalLine.minor g.run g.rise l) := by
    have h : DigitalLine.minor g.run g.rise k ∈ Set.uIcc 0 (DigitalLine.minor g.run g.rise l) :=
      DigitalLine.minor_mem_uIcc g.run_nonneg hk hkl
    rw [Set.mem_uIcc] at h ⊢
    omega
  rw [Set.uIcc_prod_eq, nth, nth]
  cases hd : g.dir with
  | DIR_X =>
    rw [hd] at hmajor hminor
    exact ⟨hmajor, hminor⟩
  | DIR_Y =>
    rw [hd] at hmajor hminor
    exact ⟨hminor, hmajor⟩

/-- A digital line stays in the rectangle of its ends. -/
theorem mem_uIcc_of_mem_line (h : p ∈ line P Q) : p ∈ Set.uIcc P Q := by
  obtain ⟨k, hk, rfl⟩ := mem_line.mp h
  have hmem := Segment.nth_mem_uIcc (g := segment P Q) (Int.natCast_nonneg k) hk
  rw [Segment.nth_run] at hmem
  rcases segment_ends P Q with ⟨hlo, hhi⟩ | ⟨hlo, hhi⟩
  · rwa [hlo, hhi] at hmem
  · rwa [hlo, hhi, Set.uIcc_comm] at hmem

/-- Twice the area of the triangle of two ends and a point. -/
def cross (P Q p : Point) : ℤ := (Q.1 - P.1) * (p.2 - P.2) - (Q.2 - P.2) * (p.1 - P.1)

theorem cross_comm (P Q p : Point) : cross Q P p = -cross P Q p := by
  unfold cross
  ring

theorem Segment.abs_cross_nth (g : Segment) (k : ℤ) : |cross g.lo g.hi (g.nth k)| =
    |g.rise * k - g.run * DigitalLine.minor g.run g.rise k| := by
  rw [abs_eq_abs, cross, nth]
  cases hd : g.dir with
  | DIR_X =>
    right
    simp only [Dir.point, run, rise, hd, Dir.major, Dir.minor]
    ring
  | DIR_Y =>
    left
    simp only [Dir.point, run, rise, hd, Dir.major, Dir.minor]
    ring

/-- The points of a digital line are at most half a unit away from the line. -/
theorem two_mul_cross_le (h : p ∈ line P Q) :
    2 * |cross P Q p| ≤ max |Q.1 - P.1| |Q.2 - P.2| := by
  obtain ⟨k, hk, rfl⟩ := mem_line.mp h
  have hcross : |cross P Q ((segment P Q).nth k)| =
      |cross (segment P Q).lo (segment P Q).hi ((segment P Q).nth k)| := by
    rcases segment_ends P Q with ⟨hlo, hhi⟩ | ⟨hlo, hhi⟩
    · rw [hlo, hhi]
    · rw [hlo, hhi, cross_comm P Q, abs_neg]
  rw [hcross, Segment.abs_cross_nth, ← run_segment]
  rcases (segment P Q).run_nonneg.eq_or_lt with hzero | hpos
  · have hk0 : (k : ℤ) = 0 := by omega
    simp [← hzero, hk0]
  · have hnear := DigitalLine.near_minor hpos (segment P Q).rise k
    have habs := abs_le.mpr ⟨hnear.1.le, hnear.2⟩
    rwa [abs_mul, abs_two] at habs

end Points

/-! ### Painting -/

/-- Pixels of which those among some points have the colour. -/
def paint (pixels : ℕ → ℕ → ℤ) (ps : List Point) (color : ℤ) (i j : ℕ) : ℤ :=
  if ((i : ℤ), (j : ℤ)) ∈ ps then color else pixels i j

theorem paint_nil (pixels : ℕ → ℕ → ℤ) (color : ℤ) : paint pixels [] color = pixels := by
  funext i j
  exact if_neg List.not_mem_nil

theorem paint_paint (pixels : ℕ → ℕ → ℤ) (ps qs : List Point) (color : ℤ) :
    paint (paint pixels ps color) qs color = paint pixels (ps ++ qs) color := by
  funext i j
  unfold paint
  by_cases hqs : ((i : ℤ), (j : ℤ)) ∈ qs
  · simp [hqs]
  · simp [hqs]

/-- Storing one pixel paints a point. -/
theorem update_eq_paint (pixels : ℕ → ℕ → ℤ) (m n : ℕ) (color : ℤ) :
    Function.update pixels m (Function.update (pixels m) n color) =
      paint pixels [((m : ℤ), (n : ℤ))] color := by
  funext i j
  refine (update_update_apply pixels (m, n) (i, j) color).trans (if_congr ?_ rfl rfl)
  simp only [List.mem_singleton, Prod.mk.injEq, Nat.cast_inj]

end SchoolProjects.Vision
