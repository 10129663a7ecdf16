import SchoolProjects.OSProject.Machine

/-! Two properties of every state of the OS simulator that fail in some runs: the
address ranges of live processes are disjoint and inside the memory, and `root` is
the first block. Runs that avoid the two defects have them: `insert` filling a hole
that has a block after it (the block keeps a `prev` link to the hole), and
`deleteProcess` freeing the block `root` points to. -/

namespace SchoolProjects.OSProject

open Transition LinkedChain

namespace Machine

/-! ### Address ranges -/

/-- The ranges of live processes lie within `m` bytes and do not overlap. -/
structure RangesOk (m : ℕ) (s : Machine) : Prop where
  within : ∀ p, s.Live p → ∃ x, s.mem.heap.read p = some x ∧ 1 ≤ x.size ∧
    x.end_ = x.start + x.size - 1 ∧ x.end_ < m
  disjoint : ∀ p q, s.Live p → s.Live q → p ≠ q → ∀ x y, s.mem.heap.read p = some x →
    s.mem.heap.read q = some y → x.end_ < y.start ∨ y.end_ < x.start

/-- An admissible command that, if it is `A`, finds `root` allocated and does not fill
a hole that has a block after it. -/
def Safe (s : Machine) (c : Command) : Prop :=
  s.Admissible c ∧ ∀ priority size, c = .A priority size →
    (s.mem.heap.read s.mem.root).isSome ∧ ¬ s.mem.FillsInner size

/-- `t` would free the block `root` points to: the running process is that block, or
the hole in that block would take it over, and the hole after it would not grow to
the whole memory. -/
def LosesHead (s : Machine) : Prop :=
  ∃ p x n z, s.sched.currentProcess = some p ∧ s.mem.heap.read p = some x ∧
    x.next = some n ∧ s.mem.heap.read n = some z ∧ z.empty = true ∧
    ((p = s.mem.root ∧ x.size + z.size < s.mem.maxVal) ∨
      ∃ y, x.prev = some s.mem.root ∧ s.mem.heap.read s.mem.root = some y ∧ y.empty = true ∧
        y.size + x.size + z.size < s.mem.maxVal)

section Steps

variable {s s' : Machine} {bs : List (ℕ × Block)}

theorem first_of_read {m : Memory} (hm : m.Linked bs) (hr : (m.heap.read m.root).isSome) :
    first bs none = some m.root :=
  hm.root.resolve_left fun h => by simp [h] at hr

/-- Two entries of a list stand in one order or the other. -/
theorem exists_between {α : Type*} {l : List α} {a b : α} (ha : a ∈ l) (hb : b ∈ l) (hne : a ≠ b) :
    (∃ l₁ r, l = l₁ ++ a :: r ∧ b ∈ r) ∨ (∃ l₁ r, l = l₁ ++ b :: r ∧ a ∈ r) := by
  obtain ⟨l₁, r, rfl⟩ := List.append_of_mem ha
  rcases List.mem_append.mp hb with hb | hb
  · obtain ⟨l₂, r₂, rfl⟩ := List.append_of_mem hb
    exact Or.inr ⟨l₂, r₂ ++ a :: r, by simp, by simp⟩
  · exact Or.inl ⟨l₁, r, rfl, (List.mem_cons.mp hb).resolve_left hne.symm⟩

theorem Inv.rangesOk (hi : s.Inv bs) : s.RangesOk s.mem.maxVal where
  within p hp := by
    obtain ⟨x, hx, -⟩ := hi.live p hp
    obtain ⟨pv, nx, hr⟩ := hi.linked.seg.read_of_mem hx
    obtain ⟨-, h1, h2, h3⟩ := hi.linked.tiles.mem (b := x) (List.mem_map_of_mem hx)
    exact ⟨_, hr, h1, by simp only [Block.node]; omega, by simp only [Block.node]; omega⟩
  disjoint p q hp hq hne x y hrp hrq := by
    obtain ⟨x', hx, -⟩ := hi.live p hp
    obtain ⟨y', hy, -⟩ := hi.live q hq
    obtain ⟨_, _, hrx⟩ := hi.linked.seg.read_of_mem hx
    obtain ⟨_, _, hry⟩ := hi.linked.seg.read_of_mem hy
    obtain rfl := Option.some.inj (hrp.symm.trans hrx)
    obtain rfl := Option.some.inj (hrq.symm.trans hry)
    have ht := hi.linked.tiles
    rcases exists_between hx hy (fun h => hne (congrArg Prod.fst h)) with
      ⟨l, r, rfl, hr⟩ | ⟨l, r, rfl, hr⟩
    · rw [blocks_append, blocks_cons] at ht
      exact Or.inl (ht.ordered (List.mem_map_of_mem hr))
    · rw [blocks_append, blocks_cons] at ht
      exact Or.inr (ht.ordered (List.mem_map_of_mem hr))

/-- What deleting the running process does to the first block, in terms of the
nodes `LosesHead` speaks of. -/
theorem keeps_head {p : ℕ} {x : Block} {l r : List (ℕ × Block)}
    (hm : s.mem.Linked (l ++ ([(p, x)] ++ r))) (hc : s.sched.currentProcess = some p)
    (hfirst : first (l ++ ([(p, x)] ++ r)) none = some s.mem.root) (hgood : ¬ s.LosesHead)
    (q : ℕ) (z : Block) (r₀ : List (ℕ × Block)) (hr : r = (q, z) :: r₀) (hz : z.empty = true) :
    (l = [] → s.mem.maxVal ≤ x.size + z.size) ∧
      ∀ p' y, l = [(p', y)] → y.empty = true → s.mem.maxVal ≤ y.size + x.size + z.size := by
  subst hr
  have hp : s.mem.heap.read p = some (x.node (last none l) (some q)) := hm.seg.read_mid
  have hq : s.mem.heap.read q = some (z.node (some p) (first r₀ none)) :=
    ((seg_append _ _ _ _ _).mp hm.seg).2.2.1
  constructor
  · rintro rfl
    by_contra hlt
    exact hgood ⟨p, _, q, _, hc, hp, rfl, hq, hz, Or.inl ⟨by simpa using hfirst, by
      simp only [Block.node_size]; omega⟩⟩
  · rintro p' y rfl hy
    by_contra hlt
    obtain rfl : p' = s.mem.root := by simpa using hfirst
    exact hgood ⟨p, _, q, _, hc, hp, rfl, hq, hz, Or.inr ⟨_, rfl, hm.seg.1, hy, by
      simp only [Block.node_size]; omega⟩⟩

/-- A safe command is defined and keeps the invariant; the first block stays the
root unless `t` loses it. -/
theorem Inv.step (hi : s.Inv bs) {c : Command} (hc : s.Safe c) :
    ∃ s' bs', s.step c = some s' ∧ s'.Inv bs' ∧ s'.mem.maxVal = s.mem.maxVal ∧
      Kernel.Step s.kernel c s'.kernel ∧
      (first bs none = some s.mem.root → (c = .t → ¬ s.LosesHead) →
        first bs' none = some s'.mem.root) := by
  by_cases hA : ∃ priority size, c = .A priority size
  · obtain ⟨priority, size, rfl⟩ := hA
    obtain ⟨hr, hgood⟩ := hc.2 priority size rfl
    rcases Memory.insert_ok priority hi.linked (first_of_read hi.linked hr) hc.1.1 hgood with
      hins | ⟨mem, bs', hole, hins, hm, hf, hmax, hfirst, hlive⟩
    · exact ⟨s, bs, by simp [Machine.step, insert, hins], hi, rfl,
        .reject s.kernel priority size, fun h _ => h⟩
    · obtain ⟨sched, hadd, hstep, hi'⟩ :=
        hi.create priority size hm hf ⟨rfl, rfl⟩ hlive
      exact ⟨_, bs', by simp [Machine.step, insert, hins, hadd], hi', hmax, hstep,
        fun _ _ => hfirst⟩
  by_cases ht : c = .t
  · subst ht
    cases hcur : s.sched.currentProcess with
    | none =>
      exact ⟨s, bs, by simp [Machine.step, finishProcess, hcur], hi, rfl,
        .idle s.kernel hcur, fun h _ => h⟩
    | some p =>
      obtain ⟨x, hx, -⟩ := hi.current_mem hcur
      obtain ⟨l, r, rfl⟩ := List.append_of_mem hx
      obtain ⟨mem, bs', hdel, hm, hf, hmax, -, hlive, hhead⟩ := Memory.deleteProcess_ok hi.linked
      obtain ⟨hstep, hi'⟩ := hi.finish hcur hm hf hlive
      exact ⟨_, bs', by simp [Machine.step, finishProcess, hcur, hdel], hi', hmax, hstep,
        fun hfirst hgood => hhead hfirst (keeps_head hi.linked hcur hfirst (hgood rfl))⟩
  · obtain ⟨s', hstep, hi', hmem, hk⟩ :=
      hi.device_step hc.1 (fun priority size h => hA ⟨priority, size, h⟩) ht
    exact ⟨s', bs, hstep, hi', by rw [hmem], hk, fun h _ => by rw [hmem]; exact h⟩

end Steps

/-- The step function on admissible commands only. -/
def checked (s : Machine) (c : Command) : Option Machine :=
  if s.Admissible c then s.step c else none

theorem run_of_checked {s₀ s : Machine} {tr : List Command} (h : tr.foldlM checked s₀ = some s) :
    Run (Guarded Admissible (ofOption step)) s₀ tr s := by
  rw [guarded_ofOption]
  exact (run_iff_foldlM checked s₀ tr s).mpr h

/-- A test that safe commands pass. -/
def testSafe (s : Machine) (c : Command) : Bool :=
  s.Admissible c &&
    match c with
    | .A _ size => (s.mem.heap.read s.mem.root).isSome && s.mem.sparesInner size
    | _ => true

theorem safe_of_test (s : Machine) (c : Command) (h : s.testSafe c = true) : s.Safe c := by
  simp only [testSafe, Bool.and_eq_true, decide_eq_true_eq] at h
  refine ⟨h.1, fun priority size hc => ?_⟩
  subst hc
  exact ⟨(Bool.and_eq_true _ _ ▸ h.2).1, Memory.not_fillsInner (Bool.and_eq_true _ _ ▸ h.2).2⟩

/-- The invariant after every run of safe commands. -/
theorem run_inv {m disks printers : ℕ} (h0 : 1 ≤ m) (h1 : m < 2 ^ 32) (hd : 1 ≤ disks)
    (hp : 1 ≤ printers) {tr : List Command} {s : Machine}
    (hr : Run (Guarded Safe (ofOption step)) (start m disks printers) tr s) :
    s.mem.maxVal = m ∧ ∃ bs, s.Inv bs := by
  refine hr.invariant (fun s => s.mem.maxVal = m ∧ ∃ bs, s.Inv bs) ?_ ?_
  · exact ⟨(by simp only [start, Memory.new]; rw [uint32_int32, uint32_natCast h1]), _,
      start_inv h0 h1 hd hp⟩
  · rintro s c s' ⟨hmax, bs, hi⟩ ⟨hc, hstep⟩
    obtain ⟨s₁, bs', hstep', hi', hmax', -, -⟩ := hi.step hc
    obtain rfl := Option.some.inj (hstep'.symm.trans hstep)
    exact ⟨hmax'.trans hmax, bs', hi'⟩

/-- A run of safe commands is a run of the scheduler alone, so what holds of every
state of the scheduler holds of the machine. -/
theorem run_refines {m disks printers : ℕ} (h0 : 1 ≤ m) (h1 : m < 2 ^ 32) (hd : 1 ≤ disks)
    (hp : 1 ≤ printers) {tr : List Command} {s : Machine}
    (hr : Run (Guarded Safe (ofOption step)) (start m disks printers) tr s) :
    Run Kernel.Step (start m disks printers).kernel tr s.kernel ∧ s.kernel.Sound := by
  obtain ⟨-, bs, hi⟩ := run_inv h0 h1 hd hp hr
  refine ⟨?_, hi.sched.sound⟩
  rw [← List.map_id tr]
  refine hr.simulation kernel id (fun s => ∃ bs, s.Inv bs) ⟨_, start_inv h0 h1 hd hp⟩ ?_ ?_
  · rintro s c s' ⟨bs, hi⟩ ⟨hc, hstep⟩
    obtain ⟨s₁, bs', hstep', hi', -⟩ := hi.step hc
    obtain rfl := Option.some.inj (hstep'.symm.trans hstep)
    exact ⟨bs', hi'⟩
  · rintro s c s' ⟨bs, hi⟩ ⟨hc, hstep⟩
    obtain ⟨s₁, bs', hstep', -, -, hk, -⟩ := hi.step hc
    obtain rfl := Option.some.inj (hstep'.symm.trans hstep)
    exact hk

/-- Runs of safe commands keep the ranges apart, and every safe command is defined. -/
theorem run_ranges {m disks printers : ℕ} (h0 : 1 ≤ m) (h1 : m < 2 ^ 32) (hd : 1 ≤ disks)
    (hp : 1 ≤ printers) {tr : List Command} {s : Machine}
    (hr : Run (Guarded Safe (ofOption step)) (start m disks printers) tr s) :
    s.RangesOk m ∧ ∀ c, s.Safe c → (s.step c).isSome := by
  obtain ⟨rfl, bs, hi⟩ := run_inv h0 h1 hd hp hr
  refine ⟨hi.rangesOk, fun c hc => ?_⟩
  obtain ⟨s', -, hs', -⟩ := hi.step hc
  rw [hs']
  rfl

/-- Two processes of three have ended, their ranges are one hole of four bytes, and a fourth
process has three of them. -/
theorem run_ranges_merge : ∃ s x y,
    Run (Guarded Safe (ofOption step)) (start 8 1 1) [.A 0 2, .A 0 2, .A 0 2, .t, .t, .A 0 3] s ∧
    s.created = [1, 2, 3, 4] ∧ s.finished = [1, 2] ∧
    s.mem.heap.read 3 = some x ∧ (x.start, x.end_) = (4, 5) ∧
    s.mem.heap.read 4 = some y ∧ (y.start, y.end_) = (0, 2) ∧
    s.RangesOk 8 ∧ ∀ c, s.Safe c → (s.step c).isSome := by
  have hs : (([.A 0 2, .A 0 2, .A 0 2, .t, .t, .A 0 3] : List Command).foldlM
      (fun s c => if testSafe s c then step s c else none) (start 8 1 1)).map (fun s =>
        (s.created, s.finished, (s.mem.heap.read 3).map fun x => (x.start, x.end_),
          (s.mem.heap.read 4).map fun x => (x.start, x.end_))) =
      some ([1, 2, 3, 4], [1, 2], some (4, 5), some (0, 2)) := by decide +kernel
  obtain ⟨s, hrun, hread⟩ := Option.map_eq_some_iff.mp hs
  simp only [Prod.mk.injEq, Option.map_eq_some_iff] at hread
  obtain ⟨hc, hf, ⟨x, hx, hxr⟩, y, hy, hyr⟩ := hread
  have hr := run_of_test safe_of_test hrun
  exact ⟨s, x, y, hr, hc, hf, hx, Prod.ext hxr.1 hxr.2, hy, Prod.ext hyr.1 hyr.2,
    run_ranges (by omega) (by omega) le_rfl le_rfl hr⟩

/-- The fourth process fills the hole in front of two others. When these have ended,
the fifth is placed over the whole memory while the fourth still runs. -/
theorem ranges_overlap : ¬ ∀ (m disks printers : ℕ) (tr : List Command) (s : Machine),
    1 ≤ m → m < 2 ^ 32 → 1 ≤ disks → 1 ≤ printers →
    Run (Guarded Admissible (ofOption step)) (start m disks printers) tr s → s.RangesOk m := by
  intro h
  have hrun : (([.A 0 1, .A 0 1, .A 0 1, .t, .A 0 1, .t, .t, .A 0 4] : List Command).foldlM
      checked (start 4 1 1)).map (fun s =>
        (s.created, s.finished, (s.mem.heap.read 4).map fun x => (x.start, x.end_),
          (s.mem.heap.read 5).map fun x => (x.start, x.end_))) =
      some ([1, 2, 3, 4, 5], [1, 2, 3], some (0, 0), some (0, 3)) := by decide +kernel
  obtain ⟨s, hs, hread⟩ := Option.map_eq_some_iff.mp hrun
  simp only [Prod.mk.injEq, Option.map_eq_some_iff] at hread
  obtain ⟨hc, hf, ⟨x, hx, hx0, -⟩, y, hy, hy0, -⟩ := hread
  have hok := h 4 1 1 _ s (by omega) (by omega) le_rfl le_rfl
    (run_of_checked hs)
  have := hok.disjoint 4 5 (by simp [Live, hc, hf]) (by simp [Live, hc, hf]) (by omega) x y hx hy
  omega

/-! ### The first block -/

/-- The way along `next` from a block. -/
def Along (h : Heap Process) : ℕ → ℕ → Prop :=
  Relation.ReflTransGen fun a b => ∃ p, h.read a = some p ∧ p.next = some b

/-- `root` is allocated, has no block before it and starts at 0, and the walk from it
meets allocated blocks only. -/
structure HeadOk (s : Machine) : Prop where
  head : ∃ x, s.mem.heap.read s.mem.root = some x ∧ x.prev = none ∧ x.start = 0
  walk : ∀ a, Along s.mem.heap s.mem.root a → (s.mem.heap.read a).isSome

/-- An admissible command that does not fill a hole with a block after it, and does
not free the block `root` points to. -/
def KeepsHead (s : Machine) (c : Command) : Prop :=
  s.Admissible c ∧ (∀ priority size, c = .A priority size → ¬ s.mem.FillsInner size) ∧
    (c = .t → ¬ s.LosesHead)

instance (s : Machine) : Decidable s.LosesHead :=
  decidable_of_iff (∃ p ∈ s.sched.currentProcess, ∃ x ∈ s.mem.heap.read p, ∃ n ∈ x.next,
    ∃ z ∈ s.mem.heap.read n, z.empty = true ∧ ((p = s.mem.root ∧ x.size + z.size < s.mem.maxVal) ∨
      ∃ y ∈ s.mem.heap.read s.mem.root, x.prev = some s.mem.root ∧ y.empty = true ∧
        y.size + x.size + z.size < s.mem.maxVal)) (by
    simp only [LosesHead, Option.mem_def]
    constructor
    · rintro ⟨p, hp, x, hx, n, hn, z, hz, he, h | ⟨y, hy, hprev, hye, hlt⟩⟩
      · exact ⟨p, x, n, z, hp, hx, hn, hz, he, Or.inl h⟩
      · exact ⟨p, x, n, z, hp, hx, hn, hz, he, Or.inr ⟨y, hprev, hy, hye, hlt⟩⟩
    · rintro ⟨p, x, n, z, hp, hx, hn, hz, he, h | ⟨y, hprev, hy, hye, hlt⟩⟩
      · exact ⟨p, hp, x, hx, n, hn, z, hz, he, Or.inl h⟩
      · exact ⟨p, hp, x, hx, n, hn, z, hz, he, Or.inr ⟨y, hy, hprev, hye, hlt⟩⟩)

/-- A test that commands pass which keep the head. -/
def testKeepsHead (s : Machine) (c : Command) : Bool :=
  s.Admissible c &&
    match c with
    | .A _ size => s.mem.sparesInner size
    | .t => ¬ s.LosesHead
    | _ => true

theorem keepsHead_of_test (s : Machine) (c : Command) (h : s.testKeepsHead c = true) :
    s.KeepsHead c := by
  simp only [testKeepsHead, Bool.and_eq_true, decide_eq_true_eq] at h
  refine ⟨h.1, fun priority size hc => ?_, fun hc => ?_⟩
  · subst hc
    exact Memory.not_fillsInner h.2
  · subst hc
    simpa using h.2

theorem along_mem {h : Heap Process} {bs : List (ℕ × Block)} (hs : Seg Block.node h none bs none)
    {a b : ℕ} (ha : a ∈ locs bs) (hab : Along h a b) : b ∈ locs bs := by
  induction hab with
  | refl => exact ha
  | tail _ hstep ih =>
    obtain ⟨p, hr, hn⟩ := hstep
    obtain ⟨x, hx⟩ := mem_locs.mp ih
    obtain ⟨l, r, rfl⟩ := List.append_of_mem hx
    obtain rfl := Option.some.inj (hr.symm.trans hs.read_mid)
    have := mem_of_first hn
    simp [this]

theorem Inv.headOk {s : Machine} {bs : List (ℕ × Block)} (hi : s.Inv bs)
    (hfirst : first bs none = some s.mem.root) : s.HeadOk := by
  obtain ⟨x, r, rfl⟩ := first_eq_some hfirst
  exact ⟨⟨_, hi.linked.seg.1, rfl, hi.linked.tiles.1⟩,
    fun a ha => hi.linked.seg.read_isSome (along_mem hi.linked.seg (by simp) ha)⟩

/-- Where `root` is the first block, a command that keeps the head is safe. -/
theorem KeepsHead.safe {s : Machine} {c : Command} (hc : s.KeepsHead c) (hs : s.HeadOk) :
    s.Safe c := by
  refine ⟨hc.1, fun priority size h => ⟨?_, hc.2.1 priority size h⟩⟩
  obtain ⟨x, hx, -⟩ := hs.head
  simp [hx]

/-- Runs of commands that keep the head have `root` at the first block in every state,
and every such command is defined. -/
theorem run_head {m disks printers : ℕ} (h0 : 1 ≤ m) (h1 : m < 2 ^ 32) (hd : 1 ≤ disks)
    (hp : 1 ≤ printers) {tr : List Command} {s : Machine}
    (hr : Run (Guarded KeepsHead (ofOption step)) (start m disks printers) tr s) :
    s.HeadOk ∧ ∀ c, s.KeepsHead c → (s.step c).isSome := by
  have hinv : ∃ bs, s.Inv bs ∧ first bs none = some s.mem.root := by
    refine hr.invariant (fun s => ∃ bs, s.Inv bs ∧ first bs none = some s.mem.root) ?_ ?_
    · exact ⟨_, start_inv h0 h1 hd hp, rfl⟩
    · rintro s c s' ⟨bs, hi, hfirst⟩ ⟨hc, hstep⟩
      obtain ⟨s₁, bs', hstep', hi', -, -, hhead⟩ := hi.step (hc.safe (hi.headOk hfirst))
      obtain rfl := Option.some.inj (hstep'.symm.trans hstep)
      exact ⟨bs', hi', hhead hfirst hc.2.2⟩
  obtain ⟨bs, hi, hfirst⟩ := hinv
  refine ⟨hi.headOk hfirst, fun c hc => ?_⟩
  obtain ⟨s', -, hs', -⟩ := hi.step (hc.safe (hi.headOk hfirst))
  rw [hs']
  rfl

/-- The hole that two ended processes have left at the front is one block, and the root. -/
theorem run_head_merge : ∃ s x,
    Run (Guarded KeepsHead (ofOption step)) (start 8 1 1) [.A 0 2, .A 0 2, .A 0 2, .t, .t] s ∧
    s.mem.root = 1 ∧ s.mem.heap.read 1 = some x ∧ (x.empty, x.size, x.next) = (true, 4, some 3) ∧
    s.HeadOk ∧ ∀ c, s.KeepsHead c → (s.step c).isSome := by
  have hs : (([.A 0 2, .A 0 2, .A 0 2, .t, .t] : List Command).foldlM
      (fun s c => if testKeepsHead s c then step s c else none) (start 8 1 1)).map (fun s =>
        (s.mem.root, (s.mem.heap.read 1).map fun x => (x.empty, x.size, x.next))) =
      some (1, some (true, 4, some 3)) := by decide +kernel
  obtain ⟨s, hrun, hread⟩ := Option.map_eq_some_iff.mp hs
  obtain ⟨hroot, hmap⟩ := Prod.mk.inj hread
  obtain ⟨x, hx, hxr⟩ := Option.map_eq_some_iff.mp hmap
  have hr := run_of_test keepsHead_of_test hrun
  exact ⟨s, x, hr, hroot, hx, hxr, run_head (by omega) (by omega) le_rfl le_rfl hr⟩

/-- The first block of two that end while a third lives is freed under `root`. -/
theorem head_freed : ¬ ∀ (m disks printers : ℕ) (tr : List Command) (s : Machine),
    1 ≤ m → m < 2 ^ 32 → 1 ≤ disks → 1 ≤ printers →
    Run (Guarded Admissible (ofOption step)) (start m disks printers) tr s → s.HeadOk := by
  intro h
  have hrun : (([.A 0 1, .A 1 1, .A 0 1, .t, .t] : List Command).foldlM
      checked (start 4 1 1)).map (fun s =>
        (s.mem.heap.read s.mem.root).isSome) = some false := by decide +kernel
  obtain ⟨s, hs, hread⟩ := Option.map_eq_some_iff.mp hrun
  have hok := h 4 1 1 _ s (by omega) (by omega) le_rfl le_rfl
    (run_of_checked hs)
  obtain ⟨x, hx, -⟩ := hok.head
  simp [hx] at hread

end Machine

end SchoolProjects.OSProject
