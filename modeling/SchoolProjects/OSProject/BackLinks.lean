import SchoolProjects.OSProject.FirstFit
import SchoolProjects.OSProject.Safety

/-! The links back. After `insert` on a well-formed block list every block reached
along `next` is the `prev` of the block after it, unless the hole was filled and a
block follows it: both copies of the code in `insert` redirect the `prev` of what is
left of the hole, and neither redirects the `prev` of the block after a hole that is
gone. -/

namespace SchoolProjects.OSProject

open LinkedChain

namespace Memory

/-- The first block has no block before it, and every block reached along `next` is
the `prev` of its successor. -/
structure BackLinked (m : Memory) : Prop where
  head : ∃ p, m.heap.read m.root = some p ∧ p.prev = none
  back : ∀ a p c, Machine.Along m.heap m.root a → m.heap.read a = some p → p.next = some c →
    ∃ q, m.heap.read c = some q ∧ q.prev = some a

section Links

variable {m : Memory} {bs : List (ℕ × Block)} {size : ℕ}

theorem Linked.backLinked (hm : m.Linked bs) (hroot : first bs none = some m.root) :
    m.BackLinked where
  head := by
    obtain ⟨x, r, rfl⟩ := first_eq_some hroot
    exact ⟨_, hm.seg.1, rfl⟩
  back a p c ha hp hc := by
    have hmem : m.root ∈ locs bs := mem_of_first hroot
    obtain ⟨x, hx⟩ := mem_locs.mp (Machine.along_mem hm.seg hmem ha)
    obtain ⟨l, r, rfl⟩ := List.append_of_mem hx
    obtain rfl := Option.some.inj (hp.symm.trans hm.seg.read_mid)
    obtain ⟨y, r₀, rfl⟩ := first_eq_some hc
    exact ⟨_, ((seg_append _ _ _ _ _).mp hm.seg).2.2.1, rfl⟩

/-- What `screenshot` reads is met along `next`. -/
theorem along_of_screenshotFrom {h : Heap Process} {fuel a : ℕ}
    (hs : screenshotFrom h fuel a = some bs) {b : ℕ × Block} (hb : b ∈ bs) :
    Machine.Along h a b.1 ∧ ∃ p, h.read b.1 = some p ∧ p.block = b.2 := by
  induction fuel generalizing a bs with
  | zero => cases hs
  | succ fuel ih =>
    obtain ⟨cur, hread, hs⟩ := Option.bind_eq_some_iff.mp hs
    cases hnext : cur.next with
    | none =>
      simp only [hnext] at hs
      obtain rfl : [(a, cur.block)] = bs := Option.some.inj hs
      obtain rfl := List.mem_singleton.mp hb
      exact ⟨.refl, cur, hread, rfl⟩
    | some n =>
      simp only [hnext] at hs
      obtain ⟨rest, hrest, hs⟩ := Option.bind_eq_some_iff.mp hs
      obtain rfl : (a, cur.block) :: rest = bs := Option.some.inj hs
      rcases List.mem_cons.mp hb with rfl | hb
      · exact ⟨.refl, cur, hread, rfl⟩
      · obtain ⟨halong, hblock⟩ := ih hrest hb
        exact ⟨halong.head ⟨cur, hread, hnext⟩, hblock⟩

/-- The hole that `FirstFit` finds on a chain. -/
theorem FirstFit.split {h : Heap Process} {a : ℕ} {hole : Process} (hf : FirstFit h size a hole)
    {pv : Option ℕ} (hs : Seg Block.node h pv bs none) (ha : first bs none = some a) :
    ∃ l c x r, bs = l ++ ([(c, x)] ++ r) ∧ (∀ b ∈ l, ¬ b.2.Fits size) ∧ x.Fits size ∧
      hole = x.node (last pv l) (first r none) := by
  induction hf generalizing pv bs with
  | here hread hempty hsize =>
    obtain ⟨x, r, rfl⟩ := first_eq_some ha
    obtain rfl := Option.some.inj (hread.symm.trans hs.1)
    exact ⟨[], _, x, r, rfl, by simp, ⟨hempty, hsize⟩, rfl⟩
  | next hread hnot hnext _ ih =>
    obtain ⟨x, r, rfl⟩ := first_eq_some ha
    obtain rfl := Option.some.inj (hread.symm.trans hs.1)
    obtain ⟨l, c, y, r', rfl, hl, hy, rfl⟩ := ih hs.2 hnext
    refine ⟨(_, x) :: l, c, y, r', rfl, fun b hb => ?_, hy, rfl⟩
    rcases List.mem_cons.mp hb with rfl | hb
    · exact hnot
    · exact hl b hb

/-- Filling a hole leaves the block after it with a `prev` link to the hole. -/
theorem not_backLinked_of_fillsInner (hm : m.WellFormed bs) (priority : ℤ) (hs : 1 ≤ size)
    (hfill : m.FillsInner size) {m' : Memory} {t : Option ℕ}
    (hins : m.insert priority size = some (m', t)) : ¬ m'.BackLinked := by
  obtain ⟨hole, hfit, hsize, hnext⟩ := hfill
  obtain ⟨l, c, x, r, rfl, hl, hx, rfl⟩ := hfit.split hm.links hm.root
  obtain ⟨d, hd⟩ := Option.ne_none_iff_exists'.mp hnext
  obtain ⟨y, r₀, rfl⟩ := first_eq_some hd
  have hb := hm.bound
  have hin : x.start + x.size ≤ m.maxVal := (hm.tiles.mem (by simp)).2.2.2
  have hlinked := hm.linked
  -- the memory after the allocation, node by node and as a list
  obtain ⟨m₁, htake, -, -, -, -, -, hmid, hkeep⟩ := takeSpot_nodes (clampPriority priority)
    hm.links hlinked.nodup hs hx.2 (by omega) hlinked.start_eq_zero
  obtain ⟨m₂, htake₂, -, -, hshot⟩ := takeSpot_screenshot (clampPriority priority) hm hs hx
  obtain rfl : m₁ = m₂ := (Prod.mk.inj (Option.some.inj (htake.symm.trans htake₂))).1
  rw [insert_of_firstFit priority hm hl hx, htake] at hins
  obtain rfl : m₁ = m' := (Prod.mk.inj (Option.some.inj hins)).1
  have hexact : ¬ size < x.size := by simp only [Block.node_size] at hsize; omega
  rw [remainder, if_neg hexact] at hmid hshot
  have hnd := hlinked.nodup
  simp only [locs_append, locs_cons, locs_nil, List.nodup_append, List.mem_append] at hnd
  have hdc : d ≠ c := (hnd.2.1.2.2 c (by simp) d (by simp)).symm
  have hdl : last none l ≠ some d := fun he => hnd.2.2 d (mem_of_last he) d (Or.inr (by simp)) rfl
  have hdf : d ≠ m.heap.fresh := hm.links.ne_fresh (by simp)
  have hread : m.heap.read d = some (y.node (some c) (first r₀ none)) :=
    ((seg_append _ _ _ _ _).mp hm.links).2.2.1
  -- the new process reaches the block, and the block does not point back
  have hnew : Machine.Along m₁.heap m₁.root m.heap.fresh := (along_of_screenshotFrom hshot
    (b := (m.heap.fresh, x.taken m.numOfProcesses (clampPriority priority) size)) (by simp)).1
  rintro ⟨-, hback⟩
  obtain ⟨q, hq, hprev⟩ := hback m.heap.fresh _ d hnew hmid.1 (by simp)
  obtain rfl : y.node (some c) (first r₀ none) = q := by
    rw [hkeep d hdf hdc hdl, hread] at hq
    exact Option.some.inj hq
  exact hm.links.ne_fresh (by simp) (Option.some.inj hprev)

end Links

/-- The links back are right after an `insert` if and only if it does not fill a hole
that has a block after it. -/
theorem insert_backLinked_iff (m : Memory) (bs : List (ℕ × Block)) (hm : m.WellFormed bs)
    (priority : ℤ) (size : ℕ) (hs : 1 ≤ size) :
    (∃ m' t, m.insert priority size = some (m', t) ∧ m'.BackLinked) ↔ ¬ m.FillsInner size := by
  constructor
  · rintro ⟨m', t, hins, hback⟩ hfill
    exact not_backLinked_of_fillsInner hm priority hs hfill hins hback
  · intro hgood
    rcases insert_ok priority hm.linked hm.root hs hgood with
      hins | ⟨m', bs', hole, hins, hlinked, -, -, hroot, -⟩
    · exact ⟨m, none, hins, hm.linked.backLinked hm.root⟩
    · exact ⟨m', _, hins, hlinked.backLinked hroot⟩

/-- The one hole of a new memory has no block after it. -/
theorem insert_backLinked_new : ∃ m' t,
    (Memory.new 100).insert 9 40 = some (m', t) ∧ m'.BackLinked :=
  (insert_backLinked_iff (Memory.new 100) _ new_wellFormed 9 40 (by decide)).mpr
    (not_fillsInner (by decide +kernel))

/-- A hole of one byte in front of a process of three. -/
def holeFirst : Memory where
  heap := (Heap.empty.alloc ⟨-1, -1, 0, 0, 1, none, some 1, true⟩).alloc
    ⟨2, 0, 1, 3, 3, some 0, none, false⟩
  maxVal := 4
  numOfProcesses := 3
  root := 0

theorem holeFirst_wellFormed : holeFirst.WellFormed
    [(0, ⟨-1, -1, 0, 0, 1, true⟩), (1, ⟨2, 0, 1, 3, 3, false⟩)] :=
  ⟨rfl, ⟨rfl, rfl, trivial⟩, ⟨rfl, by decide, rfl, rfl, by decide, rfl, rfl⟩, by decide⟩

/-- A request of one byte fills the hole. -/
theorem insert_stale_link : ¬ ∀ (m : Memory) (bs : List (ℕ × Block)), m.WellFormed bs →
    ∀ (priority : ℤ) (size : ℕ), 1 ≤ size →
      ∃ m' t, m.insert priority size = some (m', t) ∧ m'.BackLinked := by
  intro h
  obtain ⟨m', t, hins, hback⟩ := h holeFirst _ holeFirst_wellFormed 0 1 le_rfl
  have hfill : holeFirst.FillsInner 1 := ⟨_, .here rfl rfl le_rfl, rfl, by decide⟩
  exact not_backLinked_of_fillsInner holeFirst_wellFormed 0 le_rfl hfill hins hback

end Memory

end SchoolProjects.OSProject
