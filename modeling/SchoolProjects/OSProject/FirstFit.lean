import SchoolProjects.OSProject.Machine

/-! Allocation as first fit. `insert` on a well-formed block list is described by
the list read from `root` along `next`, the way `screenshot` prints it. Filling a
hole in the middle leaves a stale `prev` behind, so the list afterwards is a path
and need not be a chain. -/

namespace SchoolProjects.OSProject

open LinkedChain

namespace Memory

/-- `screenshot` from `currptr`: the blocks it prints, with their places. -/
def screenshotFrom (h : Heap Process) : ℕ → ℕ → Option (List (ℕ × Block))
  | 0, _ => none
  | fuel + 1, currptr => do
    let cur ← h.read currptr
    match cur.next with
    | none => return [(currptr, cur.block)]
    | some next =>
      let rest ← screenshotFrom h fuel next
      return (currptr, cur.block) :: rest

/-- `screenshot`; a walk longer than the heap does not end. -/
def screenshot (m : Memory) : Option (List (ℕ × Block)) :=
  screenshotFrom m.heap (m.heap.fresh + 1) m.root

/-- The block list is well formed: `root` is the first block, it starts at 0 and has
no block before it, the links are inverse to each other, and the blocks tile the
memory. -/
structure WellFormed (m : Memory) (bs : List (ℕ × Block)) : Prop where
  root : first bs none = some m.root
  links : Seg Block.node m.heap none bs none
  tiles : Tiles 0 (blocks bs) m.maxVal
  bound : m.maxVal < 2 ^ 32

/-- `x`, at `c`, is the lowest-addressed hole of at least `size` bytes. -/
structure LowestFit (bs : List (ℕ × Block)) (size c : ℕ) (x : Block) : Prop where
  mem : (c, x) ∈ bs
  fits : x.Fits size
  lowest : ∀ b ∈ bs, b.2.Fits size → x.start ≤ b.2.start

section FirstFit

variable {m : Memory} {bs l r : List (ℕ × Block)} {size c : ℕ} {x : Block}

/-- A place occurs once in a tiling: the block there has one start. -/
theorem nodup_of_tiles {lo hi : ℕ} {h : Heap Process} {pv : Option ℕ}
    (hs : Seg Block.node h pv bs none) (ht : Tiles lo (blocks bs) hi) : (locs bs).Nodup := by
  induction bs generalizing lo pv with
  | nil => simp
  | cons b bs ih =>
    obtain ⟨hb, hp, -, hrest⟩ := ht
    rw [locs_cons, List.nodup_cons]
    apply And.intro _ (ih hs.2 hrest)
    intro hmem
    obtain ⟨y, hy⟩ := mem_locs.mp hmem
    obtain ⟨pv', nx', hread⟩ := hs.2.read_of_mem hy
    have hsame : b.2 = y := by
      have := congrArg Process.block (Option.some.inj (hs.1.symm.trans hread))
      simpa using this
    have hlow : lo + b.2.size ≤ y.start := (hrest.mem (List.mem_map.mpr ⟨_, hy, rfl⟩)).1
    rw [← hsame] at hlow
    omega

theorem WellFormed.linked (hm : m.WellFormed bs) : m.Linked bs where
  seg := hm.links
  nodup := nodup_of_tiles hm.links hm.tiles
  tiles := hm.tiles
  pos := by
    have hroot := hm.root
    cases bs with
    | nil => cases hroot
    | cons b bs =>
      obtain ⟨-, hp, -, ht⟩ := hm.tiles
      have := ht.le
      omega
  bound := hm.bound
  root := Or.inr hm.root

/-- A path that fits into the heap is what `screenshot` reads. -/
theorem screenshotFrom_of_path {h : Heap Process} {fuel a : ℕ} (hp : Path Block.node h bs none)
    (ha : first bs none = some a) (hf : bs.length ≤ fuel) :
    screenshotFrom h fuel a = some bs := by
  induction bs generalizing fuel a with
  | nil => cases ha
  | cons b bs ih =>
    obtain ⟨fuel, rfl⟩ := Nat.exists_eq_succ_of_ne_zero (by simp at hf; omega : fuel ≠ 0)
    obtain ⟨⟨pv, hr⟩, hrest⟩ := hp
    obtain rfl : b.1 = a := by simpa using ha
    cases bs with
    | nil => simp [screenshotFrom, hr, Block.node, Process.block]
    | cons b' bs =>
      have hstep : screenshotFrom h fuel b'.1 = some (b' :: bs) :=
        ih hrest rfl (by simpa using hf)
      simp [screenshotFrom, hr, Block.node, Process.block, hstep]

theorem WellFormed.screenshot (hm : m.WellFormed bs) : m.screenshot = some bs := by
  apply screenshotFrom_of_path hm.links.path hm.root
  have := hm.links.length_le hm.linked.nodup
  omega

/-- The hole `insert` takes is the first one that fits in the order of the list. -/
theorem LowestFit.split (hm : m.WellFormed bs) (hx : LowestFit bs size c x) :
    ∃ l r, bs = l ++ ([(c, x)] ++ r) ∧ ∀ b ∈ l, ¬ b.2.Fits size := by
  obtain ⟨l, r, rfl⟩ := List.append_of_mem hx.mem
  refine ⟨l, r, rfl, fun b hb hfit => ?_⟩
  obtain ⟨l₁, l₂, rfl⟩ := List.append_of_mem hb
  have hlow := hx.lowest b (by simp) hfit
  have hbefore : b.2.end_ < x.start :=
    Tiles.ordered (l := blocks l₁) (r := blocks (l₂ ++ (c, x) :: r))
      (by simpa using hm.tiles) (by simp)
  obtain ⟨-, hp, he, -⟩ := hm.tiles.mem (b := b.2) (by simp)
  omega

theorem remainder_length_le (size c : ℕ) (x : Block) : (remainder size c x).length ≤ 1 := by
  unfold remainder
  split_ifs <;> simp

/-- `takeSpot` puts the process and what remains of the hole in the place of the
hole, also where it leaves a stale `prev`. -/
theorem takeSpot_screenshot (priority : ℤ) (hm : m.WellFormed (l ++ ([(c, x)] ++ r)))
    (hs : 1 ≤ size) (hx : x.Fits size) :
    ∃ m', m.takeSpot priority size c = some (m', m.heap.fresh) ∧
      m'.numOfProcesses = int32 (m.numOfProcesses + 1) ∧ m'.maxVal = m.maxVal ∧
      m'.screenshot = some (l ++ ((m.heap.fresh, x.taken m.numOfProcesses priority size) ::
        remainder size c x ++ r)) := by
  have hlinked := hm.linked
  have hin : x.start + x.size ≤ m.maxVal := (hm.tiles.mem (by simp)).2.2.2
  have hb := hm.bound
  obtain ⟨m', htake, hmax, hnum, hr, hf, hbefore, hmid, hkeep⟩ := takeSpot_nodes priority
    hm.links hlinked.nodup hs hx.2 (by omega) hlinked.start_eq_zero
  refine ⟨m', htake, hnum, hmax, ?_⟩
  have hnd := hlinked.nodup
  simp only [locs_append, locs_cons, locs_nil, List.nodup_append, List.mem_append] at hnd
  have hnew : ∀ a, a ∈ locs l ∨ a = c ∨ a ∈ locs r → a ≠ m.heap.fresh := fun a ha =>
    hm.links.ne_fresh (by simpa using ha)
  have hpath := (path_append m.heap none _ _).mp hm.links.path
  have hlpath : Path Block.node m'.heap l (some m.heap.fresh) := by
    rcases List.eq_nil_or_concat l with rfl | ⟨l₀, q, rfl⟩
    · trivial
    · rw [List.concat_eq_append] at hpath hbefore hnd hnew hkeep ⊢
      have hl₀ : Path Block.node m.heap l₀ (some q.1) := ((path_append m.heap _ _ _).mp hpath.1).1
      obtain ⟨-, hne⟩ : (locs l₀).Nodup ∧ ∀ a ∈ locs l₀, a ≠ q.1 := by
        simpa [List.nodup_append] using hnd.1
      have hq : Path Block.node m'.heap [q] (some m.heap.fresh) := ⟨⟨_, hbefore l₀ q rfl⟩, trivial⟩
      apply (path_append m'.heap _ _ _).mpr (And.intro _ hq)
      apply hl₀.frame
      intro a ha
      apply hkeep a (hnew a (Or.inl (by simp [ha]))) (hnd.2.2 a (by simp [ha]) c (by simp))
      simpa using (hne a ha).symm
  have hrpath : Path Block.node m'.heap r none := by
    apply ((path_append m.heap none _ _).mp hpath.2).2.frame
    intro a ha
    apply hkeep a (hnew a (Or.inr (Or.inr ha))) (hnd.2.1.2.2 c (by simp) a ha).symm
    exact fun he => hnd.2.2 a (mem_of_last he) a (Or.inr ha) rfl
  apply screenshotFrom_of_path
  · exact (path_append _ _ _ _).mpr ⟨hlpath, (path_append _ _ _ _).mpr ⟨hmid.path, hrpath⟩⟩
  · have hroot := hm.root
    cases l with
    | nil => simp [hr]
    | cons b l => simpa [hr] using hroot
  · have h1 := hm.links.length_le hlinked.nodup
    have h2 := remainder_length_le size c x
    simp only [List.length_append, List.length_cons, List.length_nil] at h1 ⊢
    omega

/-- The first element with a property splits a list in one way. -/
theorem split_unique {α : Type*} {p : α → Prop} {l l' r r' : List α} {x x' : α}
    (h : l ++ x :: r = l' ++ x' :: r') (hl : ∀ b ∈ l, ¬ p b) (hx : p x)
    (hl' : ∀ b ∈ l', ¬ p b) (hx' : p x') : l = l' ∧ x = x' ∧ r = r' := by
  induction l generalizing l' with
  | nil =>
    cases l' with
    | nil => simpa using h
    | cons b l' =>
      obtain rfl : x = b := (List.cons.inj h).1
      exact absurd hx (hl' x (by simp))
  | cons b l ih =>
    cases l' with
    | nil =>
      obtain rfl : b = x' := (List.cons.inj h).1
      exact absurd hx' (hl b (by simp))
    | cons b' l' =>
      obtain ⟨rfl, ht⟩ := List.cons.inj h
      obtain ⟨rfl, hrest⟩ := ih ht (fun d hd => hl d (by simp [hd])) fun d hd => hl' d (by simp [hd])
      exact ⟨rfl, hrest⟩

/-- The search ends at the first hole that fits, inside the loop or after it. -/
theorem insert_of_firstFit (priority : ℤ) (hm : m.WellFormed (l ++ ([(c, x)] ++ r)))
    (hl : ∀ b ∈ l, ¬ b.2.Fits size) (hx : x.Fits size) :
    m.insert priority size =
      (m.takeSpot (clampPriority priority) size c).map fun t => (t.1, some t.2) := by
  obtain ⟨b, bs, hbs⟩ := List.exists_cons_of_ne_nil hm.linked.ne_nil
  have hlinks := hm.links
  have hroot := hm.root
  have hlen := hlinks.length_le hm.linked.nodup
  rw [hbs] at hlinks hroot hlen
  obtain ⟨l', c', r', found, he, hfind, hl', hfound⟩ :=
    findSpot_spec size (m.heap.fresh + 1) hlinks (by simp at hlen; omega)
  rw [show b.1 = m.root by simpa using hroot] at hfind
  have hsplit : l ++ (c, x) :: r = l' ++ c' :: r' := by rw [← he, ← hbs]; rfl
  have hfit : c'.2.Fits size := by
    rcases hfound with ⟨-, hfit, -⟩ | ⟨-, rfl⟩
    · exact hfit
    · -- the last block is reached: no block before it fits, so it is the hole
      have hmem : (c, x) ∈ l' ++ [c'] := hsplit ▸ (by simp)
      rcases List.mem_append.mp hmem with h | h
      · exact absurd hx (hl' _ h)
      · rwa [← List.mem_singleton.mp h]
  obtain ⟨rfl, rfl, rfl⟩ := split_unique (p := fun b => b.2.Fits size) hsplit hl hx hl' hfit
  have hc : m.heap.read c = some (x.node (last none l) (first r none)) := hm.links.read_mid
  have hx' : x.empty = true ∧ size ≤ x.size := hx
  cases found <;> simp [insert, hfind, hc, hx', Option.map_eq_bind]

/-- With no hole that fits `insert` changes nothing. -/
theorem insert_of_none (priority : ℤ) (hm : m.WellFormed bs) (hno : ∀ b ∈ bs, ¬ b.2.Fits size) :
    m.insert priority size = some (m, none) := by
  obtain ⟨b, bs, rfl⟩ := List.exists_cons_of_ne_nil hm.linked.ne_nil
  have hb : b.1 = m.root := by simpa using hm.root
  have hlen := hm.links.length_le hm.linked.nodup
  obtain ⟨l, ⟨c, x⟩, r, found, he, hfind, hl, hfound⟩ :=
    findSpot_spec size (m.heap.fresh + 1) hm.links (by simp at hlen; omega)
  rw [hb] at hfind
  rw [he] at hm hno
  have hnot : ¬ (x.empty = true ∧ size ≤ x.size) := hno (c, x) (by simp)
  rcases hfound with ⟨rfl, hfit, -⟩ | ⟨rfl, rfl⟩
  · exact absurd hfit hnot
  · have hc : m.heap.read c = some (x.node (last none l) (first [] none)) := hm.links.read_mid
    simp [insert, hfind, hc, hnot]

end FirstFit

/-- A new memory of 100 bytes. -/
theorem new_wellFormed : (Memory.new 100).WellFormed [(0, ⟨-1, 0, 0, 99, 100, true⟩)] :=
  ⟨rfl, ⟨rfl, trivial⟩, ⟨rfl, by decide, rfl, rfl⟩, by decide⟩

end Memory

/-- `insert` is first fit. Without a hole that fits nothing changes. Otherwise the
process and the rest of the hole replace the lowest-addressed hole that fits, the
PID counter, an `int`, grows by one, and the scheduler is what one call of
`ReadyQueue::addProcess` on the new process makes of it. -/
theorem insert_firstFit (s : Machine) (bs : List (ℕ × Block)) (hm : s.mem.WellFormed bs)
    (priority : ℤ) (size : ℕ) (hs : 1 ≤ size) :
    ((∀ b ∈ bs, ¬ b.2.Fits size) → s.insert priority size = some s) ∧
      ∀ c x, Memory.LowestFit bs size c x →
        ∃ (l r : List (ℕ × Block)) (mem : Memory), bs = l ++ [(c, x)] ++ r ∧
          s.mem.insert priority size = some (mem, some s.mem.heap.fresh) ∧
          mem.screenshot = some (l ++ [(s.mem.heap.fresh,
              x.taken s.mem.numOfProcesses (clampPriority priority) size)] ++
            remainder size c x ++ r) ∧
          mem.numOfProcesses = int32 (s.mem.numOfProcesses + 1) ∧ mem.maxVal = s.mem.maxVal ∧
          s.insert priority size =
            (ReadyQueue.addProcess mem.prio s.sched s.mem.heap.fresh).map fun sched =>
              s.withCreated mem sched s.mem.heap.fresh := by
  constructor
  · intro hno
    simp [Machine.insert, Memory.insert_of_none priority hm hno]
  · intro c x hx
    obtain ⟨l, r, rfl, hl⟩ := hx.split hm
    obtain ⟨mem, htake, hnum, hmax, hshot⟩ :=
      Memory.takeSpot_screenshot (clampPriority priority) hm hs hx.fits
    have hins : s.mem.insert priority size = some (mem, some s.mem.heap.fresh) := by
      rw [Memory.insert_of_firstFit priority hm hl hx.fits, htake]
      rfl
    refine ⟨l, r, mem, by simp, hins, by simpa using hshot, hnum, hmax, ?_⟩
    simp [Machine.insert, hins]

/-- A request of 40 bytes splits the one hole of a new memory of 100 bytes. -/
theorem insert_firstFit_start : ∃ mem : Memory,
    (Memory.new 100).insert 9 40 = some (mem, some 1) ∧
      mem.screenshot = some [(1, ⟨1, 4, 0, 39, 40, false⟩), (0, ⟨-1, 0, 40, 99, 60, true⟩)] := by
  have hx : Memory.LowestFit [(0, ⟨-1, 0, 0, 99, 100, true⟩)] 40 0 ⟨-1, 0, 0, 99, 100, true⟩ :=
    ⟨by simp, ⟨rfl, by decide⟩, by simp⟩
  obtain ⟨l, r, mem, hlr, hins, hshot, -⟩ :=
    (insert_firstFit (Machine.start 100 1 1) _ Memory.new_wellFormed 9 40 (by decide)).2 _ _ hx
  obtain ⟨rfl, rfl⟩ : l = [] ∧ r = [] := by
    have := congrArg List.length hlr
    simp only [List.length_append, List.length_cons, List.length_nil] at this
    exact ⟨List.length_eq_zero_iff.mp (by omega), List.length_eq_zero_iff.mp (by omega)⟩
  exact ⟨mem, hins, hshot⟩

end SchoolProjects.OSProject
