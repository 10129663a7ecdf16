import SchoolProjects.OSProject.Memory

/-! The block list as a list: each operation of `Memory` on a chain of blocks is
described by the list of blocks it leaves. An allocation replaces the first hole
that fits by a process and the rest of the hole; a deletion fuses the block with
the holes on either side. -/

namespace SchoolProjects.OSProject

open LinkedChain

/-- A block without its links. -/
structure Block where
  processNumber : ℤ
  priority : ℤ
  start : ℕ
  end_ : ℕ
  size : ℕ
  empty : Bool
  deriving DecidableEq

@[simps] def Block.node (b : Block) (prev next : Option ℕ) : Process :=
  ⟨b.processNumber, b.priority, b.start, b.end_, b.size, prev, next, b.empty⟩

def Process.block (p : Process) : Block :=
  ⟨p.processNumber, p.priority, p.start, p.end_, p.size, p.empty⟩

@[simp] theorem Block.block_node (b : Block) (prev next : Option ℕ) :
    (b.node prev next).block = b := rfl

/-- Blocks of positive size laid end to end from `lo` up to `hi`. -/
def Tiles : ℕ → List Block → ℕ → Prop
  | lo, [], hi => lo = hi
  | lo, b :: bs, hi =>
    b.start = lo ∧ 0 < b.size ∧ b.end_ + 1 = lo + b.size ∧ Tiles (lo + b.size) bs hi

theorem tiles_append {lo hi : ℕ} {l r : List Block} :
    Tiles lo (l ++ r) hi ↔ ∃ mid, Tiles lo l mid ∧ Tiles mid r hi := by
  induction l generalizing lo with
  | nil => simp [Tiles]
  | cons b l ih => simp [Tiles, ih, and_assoc]

theorem Tiles.le {lo hi : ℕ} {bs : List Block} (h : Tiles lo bs hi) : lo ≤ hi := by
  induction bs generalizing lo with
  | nil => exact Nat.le_of_eq h
  | cons b bs ih => have := ih h.2.2.2; omega

theorem Tiles.eq_nil {lo : ℕ} {bs : List Block} (h : Tiles lo bs lo) : bs = [] := by
  cases bs with
  | nil => rfl
  | cons b bs =>
    obtain ⟨-, hp, -, ht⟩ := h
    have := ht.le
    omega

/-- Every block of a tiling lies within it. -/
theorem Tiles.mem {lo hi : ℕ} {bs : List Block} (h : Tiles lo bs hi) {b : Block} (hb : b ∈ bs) :
    lo ≤ b.start ∧ 0 < b.size ∧ b.end_ + 1 = b.start + b.size ∧ b.start + b.size ≤ hi := by
  induction bs generalizing lo with
  | nil => cases hb
  | cons c bs ih =>
    obtain ⟨hs, hp, he, ht⟩ := h
    rcases List.mem_cons.mp hb with rfl | hb
    · have := ht.le
      omega
    · obtain ⟨h1, h2, h3, h4⟩ := ih ht hb
      omega

/-- Blocks at different places of a tiling do not overlap. -/
theorem Tiles.ordered {lo hi : ℕ} {l r : List Block} {b c : Block}
    (h : Tiles lo (l ++ b :: r) hi) (hc : c ∈ r) : b.end_ < c.start := by
  obtain ⟨mid, -, hs, hp, he, ht⟩ := tiles_append.mp h
  obtain ⟨h1, -⟩ := ht.mem hc
  omega

/-- Replacing part of a tiling by a tiling of the same addresses. -/
theorem Tiles.replace {lo hi : ℕ} {l m r : List Block} (h : Tiles lo (l ++ (m ++ r)) hi)
    (m' : List Block) (hm : ∀ a b, Tiles a m b → Tiles a m' b) : Tiles lo (l ++ (m' ++ r)) hi := by
  obtain ⟨a, hl, hmr⟩ := tiles_append.mp h
  obtain ⟨b, hm1, hr⟩ := tiles_append.mp hmr
  exact tiles_append.mpr ⟨a, hl, tiles_append.mpr ⟨b, hm a b hm1, hr⟩⟩

def blocks (bs : List (ℕ × Block)) : List Block := bs.map Prod.snd

@[simp] theorem blocks_append (l r : List (ℕ × Block)) : blocks (l ++ r) = blocks l ++ blocks r :=
  List.map_append

@[simp] theorem blocks_cons (b : ℕ × Block) (bs : List (ℕ × Block)) :
    blocks (b :: bs) = b.2 :: blocks bs := rfl

@[simp] theorem blocks_nil : blocks [] = [] := rfl

/-- A hole that can hold `size` bytes. -/
def Block.Fits (size : ℕ) (b : Block) : Prop := b.empty = true ∧ size ≤ b.size

instance (size : ℕ) (b : Block) : Decidable (b.Fits size) :=
  inferInstanceAs (Decidable (_ ∧ _))

/-! ### The search of `insert` -/

/-- The search stops at the first hole that fits, or at the last block. -/
theorem findSpot_spec {h : Heap Process} (size fuel : ℕ) {pv : Option ℕ} {b : ℕ × Block}
    {bs : List (ℕ × Block)} (hs : Seg Block.node h pv (b :: bs) none)
    (hf : bs.length < fuel) :
    ∃ l c r found, b :: bs = l ++ c :: r ∧ Memory.findSpot h size fuel b.1 = some (c.1, found) ∧
      (∀ x ∈ l, ¬ x.2.Fits size) ∧
      ((found = true ∧ c.2.Fits size ∧ r ≠ []) ∨ (found = false ∧ r = [])) := by
  induction bs generalizing pv b fuel with
  | nil =>
    obtain ⟨fuel, rfl⟩ := Nat.exists_eq_succ_of_ne_zero (by omega : fuel ≠ 0)
    refine ⟨[], b, [], false, rfl, ?_, by simp, Or.inr ⟨rfl, rfl⟩⟩
    simp [Memory.findSpot, hs.1, Block.node]
  | cons b' bs ih =>
    obtain ⟨fuel, rfl⟩ := Nat.exists_eq_succ_of_ne_zero (by omega : fuel ≠ 0)
    by_cases hfit : b.2.Fits size
    · refine ⟨[], b, b' :: bs, true, rfl, ?_, by simp, Or.inl ⟨rfl, hfit, by simp⟩⟩
      simp [Memory.findSpot, hs.1, Block.node, hfit.1, hfit.2]
    · obtain ⟨l, c, r, found, he, hfind, hl, hfound⟩ :=
        ih fuel hs.2 (by simpa using hf : bs.length < fuel)
      refine ⟨b :: l, c, r, found, by rw [he]; rfl, ?_, ?_, hfound⟩
      · rw [← hfind]
        have hnot : ¬ (b.2.empty = true ∧ size ≤ b.2.size) := hfit
        simp [Memory.findSpot, hs.1, Block.node, hnot]
      · intro x hx
        rcases List.mem_cons.mp hx with rfl | hx
        · exact hfit
        · exact hl x hx

/-! ### Allocation -/

/-- The process block taken from the front of a hole. -/
def Block.taken (number priority : ℤ) (size : ℕ) (hole : Block) : Block :=
  ⟨number, priority, hole.start, hole.start + size - 1, size, false⟩

/-- What remains of a hole after `size` bytes are taken from its front. -/
def Block.rest (size : ℕ) (hole : Block) : Block :=
  { hole with start := hole.start + size, size := hole.size - size }

section TakeSpot

variable {m : Memory} {priority : ℤ} {size c : ℕ} {x : Block} {l r : List (ℕ × Block)}

/-- The stores of `takeSpot` into the fields of the two blocks. -/
theorem spot_arith (hs : 1 ≤ size) (hle : size ≤ x.size) (hx : x.start + x.size < 2 ^ 32) :
    uint32 (int32 x.start) = x.start ∧
      uint32 (int32 (uint32 (int32 x.start + size - 1))) = x.start + size - 1 ∧
      uint32 (int32 (uint32 (int32 x.start + size - 1)) + 1) = x.start + size ∧
      (size < x.size → uint32 ((x.size : ℤ) - size) = x.size - size) := by
  have hend : uint32 (int32 x.start + size - 1) = x.start + size - 1 := by
    rw [show int32 x.start + (size : ℤ) - 1 = int32 x.start + ((size : ℤ) - 1) by ring,
      uint32_add_int32]
    unfold uint32; omega
  refine ⟨?_, ?_, ?_, fun _ => ?_⟩
  · rw [uint32_int32, uint32_natCast (by omega)]
  · rw [uint32_int32, hend, uint32_natCast (by omega)]
  · rw [uint32_add_int32, hend]
    unfold uint32; omega
  · unfold uint32; omega

/-- `linkSpot` location by location, on a heap with the new process `t`. -/
theorem linkSpot_reads {h : Heap Process} {cur t : Process} (nEnd : ℤ) (size : ℕ)
    (hc : h.read c = some cur) (ht : t.next = some c) :
    ∃ h', Memory.linkSpot (h.alloc t) cur nEnd size c h.fresh = some h' ∧
      h'.fresh = h.fresh + 1 ∧ ∀ a, h'.read a =
        if a = h.fresh then some (t.setNext (if size < cur.size then some c else cur.next))
        else if a = c ∧ size < cur.size then some (cur.shrink nEnd size h.fresh)
        else h.read a := by
  have hcf : c ≠ h.fresh := Heap.ne_fresh hc
  have hc1 : (h.alloc t).read c = some cur := (Heap.read_alloc_of_ne hcf).trans hc
  have ht1 : (h.alloc t).read h.fresh = some t := by simp
  unfold Memory.linkSpot
  split_ifs with hsz
  · refine ⟨_, Heap.modify_of_read _ hc1, rfl, fun a => ?_⟩
    have hsame : t.setNext (some c) = t := by rw [← ht]; rfl
    by_cases ha : a = c
    · subst ha; simp [hcf, hsz]
    · simp [ha, hsame]
  · refine ⟨_, Heap.modify_of_read _ ht1, rfl, fun a => ?_⟩
    by_cases ha : a = h.fresh
    · simp [ha]
    · simp [ha, hsz]

/-- `takeSpot` location by location. -/
theorem takeSpot_reads {cur : Process} (priority : ℤ) (size : ℕ) (hc : m.heap.read c = some cur)
    (hroot : int32 cur.start = 0 ↔ cur.prev = none)
    (hprev : ∀ q, cur.prev = some q → q ≠ c ∧ ∃ y, m.heap.read q = some y) :
    ∃ m', m.takeSpot priority size c = some (m', m.heap.fresh) ∧ m'.maxVal = m.maxVal ∧
      m'.numOfProcesses = int32 (m.numOfProcesses + 1) ∧
      m'.root = (if cur.prev = none then m.heap.fresh else m.root) ∧
      m'.heap.fresh = m.heap.fresh + 1 ∧
      ∀ a, m'.heap.read a =
        if a = m.heap.fresh then
          some ⟨m.numOfProcesses, priority, uint32 (int32 cur.start),
            uint32 (int32 (uint32 (int32 cur.start + size - 1))), size, cur.prev,
            if size < cur.size then some c else cur.next, false⟩
        else if a = c ∧ size < cur.size then
          some (cur.shrink (int32 (uint32 (int32 cur.start + size - 1))) size m.heap.fresh)
        else if cur.prev = some a then
          (m.heap.read a).map fun p => p.setNext (some m.heap.fresh)
        else m.heap.read a := by
  set nEnd := int32 (uint32 (int32 cur.start + size - 1)) with hnEnd
  set t : Process := ⟨m.numOfProcesses, priority, uint32 (int32 cur.start), uint32 nEnd, size,
    cur.prev, some c, false⟩ with ht
  -- the heap after the hole or the new process has been linked
  obtain ⟨h, hh, hfresh, hreads⟩ := linkSpot_reads (t := t) nEnd size hc rfl
  unfold Memory.takeSpot
  rw [hc, Option.bind_eq_bind, Option.bind_some]
  change ∃ m',
    (Option.bind (Memory.linkSpot (m.heap.alloc t) cur nEnd size c m.heap.fresh) _) = _ ∧ _
  rw [hh, Option.bind_some]
  cases hp : cur.prev with
  | none =>
    rw [if_pos (hroot.mpr hp)]
    refine ⟨_, rfl, rfl, rfl, by simp, hfresh, fun a => ?_⟩
    simp [hreads, ht, hp, Process.setNext]
  | some q =>
    obtain ⟨hqc, y, hy⟩ := hprev q hp
    have hqf : q ≠ m.heap.fresh := Heap.ne_fresh hy
    have hq1 : h.read q = some y := by simp [hreads, hqf, hqc, hy]
    rw [if_neg (fun h0 => by simp [hroot.mp h0] at hp), Option.bind_eq_bind, Option.bind_some,
      Heap.modify_of_read _ hq1]
    refine ⟨_, rfl, rfl, rfl, by simp, hfresh, fun a => ?_⟩
    by_cases ha : a = q
    · subst ha; simp [hqf, hqc, hy]
    · simp [hreads, ht, ha, Ne.symm ha, hp, Process.setNext]

/-- What stays of the hole after an allocation, as a list of at most one block. -/
def remainder (size c : ℕ) (x : Block) : List (ℕ × Block) :=
  if size < x.size then [(c, x.rest size)] else []

theorem shrink_node (hs : 1 ≤ size) (hlt : size < x.size) (hx : x.start + x.size < 2 ^ 32)
    (pv nx : Option ℕ) (t : ℕ) :
    (x.node pv nx).shrink (int32 (uint32 (int32 x.start + size - 1))) size t =
      (x.rest size).node (some t) nx := by
  obtain ⟨-, -, h3, h4⟩ := spot_arith hs hlt.le hx
  simp only [Process.shrink, Block.node, Block.rest, h3, h4 hlt]

/-- The nodes after an allocation at a block of the chain: the block before it, the
process, what remains of the hole, and all others as they were. A hole that is
filled leaves the node after it with a stale `prev`. -/
theorem takeSpot_nodes (priority : ℤ)
    (hseg : Seg Block.node m.heap none (l ++ ([(c, x)] ++ r)) none)
    (hnd : (locs (l ++ ([(c, x)] ++ r))).Nodup) (hs : 1 ≤ size) (hle : size ≤ x.size)
    (hx : x.start + x.size < 2 ^ 32) (hroot : x.start = 0 ↔ l = []) :
    ∃ m', m.takeSpot priority size c = some (m', m.heap.fresh) ∧ m'.maxVal = m.maxVal ∧
      m'.numOfProcesses = int32 (m.numOfProcesses + 1) ∧
      m'.root = (if l = [] then m.heap.fresh else m.root) ∧
      m'.heap.fresh = m.heap.fresh + 1 ∧
      (∀ l₀ q, l = l₀ ++ [q] →
        m'.heap.read q.1 = some (q.2.node (last none l₀) (some m.heap.fresh))) ∧
      Seg Block.node m'.heap (last none l)
        ((m.heap.fresh, x.taken m.numOfProcesses priority size) :: remainder size c x)
        (first r none) ∧
      (∀ a, a ≠ m.heap.fresh → a ≠ c → last none l ≠ some a →
        m'.heap.read a = m.heap.read a) := by
  have hc : m.heap.read c = some (x.node (last none l) (first r none)) := hseg.read_mid
  have hz : int32 (x.node (last none l) (first r none)).start = 0 ↔
      (x.node (last none l) (first r none)).prev = none :=
    (int32_natCast_eq_zero (by simp only [Block.node]; omega)).trans (hroot.trans last_eq_none.symm)
  simp only [locs_append, locs_cons, locs_nil, List.nodup_append, List.mem_append] at hnd
  have hlc : ∀ a ∈ locs l, a ≠ c := fun a ha => hnd.2.2 a ha c (Or.inl (by simp))
  have hlf : ∀ a ∈ locs l, a ≠ m.heap.fresh := fun a ha => hseg.ne_fresh (by simp [ha])
  obtain ⟨m', htake, hmax, hnum, hr, hf, hreads⟩ := takeSpot_reads priority size hc hz
    fun q hq => ⟨hlc q (mem_of_last hq),
      Option.isSome_iff_exists.mp (hseg.read_isSome (by simp [mem_of_last hq]))⟩
  simp only [Block.node_start, Block.node_size, Block.node_prev, Block.node_next] at hreads hr
  obtain ⟨h1, h2, -, -⟩ := spot_arith hs hle hx
  refine ⟨m', htake, hmax, hnum, by simpa [last_eq_none] using hr, hf, ?_, ?_, ?_⟩
  · rintro l₀ ⟨q, y⟩ rfl
    have hq : m.heap.read q = some (y.node (last none l₀) (some c)) :=
      ((seg_append _ _ _ _ _).mp hseg).1.read_mid
    rw [hreads, if_neg (hlf q (by simp)), if_neg (fun h => hlc q (by simp) h.1),
      if_pos (by simp), hq]
    rfl
  · have hcf : c ≠ m.heap.fresh := Heap.ne_fresh hc
    have hnew := hreads m.heap.fresh
    rw [if_pos rfl, h1, h2] at hnew
    unfold remainder
    split_ifs with hsz
    · refine ⟨by rw [hnew, if_pos hsz]; rfl, ?_, trivial⟩
      rw [hreads, if_neg hcf, if_pos ⟨rfl, hsz⟩]
      exact congrArg some (shrink_node hs hsz hx _ _ _)
    · exact ⟨by rw [hnew, if_neg hsz]; rfl, trivial⟩
  · intro a ha hac hal
    rw [hreads, if_neg ha, if_neg (fun h => hac h.1), if_neg hal]

/-- An allocation that splits the hole, or fills the last one, replaces the hole by
the process and what remains of the hole. -/
theorem takeSpot_linked (priority : ℤ)
    (hseg : Seg Block.node m.heap none (l ++ ([(c, x)] ++ r)) none)
    (hnd : (locs (l ++ ([(c, x)] ++ r))).Nodup) (hs : 1 ≤ size) (hle : size ≤ x.size)
    (hx : x.start + x.size < 2 ^ 32) (hroot : x.start = 0 ↔ l = [])
    (hgood : size < x.size ∨ r = []) :
    ∃ m', m.takeSpot priority size c = some (m', m.heap.fresh) ∧ m'.maxVal = m.maxVal ∧
      m'.root = (if l = [] then m.heap.fresh else m.root) ∧
      m'.heap.fresh = m.heap.fresh + 1 ∧
      Seg Block.node m'.heap none (l ++ ((m.heap.fresh, x.taken m.numOfProcesses priority size) ::
        remainder size c x ++ r)) none ∧
      (∀ a, a ≠ m.heap.fresh → a ∉ locs (l ++ ([(c, x)] ++ r)) →
        m'.heap.read a = m.heap.read a) := by
  obtain ⟨m', htake, hmax, -, hr, hf, hbefore, hmid, hkeep⟩ :=
    takeSpot_nodes priority hseg hnd hs hle hx hroot
  simp only [locs_append, locs_cons, locs_nil, List.nodup_append, List.mem_append] at hnd
  have hmem : ∀ a, a ∈ locs l ∨ a = c ∨ a ∈ locs r → a ≠ m.heap.fresh := fun a ha =>
    hseg.ne_fresh (by simpa using ha)
  have hlc : ∀ a ∈ locs l, a ≠ c := fun a ha => hnd.2.2 a ha c (Or.inl (by simp))
  have hrc : ∀ a ∈ locs r, a ≠ c := fun a ha => (hnd.2.1.2.2 c (by simp) a ha).symm
  have hlast : ∀ a ∈ locs r, last none l ≠ some a := fun a ha he =>
    hnd.2.2 a (mem_of_last he) a (Or.inr ha) rfl
  refine ⟨m', htake, hmax, hr, hf, hseg.replace_mid ?_ hmid ?_, ?_⟩
  · rintro l₀ ⟨q, y⟩ rfl
    refine ⟨hbefore l₀ (q, y) rfl, fun a ha =>
      hkeep a (hmem a (Or.inl (by simp [ha]))) (hlc a (by simp [ha])) ?_⟩
    have : q ≠ a := by
      rintro rfl
      obtain ⟨-, hne⟩ : (locs l₀).Nodup ∧ ∀ a ∈ locs l₀, a ≠ q := by
        simpa [List.nodup_append] using hnd.1
      exact hne q ha rfl
    simpa using this
  · rintro ⟨q, y⟩ r₀ rfl
    have hsz : size < x.size := hgood.resolve_right (by simp)
    have hq : m.heap.read q = some (y.node (some c) (first r₀ none)) :=
      ((seg_append _ _ _ _ _).mp hseg).2.2.1
    refine ⟨?_, fun a ha => hkeep a (hmem a (Or.inr (Or.inr (by simp [ha])))) (hrc a (by simp [ha]))
      (hlast a (by simp [ha]))⟩
    rw [hkeep q (hmem q (Or.inr (Or.inr (by simp)))) (hrc q (by simp)) (hlast q (by simp)), hq]
    simp [remainder, hsz]
  · intro a ha hal
    have hal' : a ∉ locs l ∧ a ≠ c ∧ a ∉ locs r := by simpa using hal
    exact hkeep a ha hal'.2.1 fun he => hal'.1 (mem_of_last he)

end TakeSpot

end SchoolProjects.OSProject
