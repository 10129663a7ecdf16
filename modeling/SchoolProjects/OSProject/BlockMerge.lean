import SchoolProjects.OSProject.BlockList

/-! Deletion on the block list (`Memory::deleteProcess`): the finished process
becomes a hole, the hole before it takes it over, and the hole after it takes over
what results. Each half is given location by location first, and then on the chain
of blocks. -/

namespace SchoolProjects.OSProject

open LinkedChain


/-- A finished process, before it is fused with the holes beside it. -/
def Block.released (x : Block) : Block :=
  { x with processNumber := -1, priority := -1, empty := true }

/-- A hole and the block after it as one. -/
def Block.growRight (y x : Block) : Block := { y with end_ := x.end_, size := y.size + x.size }

/-- A hole and the block before it as one. -/
def Block.growLeft (z x : Block) : Block := { z with start := x.start, size := z.size + x.size }

section DeleteProcess

variable {h : Heap Process} {c : ℕ} {x : Block} {l r : List (ℕ × Block)}

theorem store_reads (heap : Heap Process) (p : Option ℕ) (f : Process → Process)
    (hp : ∀ q, p = some q → (heap.read q).isSome) :
    ∃ heap', Memory.store heap p f = some heap' ∧ heap'.fresh = heap.fresh ∧
      ∀ a, heap'.read a = if p = some a then (heap.read a).map f else heap.read a := by
  cases p with
  | none => exact ⟨heap, rfl, rfl, fun a => by simp⟩
  | some q =>
    obtain ⟨y, hy⟩ := Option.isSome_iff_exists.mp (hp q rfl)
    refine ⟨_, Heap.modify_of_read f hy, rfl, fun a => ?_⟩
    by_cases ha : a = q
    · subst ha; simp [hy]
    · simp [ha, Ne.symm ha]

theorem release_linked (hseg : Seg Block.node h none (l ++ ([(c, x)] ++ r)) none)
    (hnd : (locs (l ++ ([(c, x)] ++ r))).Nodup) :
    ∃ h', h.modify c Process.release = some h' ∧ h'.fresh = h.fresh ∧
      Seg Block.node h' none (l ++ ([(c, x.released)] ++ r)) none ∧
      ∀ a, a ≠ c → h'.read a = h.read a := by
  have hc : h.read c = some (x.node (last none l) (first r none)) := hseg.read_mid
  have hkeep : ∀ a, a ≠ c → (h.put c (some (x.node (last none l) (first r none)).release)
      (Heap.lt_fresh hc)).read a = h.read a := fun a ha => by simp [ha]
  simp only [locs_append, locs_cons, locs_nil, List.nodup_append] at hnd
  have hlc : ∀ a ∈ locs l, a ≠ c := fun a ha => hnd.2.2 a ha c (by simp)
  have hrc : ∀ a ∈ locs r, a ≠ c := fun a ha => (hnd.2.1.2.2 c (by simp) a ha).symm
  obtain ⟨hsl, -, hsr⟩ := (seg_append _ _ _ _ _).mp hseg
  refine ⟨_, Heap.modify_of_read _ hc, rfl, (seg_append _ _ _ _ _).mpr ⟨?_, ?_, ?_⟩, hkeep⟩
  · exact hsl.frame fun a ha => hkeep a (hlc a ha)
  · simp [Process.release, Block.node, Block.released]
  · exact hsr.frame fun a ha => hkeep a (hrc a ha)

/-- `mergePrev` location by location, when there is a hole before the block. -/
theorem mergePrev_reads {cur y : Process} {p : ℕ} (hc : h.read c = some cur)
    (hprev : cur.prev = some p) (hp : h.read p = some y) (hy : y.empty = true) (hpc : p ≠ c)
    (hnext : ∀ n, cur.next = some n → n ≠ c ∧ n ≠ p ∧ (h.read n).isSome) :
    ∃ h', Memory.mergePrev h c = some (h', p) ∧ h'.fresh = h.fresh ∧
      ∀ a, h'.read a = if a = c then none else if a = p then some (y.growRight cur)
        else if cur.next = some a then (h.read a).map fun n => n.setPrev (some p)
        else h.read a := by
  obtain ⟨h₂, hst, hf₂, hr₂⟩ := store_reads (h.put p (some (y.growRight cur)) (Heap.lt_fresh hp))
    cur.next (fun n => n.setPrev (some p)) fun n hn => by
      simp [(hnext n hn).2.1, (hnext n hn).2.2]
  have hcn : cur.next ≠ some c := fun he => (hnext c he).1 rfl
  have hpn : cur.next ≠ some p := fun he => (hnext p he).2.1 rfl
  have hc₂ : h₂.read c = some cur := by rw [hr₂, if_neg hcn]; simp [hpc.symm, hc]
  refine ⟨h₂.put c none (Heap.lt_fresh hc₂), ?_, hf₂, fun a => ?_⟩
  · simp [Memory.mergePrev, hc, hprev, hp, hy, Heap.modify_of_read _ hp, hst,
      Heap.free_of_read hc₂]
  · by_cases hac : a = c
    · simp [hac]
    by_cases hap : a = p
    · subst hap; simp [hac, hr₂, hpn]
    · simp [hac, hap, hr₂]

theorem growRight_node {y x : Block} (hsz : y.size + x.size < 2 ^ 32) (pv nx pv' nx' : Option ℕ) :
    (y.node pv nx).growRight (x.node pv' nx') = (y.growRight x).node pv nx' := by
  simp only [Process.growRight, Block.node, Block.growRight, ← Nat.cast_add, uint32_natCast hsz]

/-- The hole before the block, if there is one, takes the block over. -/
theorem mergePrev_linked (hseg : Seg Block.node h none (l ++ ([(c, x)] ++ r)) none)
    (hnd : (locs (l ++ ([(c, x)] ++ r))).Nodup)
    (hsz : ∀ l₀ q y, l = l₀ ++ [(q, y)] → y.size + x.size < 2 ^ 32) :
    (Memory.mergePrev h c = some (h, c) ∧ ∀ l₀ q y, l = l₀ ++ [(q, y)] → y.empty = false) ∨
    ∃ l₀ p y h', l = l₀ ++ [(p, y)] ∧ y.empty = true ∧ Memory.mergePrev h c = some (h', p) ∧
      h'.fresh = h.fresh ∧ h'.read c = none ∧
      Seg Block.node h' none (l₀ ++ ([(p, y.growRight x)] ++ r)) none ∧
      ∀ a, a ∉ locs (l ++ ([(c, x)] ++ r)) → h'.read a = h.read a := by
  have hc : h.read c = some (x.node (last none l) (first r none)) := hseg.read_mid
  rcases List.eq_nil_or_concat l with rfl | ⟨l₀, ⟨p, y⟩, rfl⟩
  · exact Or.inl ⟨by simp [Memory.mergePrev, hc], by simp⟩
  rw [List.concat_eq_append] at *
  have hp : h.read p = some (y.node (last none l₀) (some c)) :=
    ((seg_append _ _ _ _ _).mp hseg).1.read_mid
  have hprev : last none (l₀ ++ [(p, y)]) = some p := by simp
  cases hy : y.empty with
  | false =>
    left
    refine ⟨by simp [Memory.mergePrev, hc, hp, hy], fun l₁ q z he => ?_⟩
    obtain ⟨-, he⟩ := List.append_inj' he rfl
    obtain ⟨rfl, rfl⟩ : p = q ∧ y = z := by simpa using he
    exact hy
  | true =>
    right
    have hnd' : (locs l₀ ++ ([p] ++ ([c] ++ locs r))).Nodup := by simpa using hnd
    obtain ⟨-, hcr, hdl⟩ := List.nodup_append.mp hnd'
    obtain ⟨-, hcr, hdp⟩ := List.nodup_append.mp hcr
    obtain ⟨-, -, hdc⟩ := List.nodup_append.mp hcr
    have hpc : p ≠ c := hdp p (by simp) c (by simp)
    have hpr : ∀ a ∈ locs r, a ≠ p := fun a ha => (hdp p (by simp) a (by simp [ha])).symm
    have hrc : ∀ a ∈ locs r, a ≠ c := fun a ha => (hdc c (by simp) a ha).symm
    obtain ⟨h', hmerge, hf, hreads⟩ := mergePrev_reads hc hprev hp hy hpc fun n hn =>
      ⟨hrc n (mem_of_first hn), hpr n (mem_of_first hn),
        hseg.read_isSome (by simp [mem_of_first hn])⟩
    simp only [Block.node_next] at hreads
    have hkeep : ∀ a, a ≠ c → a ≠ p → first r none ≠ some a → h'.read a = h.read a :=
      fun a hac hap har => by rw [hreads, if_neg hac, if_neg hap, if_neg har]
    refine ⟨l₀, p, y, h', rfl, hy, hmerge, hf, by rw [hreads, if_pos rfl], ?_, ?_⟩
    · have hseg' : Seg Block.node h none (l₀ ++ ([(p, y), (c, x)] ++ r)) none := by simpa using hseg
      refine hseg'.fuse hnd' ?_ (fun q v pv hq hread => ?_) (fun q v nx hq hread => ?_)
        fun a hap hac _ har => hkeep a hac hap har
      · rw [hreads, if_neg hpc, if_pos rfl, growRight_node (hsz l₀ p y rfl)]
      · have hq := mem_of_last hq
        have hqr : first r none ≠ some q := fun he => hdl q hq q (by simp [mem_of_first he]) rfl
        rw [hkeep q (hdl q hq c (by simp)) (hdl q hq p (by simp)) hqr, hread]
      · have hq' := mem_of_first hq
        rw [hreads, if_neg (hrc q hq'), if_neg (hpr q hq'), if_pos hq, hread]
        rfl
    · intro a ha
      have ha' : a ∉ locs l₀ ∧ a ≠ p ∧ a ≠ c ∧ a ∉ locs r := by simpa [not_or, and_assoc] using ha
      exact hkeep a ha'.2.2.1 ha'.2.1 fun he => ha'.2.2.2 (mem_of_first he)

/-- `mergeNext` location by location, when there is a hole after the block. -/
theorem mergeNext_reads {m : Memory} {cur z : Process} {n : ℕ} (hc : m.heap.read c = some cur)
    (hnext : cur.next = some n) (hn : m.heap.read n = some z) (hz : z.empty = true) (hnc : n ≠ c)
    (hprev : ∀ p, cur.prev = some p → p ≠ c ∧ p ≠ n ∧ (m.heap.read p).isSome) :
    ∃ m', m.mergeNext c = some m' ∧ m'.heap.fresh = m.heap.fresh ∧ m'.maxVal = m.maxVal ∧
      m'.numOfProcesses = m.numOfProcesses ∧
      m'.root = (if m.maxVal ≤ (z.growLeft cur).size then n else m.root) ∧
      ∀ a, m'.heap.read a = if a = c then none else if a = n then some (z.growLeft cur)
        else if cur.prev = some a then (m.heap.read a).map fun p => p.setNext (some n)
        else m.heap.read a := by
  obtain ⟨h₂, hst, hf₂, hr₂⟩ := store_reads
    (m.heap.put n (some (z.growLeft cur)) (Heap.lt_fresh hn)) cur.prev
    (fun p => p.setNext (some n)) fun p hp => by
      simp [(hprev p hp).2.1, (hprev p hp).2.2]
  have hcp : cur.prev ≠ some c := fun he => (hprev c he).1 rfl
  have hnp : cur.prev ≠ some n := fun he => (hprev n he).2.1 rfl
  have hc₂ : h₂.read c = some cur := by rw [hr₂, if_neg hcp]; simp [hnc.symm, hc]
  have hn₂ : h₂.read n = some (z.growLeft cur) := by rw [hr₂, if_neg hnp]; simp
  refine ⟨⟨h₂.put c none (Heap.lt_fresh hc₂), m.maxVal, m.numOfProcesses,
    if m.maxVal ≤ (z.growLeft cur).size then n else m.root⟩, ?_, hf₂, rfl, rfl, rfl, fun a => ?_⟩
  · simp [Memory.mergeNext, hc, hnext, hn, hz, Heap.modify_of_read _ hn, hst, hn₂,
      Heap.free_of_read hc₂]
  · by_cases hac : a = c
    · simp [hac]
    by_cases han : a = n
    · subst han; simp [hac, hr₂, hnp]
    · simp [hac, han, hr₂]

theorem growLeft_node {z x : Block} (hsz : z.size + x.size < 2 ^ 32) (pv nx pv' nx' : Option ℕ) :
    (z.node pv nx).growLeft (x.node pv' nx') = (z.growLeft x).node pv' nx := by
  simp only [Process.growLeft, Block.node, Block.growLeft, ← Nat.cast_add, uint32_natCast hsz]

/-- The hole after the block, if there is one, takes the block over. -/
theorem mergeNext_linked {m : Memory}
    (hseg : Seg Block.node m.heap none (l ++ ([(c, x)] ++ r)) none)
    (hnd : (locs (l ++ ([(c, x)] ++ r))).Nodup)
    (hsz : ∀ q z r₀, r = (q, z) :: r₀ → z.size + x.size < 2 ^ 32) :
    (m.mergeNext c = some m ∧ ∀ q z r₀, r = (q, z) :: r₀ → z.empty = false) ∨
    ∃ n z r₀ m', r = (n, z) :: r₀ ∧ z.empty = true ∧ m.mergeNext c = some m' ∧
      m'.heap.fresh = m.heap.fresh ∧ m'.maxVal = m.maxVal ∧
      m'.numOfProcesses = m.numOfProcesses ∧
      m'.root = (if m.maxVal ≤ z.size + x.size then n else m.root) ∧ m'.heap.read c = none ∧
      Seg Block.node m'.heap none (l ++ ([(n, z.growLeft x)] ++ r₀)) none ∧
      ∀ a, a ∉ locs (l ++ ([(c, x)] ++ r)) → m'.heap.read a = m.heap.read a := by
  have hc : m.heap.read c = some (x.node (last none l) (first r none)) := hseg.read_mid
  rcases r with _ | ⟨⟨n, z⟩, r₀⟩
  · exact Or.inl ⟨by simp [Memory.mergeNext, hc], by simp⟩
  have hn : m.heap.read n = some (z.node (some c) (first r₀ none)) :=
    ((seg_append _ _ _ _ _).mp hseg).2.2.1
  cases hz : z.empty with
  | false =>
    left
    refine ⟨by simp [Memory.mergeNext, hc, hn, hz], fun q y r₁ he => ?_⟩
    obtain ⟨⟨rfl, rfl⟩, rfl⟩ : (n = q ∧ z = y) ∧ r₀ = r₁ := by simpa using he
    exact hz
  | true =>
    right
    have hnd' : (locs l ++ ([c] ++ ([n] ++ locs r₀))).Nodup := by simpa using hnd
    obtain ⟨-, hcr, hdl⟩ := List.nodup_append.mp hnd'
    obtain ⟨-, hnr, hdc⟩ := List.nodup_append.mp hcr
    obtain ⟨-, -, hdn⟩ := List.nodup_append.mp hnr
    have hnc : n ≠ c := (hdc c (by simp) n (by simp)).symm
    obtain ⟨m', hmerge, hf, hmax, hnum, hroot, hreads⟩ := mergeNext_reads hc rfl hn hz hnc
      fun p hp => ⟨hdl p (mem_of_last hp) c (by simp), hdl p (mem_of_last hp) n (by simp),
        hseg.read_isSome (by simp [mem_of_last hp])⟩
    simp only [Block.node_prev] at hreads
    rw [growLeft_node (hsz n z r₀ rfl)] at hroot
    have hkeep : ∀ a, a ≠ c → a ≠ n → last none l ≠ some a → m'.heap.read a = m.heap.read a :=
      fun a hac han hal => by rw [hreads, if_neg hac, if_neg han, if_neg hal]
    refine ⟨n, z, r₀, m', rfl, hz, hmerge, hf, hmax, hnum, hroot,
      by rw [hreads, if_pos rfl], ?_, ?_⟩
    · have hseg' : Seg Block.node m.heap none (l ++ ([(c, x), (n, z)] ++ r₀)) none := by
        simpa using hseg
      refine hseg'.fuse hnd' ?_ (fun q v pv hq hread => ?_) (fun q v nx hq hread => ?_)
        fun a hac han hal _ => hkeep a hac han hal
      · rw [hreads, if_neg hnc, if_pos rfl, growLeft_node (hsz n z r₀ rfl)]
      · have hq' := mem_of_last hq
        rw [hreads, if_neg (hdl q hq' c (by simp)), if_neg (hdl q hq' n (by simp)), if_pos hq,
          hread]
        rfl
      · have hq := mem_of_first hq
        have hlq : last none l ≠ some q := fun he => hdl q (mem_of_last he) q (by simp [hq]) rfl
        rw [hkeep q (hdc c (by simp) q (by simp [hq])).symm (hdn n (by simp) q hq).symm hlq, hread]
    · intro a ha
      have ha' : a ∉ locs l ∧ a ≠ c ∧ a ≠ n ∧ a ∉ locs r₀ := by
        simpa [not_or, and_assoc] using ha
      exact hkeep a ha'.2.1 ha'.2.2.1 fun he => ha'.1 (mem_of_last he)

end DeleteProcess
end SchoolProjects.OSProject
