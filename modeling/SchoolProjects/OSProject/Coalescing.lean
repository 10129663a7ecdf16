import SchoolProjects.OSProject.FirstFit

/-! Deletion as coalescing. `deleteProcess` turns a block into a hole and fuses it with
the holes directly beside it, wherever in the list it stands; when no two holes were
adjacent, none are afterwards. The list is the chain of blocks from the one without a
`prev`: `root` plays no part and may be left on a freed block. -/

namespace SchoolProjects.OSProject

open LinkedChain

/-- No two holes are side by side. -/
def NoAdjacentHoles (bs : List Block) : Prop :=
  bs.IsChain fun b c => ¬ (b.empty = true ∧ c.empty = true)

/-- `hole` takes the place of the blocks `run`. -/
structure FusedInto (run : List Block) (hole : Block) : Prop where
  empty : hole.empty = true
  start : run.head?.map Block.start = some hole.start
  end_ : run.getLast?.map Block.end_ = some hole.end_
  size : (run.map Block.size).sum = hole.size

/-- `bs'` is `bs` with the block at `p` turned into a hole and fused with the hole
before it and the hole after it, where there are such. -/
def Coalesced (p : ℕ) (bs bs' : List (ℕ × Block)) : Prop :=
  ∃ l before x after r a hole, bs = l ++ (before ++ (p, x) :: after) ++ r ∧
    bs' = l ++ (a, hole) :: r ∧ before.length ≤ 1 ∧ after.length ≤ 1 ∧
    (∀ b ∈ before ++ after, b.2.empty = true) ∧
    (∀ b ∈ l.getLast?, b.2.empty = false) ∧ (∀ b ∈ r.head?, b.2.empty = false) ∧
    a ∈ locs (before ++ (p, x) :: after) ∧ FusedInto (blocks (before ++ (p, x) :: after)) hole

/-! ### Fusing -/

section Fusing

variable {run after l r : List Block} {x hole hole' : Block}

theorem FusedInto.single (hx : x.empty = true) : FusedInto [x] x :=
  ⟨hx, rfl, rfl, by simp⟩

/-- Fusing in two steps. -/
theorem FusedInto.trans (h : FusedInto run hole) (h' : FusedInto (hole :: after) hole') :
    FusedInto (run ++ after) hole' := by
  have hstart := h.start
  have hend := h.end_
  have hsize := h'.size
  obtain ⟨b, run, rfl⟩ : ∃ b bs, run = b :: bs :=
    List.exists_cons_of_ne_nil (by rintro rfl; cases hstart)
  refine ⟨h'.empty, ?_, ?_, ?_⟩
  · simpa [h'.start] using hstart.trans h'.start
  · cases after with
    | nil => simpa using hend.trans h'.end_
    | cons c after =>
      rw [List.getLast?_append, ← h'.end_]
      simp [List.getLast?_cons]
  · rw [List.map_cons, List.sum_cons, ← h.size] at hsize
    rw [List.map_append, List.sum_append, hsize]

/-- A process takes the same place as the hole it leaves. -/
theorem FusedInto.of_released (h : FusedInto (l ++ x.released :: r) hole) :
    FusedInto (l ++ x :: r) hole := by
  refine ⟨h.empty, ?_, ?_, ?_⟩
  · rw [← h.start]
    cases l <;> simp [Block.released]
  · rw [← h.end_, List.getLast?_append, List.getLast?_append]
    cases r <;> simp [Block.released, List.getLast?_cons]
  · rw [← h.size]
    simp [Block.released]

theorem FusedInto.growRight {y : Block} (hy : y.empty = true) :
    FusedInto [y, x] (y.growRight x) :=
  ⟨hy, rfl, rfl, by simp [Block.growRight]⟩

theorem FusedInto.growLeft {z : Block} (hz : z.empty = true) :
    FusedInto [x, z] (z.growLeft x) :=
  ⟨hz, rfl, rfl, by simp [Block.growLeft, add_comm]⟩

/-- A hole between blocks that are no holes. -/
theorem noAdjacentHoles_hole {l r : List (ℕ × Block)} {a : ℕ × Block}
    (hl : NoAdjacentHoles (blocks l)) (hr : NoAdjacentHoles (blocks r))
    (hlast : ∀ b ∈ l.getLast?, b.2.empty = false) (hfirst : ∀ b ∈ r.head?, b.2.empty = false) :
    NoAdjacentHoles (blocks (l ++ ([a] ++ r))) := by
  simp only [blocks_append, blocks_cons, List.singleton_append]
  refine List.isChain_append.mpr ⟨hl, List.isChain_cons.mpr ⟨fun b hb h => ?_, hr⟩,
    fun b hb c _ h => ?_⟩
  · rw [blocks, List.head?_map] at hb
    obtain ⟨d, hd, rfl⟩ := Option.mem_map.mp hb
    simp [hfirst d hd] at h
  · rw [blocks, List.getLast?_map] at hb
    obtain ⟨d, hd, rfl⟩ := Option.mem_map.mp hb
    simp [hlast d hd] at h

/-- The blocks before and after a run of holes are no holes. -/
theorem noAdjacentHoles_sides {l before after r : List (ℕ × Block)} {x : ℕ × Block}
    (hno : NoAdjacentHoles (blocks (l ++ (before ++ x :: (after ++ r)))))
    (hbefore : ∀ b ∈ before, b.2.empty = true) (hafter : ∀ b ∈ after, b.2.empty = true) :
    NoAdjacentHoles (blocks l) ∧ NoAdjacentHoles (blocks r) ∧
      (before ≠ [] → ∀ b ∈ l.getLast?, b.2.empty = false) ∧
      (after ≠ [] → ∀ b ∈ r.head?, b.2.empty = false) := by
  simp only [blocks_append, blocks_cons] at hno
  obtain ⟨hl, hrest, hcross⟩ := List.isChain_append.mp hno
  obtain ⟨-, hx, -⟩ := List.isChain_append.mp hrest
  obtain ⟨-, hr, hcross'⟩ := List.isChain_append.mp (List.isChain_cons.mp hx).2
  refine ⟨hl, hr, fun hne b hb => ?_, fun hne b hb => ?_⟩
  · obtain ⟨d, before, rfl⟩ := List.exists_cons_of_ne_nil hne
    have := hcross b.2 (by simpa [blocks] using ⟨b.1, hb⟩) d.2 (by simp)
    simpa [hbefore d (by simp)] using this
  · obtain ⟨after, d, rfl⟩ := (List.eq_nil_or_concat after).resolve_left hne
    have := hcross' d.2 (by simp) b.2 (by simpa [blocks] using ⟨b.1, hb⟩)
    simpa [hafter d (by simp)] using this

end Fusing

namespace Memory

/-- The blocks of `m` are linked both ways and tile the memory. -/
structure Chained (m : Memory) (bs : List (ℕ × Block)) : Prop where
  links : Seg Block.node m.heap none bs none
  tiles : Tiles 0 (blocks bs) m.maxVal
  bound : m.maxVal < 2 ^ 32

theorem WellFormed.chained {m : Memory} {bs : List (ℕ × Block)} (hm : m.WellFormed bs) :
    m.Chained bs :=
  ⟨hm.links, hm.tiles, hm.bound⟩

section Deletion

variable {m : Memory} {bs l r : List (ℕ × Block)} {c : ℕ} {x : Block}

theorem Chained.nodup (hm : m.Chained bs) : (locs bs).Nodup := nodup_of_tiles hm.links hm.tiles

/-- The sizes of blocks side by side add up to at most the memory. -/
theorem Chained.size_add_le {y : Block} {a : ℕ} (hm : m.Chained (l ++ ([(a, y), (c, x)] ++ r))) :
    y.size + x.size < 2 ^ 32 := by
  obtain ⟨mid, -, ht⟩ := tiles_append.mp (by simpa using hm.tiles :
    Tiles 0 (blocks l ++ ([y, x] ++ blocks r)) m.maxVal)
  obtain ⟨-, -, -, -, -, -, ht⟩ := ht
  have := ht.le
  have := hm.bound
  omega

/-- Replacing blocks by one hole of the same addresses. -/
theorem Chained.fuse {run : List (ℕ × Block)} {hole : Block} {a : ℕ} {m' : Memory}
    (hm : m.Chained (l ++ (run ++ r))) (hmax : m'.maxVal = m.maxVal)
    (hlinks : Seg Block.node m'.heap none (l ++ ([(a, hole)] ++ r)) none)
    (htiles : ∀ lo hi, Tiles lo (blocks run) hi → Tiles lo [hole] hi) :
    m'.Chained (l ++ ([(a, hole)] ++ r)) := by
  have ht : Tiles 0 (blocks l ++ (blocks run ++ blocks r)) m.maxVal := by simpa using hm.tiles
  exact ⟨hlinks, hmax ▸ by simpa using ht.replace [hole] htiles, hmax ▸ hm.bound⟩

theorem release_chained (hm : m.Chained (l ++ ([(c, x)] ++ r))) :
    ∃ h, m.heap.modify c Process.release = some h ∧
      Chained { m with heap := h } (l ++ ([(c, x.released)] ++ r)) := by
  obtain ⟨h, hrel, -, hlinks, -⟩ := release_linked hm.links hm.nodup
  exact ⟨h, hrel, hm.fuse rfl hlinks fun lo hi ht => by simpa [Tiles, Block.released] using ht⟩

/-- The first merge, with the hole before the block if there is one. -/
theorem mergePrev_chained (hm : m.Chained (l ++ ([(c, x)] ++ r))) (hx : x.empty = true) :
    ∃ h l' before a hole, mergePrev m.heap c = some (h, a) ∧ l = l' ++ before ∧
      before.length ≤ 1 ∧ (∀ b ∈ before, b.2.empty = true) ∧
      (before = [] → ∀ b ∈ l'.getLast?, b.2.empty = false) ∧
      Chained { m with heap := h } (l' ++ ([(a, hole)] ++ r)) ∧ a ∈ locs (before ++ [(c, x)]) ∧
      FusedInto (blocks (before ++ [(c, x)])) hole ∧
      ∀ d ∈ locs (before ++ [(c, x)]), d ≠ a → h.read d = none := by
  rcases mergePrev_linked hm.links hm.nodup (by
      rintro l₀ q y rfl
      exact Chained.size_add_le (l := l₀) (by simpa using hm)) with
    ⟨hmerge, hlast⟩ | ⟨l₀, p, y, h, rfl, hy, hmerge, -, hfree, hlinks, -⟩
  · refine ⟨m.heap, l, [], c, x, hmerge, by simp, by simp, by simp, fun _ b hb => ?_, hm, by simp,
      .single hx, by simp⟩
    obtain ⟨l₀, rfl⟩ := List.getLast?_eq_some_iff.mp hb
    exact hlast l₀ b.1 b.2 rfl
  · have hm' : m.Chained (l₀ ++ ([(p, y), (c, x)] ++ r)) := by simpa using hm
    refine ⟨h, l₀, [(p, y)], p, y.growRight x, hmerge, rfl, le_rfl, by simpa using hy, by simp,
      hm'.fuse rfl hlinks fun lo hi ht => ?_, by simp, .growRight hy, fun d hd hne => ?_⟩
    · simp only [blocks_cons, blocks_nil, Tiles, Block.growRight] at ht ⊢
      omega
    · obtain rfl : d = c := by simpa [hne] using hd
      exact hfree

/-- The second merge, with the hole after the block if there is one. -/
theorem mergeNext_chained (hm : m.Chained (l ++ ([(c, x)] ++ r))) (hx : x.empty = true) :
    ∃ m' after r' a hole, m.mergeNext c = some m' ∧ m'.maxVal = m.maxVal ∧ r = after ++ r' ∧
      after.length ≤ 1 ∧ (∀ b ∈ after, b.2.empty = true) ∧
      (after = [] → ∀ b ∈ r'.head?, b.2.empty = false) ∧
      m'.Chained (l ++ ([(a, hole)] ++ r')) ∧ a ∈ locs ((c, x) :: after) ∧
      FusedInto (blocks ((c, x) :: after)) hole ∧
      (∀ d ∈ locs ((c, x) :: after), d ≠ a → m'.heap.read d = none) ∧
      ∀ d, m.heap.read d = none → m'.heap.read d = none := by
  rcases mergeNext_linked hm.links hm.nodup (by
      rintro q z r₀ rfl
      have := Chained.size_add_le (r := r₀) (by simpa using hm)
      omega) with
    ⟨hmerge, hfirst⟩ | ⟨n, z, r₀, m', rfl, hz, hmerge, -, hmax, -, -, hfree, hlinks, hkeep⟩
  · refine ⟨m, [], r, c, x, hmerge, rfl, rfl, by simp, by simp, fun _ b hb => ?_, hm, by simp,
      .single hx, by simp, fun d hd => hd⟩
    obtain ⟨r₀, rfl⟩ := List.head?_eq_some_iff.mp hb
    exact hfirst b.1 b.2 r₀ rfl
  · have hm' : m.Chained (l ++ ([(c, x), (n, z)] ++ r₀)) := by simpa using hm
    refine ⟨m', [(n, z)], r₀, n, z.growLeft x, hmerge, hmax, rfl, le_rfl, by simpa using hz,
      by simp, hm'.fuse hmax hlinks fun lo hi ht => ?_, by simp, .growLeft hz, fun d hd hne => ?_,
      fun d hd => ?_⟩
    · simp only [blocks_cons, blocks_nil, Tiles, Block.growLeft] at ht ⊢
      omega
    · obtain rfl : d = c := by simpa [hne] using hd
      exact hfree
    · have hout : d ∉ locs (l ++ ([(c, x)] ++ (n, z) :: r₀)) := fun hmem => by
        have := hm.links.read_isSome hmem
        simp [hd] at this
      exact (hkeep d hout).trans hd

end Deletion

/-- `deleteProcess` coalesces exactly: what it leaves is a chain from the block without a
`prev`, it tiles the memory, no two holes are adjacent, and it is the old list with the
block fused with the holes beside it. A block that is gone is freed. -/
theorem deleteProcess_coalesces (m : Memory) (bs : List (ℕ × Block)) (hm : m.Chained bs)
    (hno : NoAdjacentHoles (blocks bs)) (p : ℕ) (hp : p ∈ locs bs) :
    ∃ m' bs' a, m.deleteProcess p = some m' ∧ m'.maxVal = m.maxVal ∧
      first bs' none = some a ∧ screenshotFrom m'.heap (m'.heap.fresh + 1) a = some bs' ∧
      m'.Chained bs' ∧ NoAdjacentHoles (blocks bs') ∧ Coalesced p bs bs' ∧
      ∀ d ∈ locs bs, d ∉ locs bs' → m'.heap.read d = none := by
  obtain ⟨x, hx⟩ := mem_locs.mp hp
  obtain ⟨l, r, rfl⟩ := List.append_of_mem hx
  obtain ⟨h₁, hrel, hm₁⟩ := release_chained hm
  obtain ⟨h₂, l', before, a, hole, hprev, rfl, hlen, hholes, hlast, hm₂, ha, hfused, hfreed⟩ :=
    mergePrev_chained hm₁ rfl
  obtain ⟨m', after, r', a', hole', hnext, hmax, rfl, hlen', hholes', hfirst, hm', ha', hfused',
    hfreed', hfreed''⟩ := mergeNext_chained hm₂ hfused.empty
  have hdelete : m.deleteProcess p = some m' := by
    simp only [deleteProcess, hrel, Option.bind_eq_bind, Option.bind_some]
    simpa [hprev] using hnext
  obtain ⟨f, hf⟩ : ∃ f, first (l' ++ ([(a', hole')] ++ r')) none = some f := by
    cases l' <;> simp
  -- the blocks on either side of the hole are no holes
  have hno' : NoAdjacentHoles (blocks (l' ++ (before ++ (p, x) :: (after ++ r')))) := by
    simpa using hno
  obtain ⟨hnol, hnor, hlast', hfirst'⟩ := noAdjacentHoles_sides hno' hholes hholes'
  have hl' : ∀ b ∈ l'.getLast?, b.2.empty = false := fun b hb => by
    by_cases hbefore : before = []
    · exact hlast hbefore b hb
    · exact hlast' hbefore b hb
  have hr' : ∀ b ∈ r'.head?, b.2.empty = false := fun b hb => by
    by_cases hafter : after = []
    · exact hfirst hafter b hb
    · exact hfirst' hafter b hb
  refine ⟨m', l' ++ ([(a', hole')] ++ r'), f, hdelete, hmax, hf, ?_, hm', ?_, ?_, fun d hd hd' => ?_⟩
  · apply screenshotFrom_of_path hm'.links.path hf
    have := hm'.links.length_le hm'.nodup
    omega
  · exact noAdjacentHoles_hole hnol hnor hl' hr'
  · refine ⟨l', before, x, after, r', a', hole', by simp, by simp, hlen, hlen', ?_, hl', hr', ?_, ?_⟩
    · intro b hb
      exact (List.mem_append.mp hb).elim (hholes b) (hholes' b)
    · have : a' = a ∨ a' ∈ locs after := by simpa using ha'
      have : a ∈ locs before ∨ a = p := by simpa using ha
      simp only [locs_append, locs_cons, List.mem_append, List.mem_cons]
      grind
    · have hboth := hfused.trans (by simpa using hfused')
      rw [← blocks_append, List.append_assoc] at hboth
      simpa using FusedInto.of_released (l := blocks before) (by simpa using hboth)
  · have hd₁ : d ∈ locs l' ∨ d ∈ locs before ∨ d = p ∨ d ∈ locs after ∨ d ∈ locs r' := by
      simpa using hd
    have hd₂ : d ∉ locs l' ∧ d ≠ a' ∧ d ∉ locs r' := by simpa using hd'
    by_cases hda : d ∈ locs ((a, hole) :: after)
    · exact hfreed' d hda hd₂.2.1
    · have hda' : d ≠ a ∧ d ∉ locs after := by simpa using hda
      apply hfreed'' d (hfreed d _ hda'.1)
      simp only [locs_append, locs_cons, locs_nil, List.mem_append, List.mem_singleton]
      rcases hd₁ with h | h | h | h | h
      · exact absurd h hd₂.1
      · exact Or.inl h
      · exact Or.inr h
      · exact absurd h hda'.2
      · exact absurd h hd₂.2.2

/-- A process of two bytes between two holes of one byte. -/
def betweenHoles : Memory where
  heap := ((Heap.empty.alloc ⟨-1, -1, 0, 0, 1, none, some 1, true⟩).alloc
    ⟨2, 0, 1, 2, 2, some 0, some 2, false⟩).alloc ⟨-1, 0, 3, 3, 1, some 1, none, true⟩
  maxVal := 4
  numOfProcesses := 3
  root := 0

theorem deleteProcess_between_holes : ∃ m' bs' a, betweenHoles.deleteProcess 1 = some m' ∧
    first bs' none = some a ∧ screenshotFrom m'.heap (m'.heap.fresh + 1) a = some bs' ∧
      m'.Chained bs' ∧ NoAdjacentHoles (blocks bs') ∧
        Coalesced 1 [(0, ⟨-1, -1, 0, 0, 1, true⟩), (1, ⟨2, 0, 1, 2, 2, false⟩),
          (2, ⟨-1, 0, 3, 3, 1, true⟩)] bs' := by
  have hm : betweenHoles.Chained [(0, ⟨-1, -1, 0, 0, 1, true⟩), (1, ⟨2, 0, 1, 2, 2, false⟩),
      (2, ⟨-1, 0, 3, 3, 1, true⟩)] :=
    ⟨⟨rfl, rfl, rfl, trivial⟩,
      ⟨rfl, by decide, rfl, rfl, by decide, rfl, rfl, by decide, rfl, rfl⟩, by decide⟩
  obtain ⟨m', bs', a, hdel, -, hfirst, hshot, hm', hno, hco, -⟩ :=
    deleteProcess_coalesces betweenHoles _ hm (by simp [NoAdjacentHoles]) 1 (by simp)
  exact ⟨m', bs', a, hdel, hfirst, hshot, hm', hno, hco⟩

end Memory

end SchoolProjects.OSProject
