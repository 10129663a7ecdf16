import SchoolProjects.OSProject.BlockMerge

/-! The invariant of the block list and what `insert` and `deleteProcess` do to it.
`insert` keeps it unless it fills a hole that has a block after it;
`deleteProcess` always keeps it, but may leave `root` on a freed block. -/

namespace SchoolProjects.OSProject
open LinkedChain

/-- The blocks of `m` in order: a chain without repetition whose blocks tile the
memory. `root` is the first block, or a block freed earlier. -/
structure Memory.Linked (m : Memory) (bs : List (ℕ × Block)) : Prop where
  seg : Seg Block.node m.heap none bs none
  nodup : (locs bs).Nodup
  tiles : Tiles 0 (blocks bs) m.maxVal
  pos : 0 < m.maxVal
  bound : m.maxVal < 2 ^ 32
  root : m.heap.read m.root = none ∨ first bs none = some m.root

namespace Memory

variable {m : Memory} {bs l r : List (ℕ × Block)} {c : ℕ} {x : Block}

/-- `Memory(int m)`: one hole over the whole memory. -/
theorem new_linked {n : ℕ} (h0 : 1 ≤ n) (h1 : n < 2 ^ 32) :
    (Memory.new (int32 n)).Linked [(0, ⟨-1, 0, 0, n - 1, n, true⟩)] := by
  have hend : uint32 (int32 n - 1) = n - 1 := by
    rw [sub_eq_add_neg, uint32_add_int32]
    unfold uint32; omega
  have hsize : uint32 (int32 n - 0) = n := by rw [sub_zero, uint32_int32, uint32_natCast h1]
  have hmax : (Memory.new (int32 n)).maxVal = n := by
    unfold Memory.new
    rw [uint32_int32, uint32_natCast h1]
  constructor
  · rw [sub_zero] at hsize
    simp [Memory.new, Heap.empty, Block.node, hend, hsize]
  · simp
  · rw [hmax]
    simp [Tiles]; omega
  · rw [hmax]; omega
  · rw [hmax]; omega
  · exact Or.inr rfl

theorem Linked.ne_nil (hm : m.Linked bs) : bs ≠ [] := by
  rintro rfl
  have ht : 0 = m.maxVal := hm.tiles
  have := hm.pos
  omega

/-- The sizes of blocks side by side add up to at most the memory. -/
theorem Linked.size_add_le {y : Block} {a : ℕ} (hm : m.Linked (l ++ ([(a, y), (c, x)] ++ r))) :
    y.size + x.size ≤ m.maxVal := by
  obtain ⟨mid, -, ht⟩ := tiles_append.mp (by simpa using hm.tiles :
    Tiles 0 (blocks l ++ ([y, x] ++ blocks r)) m.maxVal)
  obtain ⟨-, -, -, -, -, -, ht⟩ := ht
  have := ht.le
  omega

/-- A memory with the block list of `m`, except for changes `Tiles` does not see. -/
theorem Linked.of_seg {m' : Memory} {bs' : List (ℕ × Block)} (hm : m.Linked bs)
    (hmax : m'.maxVal = m.maxVal) (hseg : Seg Block.node m'.heap none bs' none)
    (hnd : (locs bs').Nodup) (ht : Tiles 0 (blocks bs') m.maxVal)
    (hroot : m'.heap.read m'.root = none ∨ first bs' none = some m'.root) : m'.Linked bs' :=
  ⟨hseg, hnd, hmax ▸ ht, hmax ▸ hm.pos, hmax ▸ hm.bound, hroot⟩

/-! ### `deleteProcess` -/

/-- A freed location is not on the chain, so that a frame fact covers a freed root. -/
theorem Linked.not_mem_of_none (hm : m.Linked bs) {a : ℕ} (ha : m.heap.read a = none) :
    a ∉ locs bs := fun hmem => by
  have := hm.seg.read_isSome hmem
  simp [ha] at this

theorem release_ok (hm : m.Linked (l ++ ([(c, x)] ++ r))) :
    ∃ h, m.heap.modify c Process.release = some h ∧ h.fresh = m.heap.fresh ∧
      Linked { m with heap := h } (l ++ ([(c, x.released)] ++ r)) := by
  obtain ⟨h, hrel, hf, hseg, hkeep⟩ := release_linked hm.seg hm.nodup
  refine ⟨h, hrel, hf, hm.of_seg rfl hseg ?_ ?_ ?_⟩
  · simpa using hm.nodup
  · have ht : Tiles 0 (blocks l ++ ([x] ++ blocks r)) m.maxVal := by simpa using hm.tiles
    simpa using ht.replace [x.released] fun a b ht => by simpa [Tiles, Block.released] using ht
  · refine hm.root.imp (fun h0 => ?_) (fun h1 => ?_)
    · have := hm.not_mem_of_none h0
      simp only [locs_append, locs_cons, locs_nil, List.mem_append, List.mem_singleton,
        not_or] at this
      simpa [hkeep m.root this.2.1] using h0
    · simpa using h1

/-- The first merge keeps the chain; the block it leaves is a hole. -/
theorem mergePrev_ok (hm : m.Linked (l ++ ([(c, x)] ++ r))) (hx : x.empty = true) :
    ∃ h l' c' x', mergePrev m.heap c = some (h, c') ∧ h.fresh = m.heap.fresh ∧
      Linked { m with heap := h } (l' ++ ([(c', x')] ++ r)) ∧ x'.empty = true ∧
      (∀ b, b.2.empty = false →
        (b ∈ l' ++ ([(c', x')] ++ r) ↔ b ∈ l ++ ([(c, x)] ++ r))) ∧
      first (l' ++ ([(c', x')] ++ r)) none = first (l ++ ([(c, x)] ++ r)) none ∧
      ((l' = l ∧ x' = x) ∨
        ∃ y, l = l' ++ [(c', y)] ∧ y.empty = true ∧ x'.size = y.size + x.size) := by
  rcases mergePrev_linked hm.seg hm.nodup (by
      rintro l₀ q y rfl
      have := Linked.size_add_le (l := l₀) (by simpa using hm)
      have := hm.bound
      omega) with ⟨hmerge, -⟩ | ⟨l₀, p, y, h, rfl, hy, hmerge, hf, hfree, hseg, hkeep⟩
  · exact ⟨m.heap, l, c, x, hmerge, rfl, hm, hx, fun b _ => Iff.rfl, rfl, Or.inl ⟨rfl, rfl⟩⟩
  · have hfirst : first (l₀ ++ ([(p, y.growRight x)] ++ r)) none =
        first (l₀ ++ [(p, y)] ++ ([(c, x)] ++ r)) none := by simp
    refine ⟨h, l₀, p, y.growRight x, hmerge, hf, hm.of_seg rfl hseg ?_ ?_ ?_, hy, fun b hb => ?_,
      hfirst, Or.inr ⟨y, rfl, hy, rfl⟩⟩
    · exact hm.nodup.sublist (by simp)
    · have ht : Tiles 0 (blocks l₀ ++ ([y, x] ++ blocks r)) m.maxVal := by simpa using hm.tiles
      simpa using ht.replace [y.growRight x] fun a b ht => by
        simp only [Tiles, Block.growRight] at ht ⊢
        omega
    · refine hm.root.imp (fun h0 => ?_) (fun h1 => ?_)
      · exact (hkeep m.root (hm.not_mem_of_none h0)).trans h0
      · rw [hfirst]; exact h1
    · simp only [List.mem_append, List.mem_singleton]
      have h1 : b ≠ (p, y.growRight x) := by rintro rfl; simp [Block.growRight, hy] at hb
      have h2 : b ≠ (p, y) := by rintro rfl; simp [hy] at hb
      have h3 : b ≠ (c, x) := by rintro rfl; simp [hx] at hb
      tauto

/-- The second merge keeps the chain. It frees the first block when that block is
taken over by the hole after it and the two do not make up the whole memory. -/
theorem mergeNext_ok (hm : m.Linked (l ++ ([(c, x)] ++ r))) (hx : x.empty = true) :
    ∃ m' bs', m.mergeNext c = some m' ∧ m'.Linked bs' ∧ m'.heap.fresh = m.heap.fresh ∧
      m'.maxVal = m.maxVal ∧ m'.numOfProcesses = m.numOfProcesses ∧
      (∀ b, b.2.empty = false → (b ∈ bs' ↔ b ∈ l ++ ([(c, x)] ++ r))) ∧
      (first (l ++ ([(c, x)] ++ r)) none = some m.root →
        (∀ q z r₀, l = [] → r = (q, z) :: r₀ → z.empty = true → m.maxVal ≤ x.size + z.size) →
        first bs' none = some m'.root) := by
  rcases mergeNext_linked hm.seg hm.nodup (by
      rintro q z r₀ rfl
      have := Linked.size_add_le (r := r₀) (by simpa using hm)
      have := hm.bound
      omega) with ⟨hmerge, -⟩ |
    ⟨n, z, r₀, m', rfl, hz, hmerge, hf, hmax, hnum, hroot, hfree, hseg, hkeep⟩
  · exact ⟨m, _, hmerge, hm, rfl, rfl, rfl, fun b _ => Iff.rfl, fun h _ => h⟩
  · have hsz : z.size + x.size ≤ m.maxVal := by
      have := Linked.size_add_le (r := r₀) (by simpa using hm)
      omega
    have ht : Tiles 0 (blocks l ++ ([z.growLeft x] ++ blocks r₀)) m.maxVal := by
      have ht : Tiles 0 (blocks l ++ ([x, z] ++ blocks r₀)) m.maxVal := by simpa using hm.tiles
      apply ht.replace _
      intro a b ht
      simp only [Tiles, Block.growLeft] at ht ⊢
      omega
    -- a hole as large as the memory is its first block
    have hwhole : m.maxVal ≤ z.size + x.size → l = [] := fun hle => by
      obtain ⟨mid, hl, -, -, -, hr⟩ := tiles_append.mp ht
      have := hr.le
      obtain rfl : mid = 0 := by simp only [Block.growLeft] at this; omega
      simpa [blocks] using hl.eq_nil
    refine ⟨m', _, hmerge, hm.of_seg hmax hseg ?_ (by simpa using ht) ?_, hf, hmax, hnum,
      fun b hb => ?_, fun hfirst hcond => ?_⟩
    · exact hm.nodup.sublist (by simp)
    · rw [hroot]
      split_ifs with hle
      · exact Or.inr (by simp [hwhole hle])
      · rcases hm.root with h0 | h1
        · exact Or.inl ((hkeep m.root (hm.not_mem_of_none h0)).trans h0)
        · rcases l with _ | ⟨b, l⟩
          · obtain rfl : c = m.root := by simpa using h1
            exact Or.inl hfree
          · exact Or.inr (by simpa using h1)
    · simp only [List.mem_append, List.mem_cons, List.not_mem_nil, or_false]
      have h1 : b ≠ (n, z.growLeft x) := by rintro rfl; simp [Block.growLeft, hz] at hb
      have h2 : b ≠ (n, z) := by rintro rfl; simp [hz] at hb
      have h3 : b ≠ (c, x) := by rintro rfl; simp [hx] at hb
      tauto
    · rw [hroot]
      rcases l with _ | ⟨b, l⟩
      · rw [if_pos (by have := hcond n z r₀ rfl rfl hz; omega)]
        rfl
      · rw [if_neg (fun hle => by simpa using hwhole hle)]
        simpa using hfirst

/-- `deleteProcess` keeps the chain and removes no other process from it. The first
block stays first unless it is swallowed by a hole that does not become the whole
memory. -/
theorem deleteProcess_ok (hm : m.Linked (l ++ ([(c, x)] ++ r))) :
    ∃ m' bs', m.deleteProcess c = some m' ∧ m'.Linked bs' ∧ m'.heap.fresh = m.heap.fresh ∧
      m'.maxVal = m.maxVal ∧ m'.numOfProcesses = m.numOfProcesses ∧
      (∀ b, b.2.empty = false → (b ∈ bs' ↔ b ∈ l ++ ([(c, x)] ++ r) ∧ b.1 ≠ c)) ∧
      (first (l ++ ([(c, x)] ++ r)) none = some m.root →
        (∀ q z r₀, r = (q, z) :: r₀ → z.empty = true →
          (l = [] → m.maxVal ≤ x.size + z.size) ∧
          (∀ p y, l = [(p, y)] → y.empty = true → m.maxVal ≤ y.size + x.size + z.size)) →
        first bs' none = some m'.root) := by
  obtain ⟨h₁, hrel, hf₁, hm₁⟩ := release_ok hm
  obtain ⟨h₂, l', c', x', hprev, hf₂, hm₂, hx', hlive₂, hfirst₂, hcase⟩ :=
    mergePrev_ok hm₁ (by rfl)
  obtain ⟨m', bs', hnext, hm', hf', hmax, hnum, hlive', hfirst'⟩ := mergeNext_ok hm₂ hx'
  refine ⟨m', bs', ?_, hm', by rw [hf', hf₂, hf₁], hmax, hnum, fun b hb => ?_,
    fun hfirst hcond => ?_⟩
  · simp only [deleteProcess, hrel, Option.bind_eq_bind, Option.bind_some]
    simpa [hprev] using hnext
  · have hc : (c, x) ∈ l ++ ([(c, x)] ++ r) := by simp
    rw [hlive' b hb, hlive₂ b hb]
    simp only [List.mem_append, List.mem_singleton]
    have h1 : b ≠ (c, x.released) := by rintro rfl; simp [Block.released] at hb
    have hnd := hm.nodup
    simp only [locs_append, locs_cons, locs_nil, List.nodup_append] at hnd
    have hlc : b ∈ l → b.1 ≠ c := fun hbl =>
      hnd.2.2 b.1 (mem_locs.mpr ⟨b.2, hbl⟩) c (by simp)
    have hrc : b ∈ r → b.1 ≠ c := fun hbr =>
      (hnd.2.1.2.2 c (by simp) b.1 (mem_locs.mpr ⟨b.2, hbr⟩)).symm
    constructor
    · rintro (hbl | hbc | hbr)
      · exact ⟨Or.inl hbl, hlc hbl⟩
      · exact absurd hbc h1
      · exact ⟨Or.inr (Or.inr hbr), hrc hbr⟩
    · rintro ⟨hbl | hbc | hbr, hne⟩
      · exact Or.inl hbl
      · exact absurd (by rw [hbc]) hne
      · exact Or.inr (Or.inr hbr)
  · refine hfirst' ?_ fun q z r₀ hl' hr hz => ?_
    · rw [hfirst₂, ← hfirst]
      simp
    · obtain ⟨h0, h1⟩ := hcond q z r₀ hr hz
      rcases hcase with ⟨rfl, rfl⟩ | ⟨y, rfl, hy, hsize⟩
      · exact h0 hl'
      · rw [hsize]
        exact h1 c' y (by rw [hl']; rfl) hy

/-! ### `insert` -/

/-- `hole` is the first hole of at least `size` bytes on the way along `next` from
the block at `a`. -/
inductive FirstFit (h : Heap Process) (size : ℕ) : ℕ → Process → Prop
  | here {a : ℕ} {p : Process} :
      h.read a = some p → p.empty = true → size ≤ p.size → FirstFit h size a p
  | next {a n : ℕ} {p hole : Process} :
      h.read a = some p → ¬ (p.empty = true ∧ size ≤ p.size) → p.next = some n →
      FirstFit h size n hole → FirstFit h size a hole

/-- The first hole that fits has exactly `size` bytes, and a block follows it. -/
def FillsInner (m : Memory) (size : ℕ) : Prop :=
  ∃ hole, FirstFit m.heap size m.root hole ∧ hole.size = size ∧ hole.next ≠ none

/-- The first hole that fits, or that there is none, when this is known after `fuel` blocks. -/
def findFit (h : Heap Process) (size : ℕ) : ℕ → ℕ → Option (Option Process)
  | 0, _ => none
  | fuel + 1, a =>
    match h.read a with
    | none => some none
    | some p =>
      if p.empty = true ∧ size ≤ p.size then some (some p)
      else
        match p.next with
        | none => some none
        | some n => findFit h size fuel n

theorem FirstFit.eq_of_findFit {h : Heap Process} {size a : ℕ} {hole : Process}
    (hfit : FirstFit h size a hole) {fuel : ℕ} {r : Option Process}
    (hfind : findFit h size fuel a = some r) : r = some hole := by
  induction hfit generalizing fuel with
  | here hread hempty hsize =>
    cases fuel with
    | zero => cases hfind
    | succ fuel =>
      simp only [findFit, hread, hempty, hsize, and_self, if_true] at hfind
      exact (Option.some.inj hfind).symm
  | next hread hno hnext _ ih =>
    cases fuel with
    | zero => cases hfind
    | succ fuel =>
      simp only [findFit, hread, if_neg hno, hnext] at hfind
      exact ih hfind

/-- No hole with a block after it is filled, and this is known after as many blocks as there
ever were. -/
def sparesInner (m : Memory) (size : ℕ) : Bool :=
  match findFit m.heap size m.heap.fresh m.root with
  | none => false
  | some none => true
  | some (some hole) => hole.size ≠ size || hole.next = none

theorem not_fillsInner {m : Memory} {size : ℕ} (h : m.sparesInner size = true) :
    ¬ m.FillsInner size := by
  rintro ⟨hole, hfit, hsize, hnext⟩
  unfold sparesInner at h
  split at h
  · cases h
  · next hfind => cases hfit.eq_of_findFit hfind
  · next hole' hfind =>
    obtain rfl := Option.some.inj (hfit.eq_of_findFit hfind)
    simp [hsize, hnext] at h

theorem firstFit_of_seg {h : Heap Process} {size : ℕ} {pv : Option ℕ}
    (hs : Seg Block.node h pv (l ++ (c, x) :: r) none) (hl : ∀ b ∈ l, ¬ b.2.Fits size)
    (hx : x.Fits size) {a : ℕ} (ha : first (l ++ (c, x) :: r) none = some a) :
    FirstFit h size a (x.node (last pv l) (first r none)) := by
  induction l generalizing pv a with
  | nil =>
    obtain rfl : c = a := by simpa using ha
    exact .here hs.1 hx.1 hx.2
  | cons b l ih =>
    obtain rfl : b.1 = a := by simpa using ha
    have hnext : ∃ n, first (l ++ (c, x) :: r) none = some n := by cases l <;> simp
    obtain ⟨n, hn⟩ := hnext
    exact .next hs.1 (hl b (by simp)) (by simpa using hn)
      (ih hs.2 (fun d hd => hl d (by simp [hd])) hn)

/-- The hole at the start of the memory is the one without a block before it. -/
theorem Linked.start_eq_zero (hm : m.Linked (l ++ ([(c, x)] ++ r))) : x.start = 0 ↔ l = [] := by
  obtain ⟨mid, hl, hstart, -⟩ := tiles_append.mp (by simpa using hm.tiles :
    Tiles 0 (blocks l ++ ([x] ++ blocks r)) m.maxVal)
  rw [hstart]
  constructor
  · rintro rfl
    simpa [blocks] using hl.eq_nil
  · rintro rfl
    exact hl.symm

/-- An allocation keeps the chain and adds one process to it. -/
theorem takeSpot_ok (priority : ℤ) {size : ℕ} (hm : m.Linked (l ++ ([(c, x)] ++ r)))
    (hroot : first (l ++ ([(c, x)] ++ r)) none = some m.root) (hs : 1 ≤ size)
    (hx : x.Fits size) (hgood : size < x.size ∨ r = []) :
    ∃ m' bs', m.takeSpot priority size c = some (m', m.heap.fresh) ∧ m'.Linked bs' ∧
      m'.heap.fresh = m.heap.fresh + 1 ∧ m'.maxVal = m.maxVal ∧ first bs' none = some m'.root ∧
      ∀ b, b.2.empty = false → (b ∈ bs' ↔ b ∈ l ++ ([(c, x)] ++ r) ∨
        b = (m.heap.fresh, x.taken m.numOfProcesses priority size)) := by
  have hin : x.start + x.size ≤ m.maxVal := (hm.tiles.mem (by simp)).2.2.2
  have hb := hm.bound
  obtain ⟨m', htake, hmax, hr, hf, hseg, -⟩ := takeSpot_linked priority hm.seg hm.nodup hs hx.2
    (by omega) hm.start_eq_zero hgood
  have hnew : ∀ a ∈ locs (l ++ ([(c, x)] ++ r)), a ≠ m.heap.fresh := fun a ha => hm.seg.ne_fresh ha
  have hfirst : first (l ++ ((m.heap.fresh, x.taken m.numOfProcesses priority size) ::
      remainder size c x ++ r)) none = some m'.root := by
    rw [hr]
    rcases l with _ | ⟨b, l⟩
    · rfl
    · simpa using hroot
  refine ⟨m', _, htake, hm.of_seg hmax hseg ?_ ?_ (Or.inr hfirst), hf, hmax, hfirst, fun b hb => ?_⟩
  · have hsub : (locs (remainder size c x)).Sublist [c] := by
      unfold remainder
      split_ifs <;> simp
    have hnd : (m.heap.fresh :: locs (l ++ ([(c, x)] ++ r))).Nodup :=
      List.nodup_cons.mpr ⟨fun ha => hnew _ ha rfl, hm.nodup⟩
    have hperm : (locs (l ++ ((m.heap.fresh, x.taken m.numOfProcesses priority size) ::
        remainder size c x ++ r))).Perm
        (m.heap.fresh :: (locs l ++ (locs (remainder size c x) ++ locs r))) := by
      simp [List.perm_middle]
    refine (hperm.nodup_iff).mpr (hnd.sublist ?_)
    simpa using (List.Sublist.refl (locs l)).append (hsub.append (List.Sublist.refl (locs r)))
  · have ht : Tiles 0 (blocks l ++ ([x] ++ blocks r)) m.maxVal := by simpa using hm.tiles
    have hle : size ≤ x.size := hx.2
    have ht' := ht.replace (x.taken m.numOfProcesses priority size ::
        blocks (remainder size c x)) fun a b hab => by
      obtain ⟨hst, hp, he, hb⟩ := hab
      simp only [Tiles] at hb
      unfold remainder
      split_ifs with hlt
      · simp only [blocks_cons, blocks_nil, Tiles, Block.taken, Block.rest]
        omega
      · simp only [blocks_nil, Tiles, Block.taken]
        omega
    simpa using ht'
  · have h1 : b ≠ (c, x) := by rintro rfl; simp [hx.1] at hb
    have h2 : b ∉ remainder size c x := by
      unfold remainder
      split_ifs
      · rw [List.mem_singleton]
        rintro rfl
        simp [Block.rest, hx.1] at hb
      · simp
    simp only [List.mem_append, List.mem_cons, List.not_mem_nil, or_false]
    tauto

/-- `insert` rejects the request and leaves the memory as it is, or adds one
process to the chain. It may use the first hole that fits only. -/
theorem insert_ok {size : ℕ} (priority : ℤ) (hm : m.Linked bs)
    (hroot : first bs none = some m.root) (hs : 1 ≤ size) (hgood : ¬ m.FillsInner size) :
    m.insert priority size = some (m, none) ∨
    ∃ (m' : Memory) (bs' : List (ℕ × Block)) (hole : Block),
      m.insert priority size = some (m', some m.heap.fresh) ∧ m'.Linked bs' ∧
      m'.heap.fresh = m.heap.fresh + 1 ∧ m'.maxVal = m.maxVal ∧ first bs' none = some m'.root ∧
      ∀ b, b.2.empty = false → (b ∈ bs' ↔ b ∈ bs ∨
        b = (m.heap.fresh, hole.taken m.numOfProcesses (clampPriority priority) size)) := by
  obtain ⟨b, bs, rfl⟩ := List.exists_cons_of_ne_nil hm.ne_nil
  have hb : b.1 = m.root := by simpa using hroot
  have hlen := hm.seg.length_le hm.nodup
  obtain ⟨l, ⟨c, x⟩, r, found, he, hfind, hl, hfound⟩ :=
    findSpot_spec size (m.heap.fresh + 1) hm.seg (by simp at hlen; omega)
  rw [hb] at hfind
  rw [he] at hm hroot ⊢
  have hc : m.heap.read c = some (x.node (last none l) (first r none)) := hm.seg.read_mid
  rcases hfound with ⟨rfl, hfit, hr⟩ | ⟨rfl, rfl⟩
  · right
    have hlt : size < x.size := by
      refine lt_of_le_of_ne hfit.2 fun hsz =>
        hgood ⟨_, firstFit_of_seg hm.seg hl hfit hroot, hsz.symm, ?_⟩
      obtain ⟨d, r, rfl⟩ := List.exists_cons_of_ne_nil hr
      simp
    obtain ⟨m', bs', htake, hm', hf, hmax, hfirst, hlive⟩ :=
      takeSpot_ok (clampPriority priority) hm hroot hs hfit (Or.inl hlt)
    exact ⟨m', bs', x, by simp [insert, hfind, htake], hm', hf, hmax, hfirst, hlive⟩
  · by_cases hfit : x.Fits size
    · right
      obtain ⟨m', bs', htake, hm', hf, hmax, hfirst, hlive⟩ :=
        takeSpot_ok (clampPriority priority) hm hroot hs hfit (Or.inr rfl)
      have hfit' : x.empty = true ∧ size ≤ x.size := hfit
      exact ⟨m', bs', x, by simp [insert, hfind, htake, hc, hfit'], hm', hf, hmax, hfirst, hlive⟩
    · left
      have hfit' : ¬ (x.empty = true ∧ size ≤ x.size) := hfit
      simp [insert, hfind, hc, hfit']

end Memory
end SchoolProjects.OSProject
