import SchoolProjects.OSProject.Coalescing
import SchoolProjects.OSProject.Safety

/-! The block list over whole runs. While `root` stays the first block, `screenshot`
prints the memory cut into the live processes, each under its own number, and holes of
which no two are side by side. So a memory without processes is one hole again, and a
request is turned down only where no hole is large enough for it. -/

namespace SchoolProjects.OSProject

open Transition LinkedChain

namespace Memory

/-! ### The numbers of holes -/

/-- A hole has the process number -1, also one that is on no list any more. -/
def HolesNamed (h : Heap Process) : Prop :=
  ∀ a p, h.read a = some p → p.empty = true → p.processNumber = -1

section HolesNamed

variable {h h' : Heap Process} {m m' : Memory}

theorem HolesNamed.alloc (hn : HolesNamed h) {x : Process} (hx : x.empty = false) :
    HolesNamed (h.alloc x) := by
  intro a p hp he
  rw [Heap.read_alloc] at hp
  split_ifs at hp with ha
  · obtain rfl := Option.some.inj hp
    simp [hx] at he
  · exact hn a p hp he

theorem HolesNamed.modify (hn : HolesNamed h) {c : ℕ} {f : Process → Process}
    (hf : ∀ p, (p.empty = true → p.processNumber = -1) →
      (f p).empty = true → (f p).processNumber = -1)
    (hm : h.modify c f = some h') : HolesNamed h' := by
  cases hc : h.read c with
  | none =>
    unfold Heap.modify at hm
    split at hm
    · cases hm
    · next x hx => simp [hc] at hx
  | some x =>
    rw [Heap.modify_of_read f hc] at hm
    obtain rfl := Option.some.inj hm
    intro a p hp he
    rw [Heap.read_put] at hp
    split_ifs at hp with ha
    · obtain rfl := Option.some.inj hp
      exact hf x (hn c x hc) he
    · exact hn a p hp he

/-- A store that keeps the process number and the `empty` flag. -/
theorem HolesNamed.assign (hn : HolesNamed h) {c : ℕ} {f : Process → Process}
    (hm : h.modify c f = some h')
    (hf : ∀ p, (f p).empty = p.empty ∧ (f p).processNumber = p.processNumber) :
    HolesNamed h' := by
  apply hn.modify _ hm
  intro p hp he
  rw [(hf p).2]
  exact hp ((hf p).1 ▸ he)

theorem HolesNamed.store (hn : HolesNamed h) {p : Option ℕ} {f : Process → Process}
    (hm : Memory.store h p f = some h')
    (hf : ∀ p, (f p).empty = p.empty ∧ (f p).processNumber = p.processNumber) :
    HolesNamed h' := by
  cases p with
  | none =>
    obtain rfl := Option.some.inj hm
    exact hn
  | some p => exact hn.assign hm hf

theorem HolesNamed.free (hn : HolesNamed h) {c : ℕ} (hm : h.free c = some h') :
    HolesNamed h' := by
  cases hc : h.read c with
  | none =>
    unfold Heap.free at hm
    split at hm
    · cases hm
    · next x hx => simp [hc] at hx
  | some x =>
    rw [Heap.free_of_read hc] at hm
    obtain rfl := Option.some.inj hm
    intro a p hp he
    rw [Heap.read_put] at hp
    split_ifs at hp
    exact hn a p hp he

theorem HolesNamed.linkSpot (hn : HolesNamed h) {cur : Process} {nEnd : ℤ} {size c t : ℕ}
    (hm : Memory.linkSpot h cur nEnd size c t = some h') : HolesNamed h' := by
  unfold Memory.linkSpot at hm
  split_ifs at hm
  · exact hn.assign hm fun _ => ⟨rfl, rfl⟩
  · exact hn.assign hm fun _ => ⟨rfl, rfl⟩

theorem HolesNamed.takeSpot (hn : HolesNamed m.heap) {priority : ℤ} {size c t : ℕ}
    (hm : m.takeSpot priority size c = some (m', t)) : HolesNamed m'.heap := by
  obtain ⟨cur, hcur, hm⟩ := Option.bind_eq_some_iff.mp hm
  obtain ⟨h, hlink, hm⟩ := Option.bind_eq_some_iff.mp hm
  have hnh : HolesNamed h := HolesNamed.linkSpot (hn.alloc (by rfl)) hlink
  split_ifs at hm with hroot
  · obtain rfl : _ = m' := (Prod.mk.inj (Option.some.inj hm)).1
    exact hnh
  · obtain ⟨prev, -, hm⟩ := Option.bind_eq_some_iff.mp hm
    obtain ⟨h', hstore, hm⟩ := Option.bind_eq_some_iff.mp hm
    obtain rfl : _ = m' := (Prod.mk.inj (Option.some.inj hm)).1
    exact hnh.assign hstore fun _ => ⟨rfl, rfl⟩

theorem HolesNamed.mergePrev (hn : HolesNamed h) {c c' : ℕ}
    (hm : Memory.mergePrev h c = some (h', c')) : HolesNamed h' := by
  obtain ⟨cur, -, hm⟩ := Option.bind_eq_some_iff.mp hm
  cases hprev : cur.prev with
  | none =>
    simp only [hprev] at hm
    obtain rfl : h = h' := (Prod.mk.inj (Option.some.inj hm)).1
    exact hn
  | some prev =>
    simp only [hprev] at hm
    obtain ⟨p, -, hm⟩ := Option.bind_eq_some_iff.mp hm
    split_ifs at hm with hempty
    · obtain ⟨h₁, hgrow, hm⟩ := Option.bind_eq_some_iff.mp hm
      obtain ⟨h₂, hstore, hm⟩ := Option.bind_eq_some_iff.mp hm
      obtain ⟨h₃, hfree, hm⟩ := Option.bind_eq_some_iff.mp hm
      obtain rfl : h₃ = h' := (Prod.mk.inj (Option.some.inj hm)).1
      have hgrown := hn.assign hgrow fun _ => ⟨rfl, rfl⟩
      exact (hgrown.store hstore fun _ => ⟨rfl, rfl⟩).free hfree
    · obtain rfl : h = h' := (Prod.mk.inj (Option.some.inj hm)).1
      exact hn

/-- `mergeNext` leaves `root` alone or moves it to the block after `c`. -/
theorem mergeNext_root {c : ℕ} (hm : m.mergeNext c = some m') :
    m'.root = m.root ∨ ∃ cur, m.heap.read c = some cur ∧ cur.next = some m'.root := by
  obtain ⟨cur, hcur, hm⟩ := Option.bind_eq_some_iff.mp hm
  cases hnext : cur.next with
  | none =>
    simp only [hnext] at hm
    obtain rfl : m = m' := Option.some.inj hm
    exact Or.inl rfl
  | some next =>
    simp only [hnext] at hm
    obtain ⟨n, -, hm⟩ := Option.bind_eq_some_iff.mp hm
    split_ifs at hm with hempty
    · obtain ⟨h₁, -, hm⟩ := Option.bind_eq_some_iff.mp hm
      obtain ⟨h₂, -, hm⟩ := Option.bind_eq_some_iff.mp hm
      obtain ⟨n', -, hm⟩ := Option.bind_eq_some_iff.mp hm
      obtain ⟨h₃, -, hm⟩ := Option.bind_eq_some_iff.mp hm
      obtain rfl := Option.some.inj hm
      change (if m.maxVal ≤ n'.size then next else m.root) = m.root ∨
        ∃ cur, m.heap.read c = some cur ∧
          cur.next = some (if m.maxVal ≤ n'.size then next else m.root)
      split_ifs
      · exact Or.inr ⟨cur, hcur, hnext⟩
      · exact Or.inl rfl
    · obtain rfl : m = m' := Option.some.inj hm
      exact Or.inl rfl

theorem HolesNamed.mergeNext (hn : HolesNamed m.heap) {c : ℕ} (hm : m.mergeNext c = some m') :
    HolesNamed m'.heap := by
  obtain ⟨cur, -, hm⟩ := Option.bind_eq_some_iff.mp hm
  cases hnext : cur.next with
  | none =>
    simp only [hnext] at hm
    obtain rfl : m = m' := Option.some.inj hm
    exact hn
  | some next =>
    simp only [hnext] at hm
    obtain ⟨n, -, hm⟩ := Option.bind_eq_some_iff.mp hm
    split_ifs at hm with hempty
    · obtain ⟨h₁, hgrow, hm⟩ := Option.bind_eq_some_iff.mp hm
      obtain ⟨h₂, hstore, hm⟩ := Option.bind_eq_some_iff.mp hm
      obtain ⟨n', -, hm⟩ := Option.bind_eq_some_iff.mp hm
      obtain ⟨h₃, hfree, hm⟩ := Option.bind_eq_some_iff.mp hm
      obtain rfl := Option.some.inj hm
      have hgrown := hn.assign hgrow fun _ => ⟨rfl, rfl⟩
      exact (hgrown.store hstore fun _ => ⟨rfl, rfl⟩).free hfree
    · obtain rfl : m = m' := Option.some.inj hm
      exact hn

theorem HolesNamed.deleteProcess (hn : HolesNamed m.heap) {c : ℕ}
    (hm : m.deleteProcess c = some m') : HolesNamed m'.heap := by
  obtain ⟨h₁, hrelease, hm⟩ := Option.bind_eq_some_iff.mp hm
  obtain ⟨⟨h₂, c'⟩, hprev, hm⟩ := Option.bind_eq_some_iff.mp hm
  have hn₂ := (hn.modify (fun _ _ _ => rfl) hrelease).mergePrev hprev
  exact HolesNamed.mergeNext (m := { m with heap := h₂ }) hn₂ hm

end HolesNamed

/-! ### The lists that the operations leave -/

section Lists

variable {m m' : Memory} {bs bs' l r : List (ℕ × Block)} {c : ℕ} {x : Block}

/-- Only one list is read along `next` from a block. -/
theorem eq_of_path {h : Heap Process} {a : ℕ} (hp : Path Block.node h bs none)
    (ha : first bs none = some a) (hp' : Path Block.node h bs' none)
    (ha' : first bs' none = some a) : bs = bs' := by
  have hread := screenshotFrom_of_path hp ha (le_max_left bs.length bs'.length)
  rw [screenshotFrom_of_path hp' ha' (le_max_right bs.length bs'.length)] at hread
  exact (Option.some.inj hread).symm

/-- The one block of a chain that has no block before it is the first. -/
theorem first_of_prev {h : Heap Process} {a : ℕ} (hs : Seg Block.node h none bs none)
    (ha : a ∈ locs bs) {p : Process} (hp : h.read a = some p) (hprev : p.prev = none) :
    first bs none = some a := by
  obtain ⟨x, hx⟩ := mem_locs.mp ha
  obtain ⟨l, r, rfl⟩ := List.append_of_mem hx
  obtain rfl := Option.some.inj (hp.symm.trans hs.read_mid)
  obtain rfl := last_eq_none.mp hprev
  rfl

/-- A process in the place of a hole, with what remains of the hole after it. -/
theorem noAdjacentHoles_taken {size : ℕ} {t : ℕ × Block}
    (hno : NoAdjacentHoles (blocks (l ++ ([(c, x)] ++ r)))) (hx : x.empty = true)
    (ht : t.2.empty = false) :
    NoAdjacentHoles (blocks (l ++ (t :: remainder size c x ++ r))) := by
  simp only [NoAdjacentHoles, blocks_append, blocks_cons, List.singleton_append,
    List.isChain_append, List.isChain_cons] at hno
  obtain ⟨hl, ⟨hfirst, hr⟩, -⟩ := hno
  unfold remainder
  split_ifs with hlt
  · have hrest : (x.rest size).empty = true := hx
    simp only [NoAdjacentHoles, blocks_append, blocks_cons, List.cons_append, List.nil_append,
      List.isChain_append, List.isChain_cons]
    refine ⟨hl, ⟨fun y _ h => by simp [ht] at h, fun y hy h => hfirst y hy ⟨hx, h.2⟩, hr⟩, ?_⟩
    rintro y - z hz ⟨-, h⟩
    obtain rfl : t.2 = z := by simpa using hz
    simp [ht] at h
  · simp only [NoAdjacentHoles, blocks_append, blocks_cons, List.cons_append, List.nil_append,
      List.isChain_append, List.isChain_cons]
    refine ⟨hl, ⟨fun y _ h => by simp [ht] at h, hr⟩, ?_⟩
    rintro y - z hz ⟨-, h⟩
    obtain rfl : t.2 = z := by simpa using hz
    simp [ht] at h

/-- An allocation that splits the first hole that fits, or fills the last one, leaves
no two holes side by side. -/
theorem takeSpot_apart (priority : ℤ) {size : ℕ} (hm : m.WellFormed (l ++ ([(c, x)] ++ r)))
    (hno : NoAdjacentHoles (blocks (l ++ ([(c, x)] ++ r)))) (hs : 1 ≤ size) (hx : x.Fits size)
    (hgood : size < x.size ∨ r = []) :
    ∃ m' bs', m.takeSpot priority size c = some (m', m.heap.fresh) ∧ m'.WellFormed bs' ∧
      m'.heap.fresh = m.heap.fresh + 1 ∧ m'.maxVal = m.maxVal ∧
      m'.numOfProcesses = int32 (m.numOfProcesses + 1) ∧ NoAdjacentHoles (blocks bs') ∧
      ∀ b, b.2.empty = false → (b ∈ bs' ↔ b ∈ l ++ ([(c, x)] ++ r) ∨
        b = (m.heap.fresh, x.taken m.numOfProcesses priority size)) := by
  have hlinked := hm.linked
  have hin : x.start + x.size < 2 ^ 32 :=
    ((hm.tiles.mem (by simp)).2.2.2).trans_lt hm.bound
  obtain ⟨m', bs', htake, hm', hf, hmax, hroot, hlive⟩ :=
    takeSpot_ok priority hlinked hm.root hs hx hgood
  obtain ⟨m₁, htake₁, -, hroot₁, -, hseg, -⟩ := takeSpot_linked priority hm.links hlinked.nodup hs
    hx.2 hin hlinked.start_eq_zero hgood
  obtain ⟨m₂, htake₂, -, hnum, -⟩ := takeSpot_nodes priority hm.links hlinked.nodup hs hx.2 hin
    hlinked.start_eq_zero
  obtain rfl : m₁ = m' := (Prod.mk.inj (Option.some.inj (htake₁.symm.trans htake))).1
  obtain rfl : m₂ = m₁ := (Prod.mk.inj (Option.some.inj (htake₂.symm.trans htake))).1
  have hfirst : first (l ++ ((m.heap.fresh, x.taken m.numOfProcesses priority size) ::
      remainder size c x ++ r)) none = some m₂.root := by
    rw [hroot₁]
    cases l with
    | nil => rfl
    | cons b l => simpa using hm.root
  obtain rfl := eq_of_path hseg.path hfirst hm'.seg.path hroot
  exact ⟨m₂, _, htake, ⟨hroot, hseg, hm'.tiles, hm'.bound⟩, hf, hmax, hnum,
    noAdjacentHoles_taken hno hx.1 rfl, hlive⟩

/-- A deletion leaves no two holes side by side, and frees every block that it takes
from the list. -/
theorem deleteProcess_chained (hm : m.Chained (l ++ ([(c, x)] ++ r)))
    (hno : NoAdjacentHoles (blocks (l ++ ([(c, x)] ++ r)))) :
    ∃ m' bs', m.deleteProcess c = some m' ∧ m'.Chained bs' ∧ NoAdjacentHoles (blocks bs') ∧
      (m'.root = m.root ∨ m'.root ∈ locs (l ++ ([(c, x)] ++ r))) ∧
      ∀ d ∈ locs (l ++ ([(c, x)] ++ r)), d ∉ locs bs' → m'.heap.read d = none := by
  obtain ⟨h₁, hrel, hm₁⟩ := release_chained hm
  obtain ⟨h₂, l', before, a, hole, hprev, rfl, -, hholes, hlast, hm₂, ha, hfused, hfreed⟩ :=
    mergePrev_chained hm₁ rfl
  obtain ⟨m', after, r', a', hole', hnext, hmax, rfl, -, hholes', hfirst, hm', ha', hfused',
    hfreed', hfreed''⟩ := mergeNext_chained hm₂ hfused.empty
  have hdelete : m.deleteProcess c = some m' := by
    simp only [deleteProcess, hrel, Option.bind_eq_bind, Option.bind_some]
    simpa [hprev] using hnext
  obtain ⟨hnol, hnor, hlast', hfirst'⟩ := noAdjacentHoles_sides
    (by simpa using hno : NoAdjacentHoles (blocks (l' ++ (before ++ (c, x) :: (after ++ r')))))
    hholes hholes'
  refine ⟨m', _, hdelete, hm', noAdjacentHoles_hole hnol hnor (fun b hb => ?_) fun b hb => ?_,
    ?_, fun d hd hd' => ?_⟩
  · by_cases hbefore : before = []
    · exact hlast hbefore b hb
    · exact hlast' hbefore b hb
  · by_cases hafter : after = []
    · exact hfirst hafter b hb
    · exact hfirst' hafter b hb
  · refine (mergeNext_root hnext).imp id ?_
    rintro ⟨cur, hcur, hroot⟩
    obtain rfl := Option.some.inj (hcur.symm.trans hm₂.links.read_mid)
    have hmem : m'.root ∈ locs (after ++ r') := mem_of_first hroot
    rw [locs_append, locs_append]
    exact List.mem_append_right _ (List.mem_cons_of_mem c hmem)
  · have hd₁ : d ∈ locs l' ∨ d ∈ locs before ∨ d = c ∨ d ∈ locs after ∨ d ∈ locs r' := by
      simpa using hd
    have hd₂ : d ∉ locs l' ∧ d ≠ a' ∧ d ∉ locs r' := by simpa using hd'
    by_cases hda : d ∈ locs ((a, hole) :: after)
    · exact hfreed' d hda hd₂.2.1
    · have hda' : d ≠ a ∧ d ∉ locs after := by simpa using hda
      apply hfreed'' d (hfreed d _ hda'.1)
      simp only [locs_append, locs_cons, locs_nil, List.mem_append, List.mem_singleton]
      tauto

/-- A deletion that keeps `root` on the first block. -/
theorem deleteProcess_apart (hm : m.WellFormed (l ++ ([(c, x)] ++ r)))
    (hno : NoAdjacentHoles (blocks (l ++ ([(c, x)] ++ r))))
    (hkeep : ∀ q z r₀, r = (q, z) :: r₀ → z.empty = true →
      (l = [] → m.maxVal ≤ x.size + z.size) ∧
        ∀ p y, l = [(p, y)] → y.empty = true → m.maxVal ≤ y.size + x.size + z.size) :
    ∃ m' bs', m.deleteProcess c = some m' ∧ m'.WellFormed bs' ∧ m'.heap.fresh = m.heap.fresh ∧
      m'.maxVal = m.maxVal ∧ m'.numOfProcesses = m.numOfProcesses ∧
      NoAdjacentHoles (blocks bs') ∧
      ∀ b, b.2.empty = false → (b ∈ bs' ↔ b ∈ l ++ ([(c, x)] ++ r) ∧ b.1 ≠ c) := by
  obtain ⟨m', bs', hdel, hm', hf, hmax, hnum, hlive, hhead⟩ := deleteProcess_ok hm.linked
  have hroot := hhead hm.root hkeep
  obtain ⟨m₁, bs₁, hdel₁, hm₁, hno₁, hmoved, hfreed⟩ := deleteProcess_chained hm.chained hno
  obtain rfl : m₁ = m' := Option.some.inj (hdel₁.symm.trans hdel)
  -- `root` is allocated and was a block of the old list, so it is one of the new list
  obtain ⟨y, r₀, rfl⟩ := first_eq_some hroot
  have hmem : m₁.root ∈ locs bs₁ := by
    have hold : m₁.root ∈ locs (l ++ ([(c, x)] ++ r)) :=
      hmoved.elim (fun h => h ▸ mem_of_first hm.root) id
    by_contra hnot
    have hread := hfreed _ hold hnot
    rw [hm'.seg.1] at hread
    cases hread
  have hfirst := first_of_prev hm₁.links hmem hm'.seg.1 rfl
  obtain rfl := eq_of_path hm₁.links.path hfirst hm'.seg.path hroot
  exact ⟨m₁, _, hdel, ⟨hroot, hm₁.links, hm₁.tiles, hm₁.bound⟩, hf, hmax, hnum, hno₁, hlive⟩

end Lists

end Memory

namespace Machine

open Memory

/-- The machine with the block list `bs` read from `root`: no two holes side by side,
every block that is no hole is a live process, and the processes are numbered in the
order of their creation, as an `int`. -/
structure Reclaimed (s : Machine) (bs : List (ℕ × Block)) : Prop where
  inv : s.Inv bs
  root : first bs none = some s.mem.root
  apart : NoAdjacentHoles (blocks bs)
  named : HolesNamed s.mem.heap
  count : s.mem.numOfProcesses = int32 (s.created.length + 1)
  owned : ∀ b ∈ bs, b.2.empty = false → s.Live b.1
  numbered : ∀ b ∈ bs, b.2.empty = false →
    ∃ k : ℕ, s.created[k]? = some b.1 ∧ b.2.processNumber = int32 (k + 1)

section Steps

variable {s s' : Machine} {bs : List (ℕ × Block)}

theorem Reclaimed.wellFormed (h : s.Reclaimed bs) : s.mem.WellFormed bs :=
  ⟨h.root, h.inv.linked.seg, h.inv.linked.tiles, h.inv.linked.bound⟩

theorem start_reclaimed {m disks printers : ℕ} (h0 : 1 ≤ m) (h1 : m < 2 ^ 32) (hd : 1 ≤ disks)
    (hp : 1 ≤ printers) :
    (start m disks printers).Reclaimed [(0, ⟨-1, 0, 0, m - 1, m, true⟩)] where
  inv := start_inv h0 h1 hd hp
  root := rfl
  apart := by simp [NoAdjacentHoles]
  named a p hread _ := by
    have h : (Heap.empty.alloc _).read a = some p := hread
    rw [Heap.read_alloc] at h
    split_ifs at h
    · obtain rfl := Option.some.inj h
      rfl
    · cases h
  count := by
    have hone : int32 (0 + 1) = 1 := by decide
    exact hone.symm
  owned b hb he := by
    obtain rfl := List.mem_singleton.mp hb
    cases he
  numbered b hb he := by
    obtain rfl := List.mem_singleton.mp hb
    cases he

/-- A command that leaves the memory and the history alone. -/
theorem Reclaimed.move (h : s.Reclaimed bs) (hi : s'.Inv bs) (hmem : s'.mem = s.mem)
    (hc : s'.created = s.created) (hf : s'.finished = s.finished) : s'.Reclaimed bs where
  inv := hi
  root := hmem ▸ h.root
  apart := h.apart
  named := hmem ▸ h.named
  count := by rw [hmem, hc, h.count]
  owned b hb he := by
    obtain ⟨h1, h2⟩ := h.owned b hb he
    exact ⟨hc ▸ h1, hf ▸ h2⟩
  numbered b hb he := hc ▸ h.numbered b hb he

/-- `A` turns a request down exactly where no hole is large enough; else the process
takes its place in the list. -/
theorem Reclaimed.insert (h : s.Reclaimed bs) (priority : ℤ) {size : ℕ} (hs : 1 ≤ size)
    (hgood : ¬ s.mem.FillsInner size) :
    (∀ b ∈ bs, ¬ b.2.Fits size) ∧ s.insert priority size = some s ∨
      (∃ b ∈ bs, b.2.Fits size) ∧ ∃ s' bs', s.insert priority size = some s' ∧
        s'.Reclaimed bs' ∧ s'.mem.maxVal = s.mem.maxVal ∧
        s'.created = s.created ++ [s.mem.heap.fresh] := by
  have hm := h.wellFormed
  by_cases hno : ∀ b ∈ bs, ¬ b.2.Fits size
  · left
    refine ⟨hno, ?_⟩
    rw [Machine.insert, insert_of_none priority hm hno]
  right
  obtain ⟨b, hb, hfit⟩ : ∃ b ∈ bs, b.2.Fits size := by simpa using hno
  refine ⟨⟨b, hb, hfit⟩, ?_⟩
  -- the first hole that fits
  obtain ⟨⟨c, x⟩, hfind⟩ : ∃ d, bs.find? (fun d => decide (d.2.Fits size)) = some d :=
    Option.isSome_iff_exists.mp (List.find?_isSome.mpr ⟨b, hb, by simpa using hfit⟩)
  obtain ⟨hx, l, r, rfl, hl⟩ := List.find?_eq_some_iff_append.mp hfind
  have hx' : x.Fits size := by simpa using hx
  have hl' : ∀ b ∈ l, ¬ b.2.Fits size := fun b hb => by simpa using hl b hb
  have hsplit : size < x.size ∨ r = [] := by
    rcases r with _ | ⟨d, r⟩
    · exact Or.inr rfl
    · left
      refine lt_of_le_of_ne hx'.2 fun hsz => hgood ⟨_, firstFit_of_seg hm.links hl' hx' hm.root,
        hsz.symm, by simp⟩
  obtain ⟨mem, bs', htake, hm', hf, hmax, hnum, hno', hlive⟩ :=
    takeSpot_apart (clampPriority priority) hm h.apart hs hx' hsplit
  have hins : s.mem.insert priority size = some (mem, some s.mem.heap.fresh) := by
    rw [insert_of_firstFit priority hm hl' hx', htake]
    rfl
  obtain ⟨sched, hadd, -, hi'⟩ := h.inv.create priority size hm'.linked hf ⟨rfl, rfl⟩ hlive
  have hnew : ∀ q, s.Live q → q ∈ s.created ++ [s.mem.heap.fresh] ∧ q ∉ s.finished :=
    fun q hq => ⟨List.mem_append_left _ hq.1, hq.2⟩
  refine ⟨_, bs', by simp [Machine.insert, hins, hadd], ⟨hi', hm'.root, hno', ?_, ?_,
    fun b hb he => ?_, fun b hb he => ?_⟩, hmax, rfl⟩
  · exact HolesNamed.takeSpot h.named htake
  · change mem.numOfProcesses = int32 ((s.created ++ [s.mem.heap.fresh]).length + 1)
    rw [hnum, h.count, int32_add_int32, List.length_append, List.length_singleton]
    push_cast
    rfl
  · rcases (hlive b he).mp hb with hb | rfl
    · exact hnew _ (h.owned b hb he)
    · refine ⟨by simp [withCreated], fun hfin => ?_⟩
      exact absurd (h.inv.created_lt _ (h.inv.sched.finished_sub _ hfin)) (lt_irrefl _)
  · rcases (hlive b he).mp hb with hb | rfl
    · obtain ⟨k, hk, hnumber⟩ := h.numbered b hb he
      have hlt := (List.getElem?_eq_some_iff.mp hk).1
      exact ⟨k, (List.getElem?_append_left hlt).trans hk, hnumber⟩
    · exact ⟨s.created.length, by simp [withCreated], h.count⟩

/-- `t` turns the running process into a hole and fuses it with the holes beside it. -/
theorem Reclaimed.finishProcess (h : s.Reclaimed bs) (hgood : ¬ s.LosesHead) :
    ∃ s' bs', s.finishProcess = some s' ∧ s'.Reclaimed bs' ∧ s'.mem.maxVal = s.mem.maxVal := by
  cases hcur : s.sched.currentProcess with
  | none => exact ⟨s, bs, by rw [Machine.finishProcess, hcur], h, rfl⟩
  | some p =>
    obtain ⟨x, hx, -⟩ := h.inv.current_mem hcur
    obtain ⟨l, r, rfl⟩ := List.append_of_mem hx
    obtain ⟨mem, bs', hdel, hm', hf, hmax, hnum, hno, hlive⟩ := deleteProcess_apart h.wellFormed
      h.apart (keeps_head h.inv.linked hcur h.root hgood)
    obtain ⟨-, hi'⟩ := h.inv.finish hcur hm'.linked hf hlive
    refine ⟨_, bs', by simp [Machine.finishProcess, hcur, hdel], ⟨hi', hm'.root, hno, ?_, ?_,
      fun b hb he => ?_, fun b hb he => ?_⟩, hmax⟩
    · exact HolesNamed.deleteProcess h.named hdel
    · exact hnum.trans h.count
    · obtain ⟨hold, hne⟩ := (hlive b he).mp hb
      obtain ⟨hc, hfin⟩ := h.owned b hold he
      exact ⟨hc, by simpa [withFinished] using ⟨hfin, hne⟩⟩
    · exact h.numbered b ((hlive b he).mp hb).1 he

theorem Reclaimed.step (h : s.Reclaimed bs) {c : Command} (hc : s.KeepsHead c) :
    ∃ s' bs', s.step c = some s' ∧ s'.Reclaimed bs' ∧ s'.mem.maxVal = s.mem.maxVal := by
  by_cases hA : ∃ priority size, c = .A priority size
  · obtain ⟨priority, size, rfl⟩ := hA
    rcases h.insert priority hc.1.1 (hc.2.1 priority size rfl) with
      ⟨-, hins⟩ | ⟨-, s', bs', hins, h', hmax, -⟩
    · exact ⟨s, bs, hins, h, rfl⟩
    · exact ⟨s', bs', hins, h', hmax⟩
  by_cases ht : c = .t
  · subst ht
    exact h.finishProcess (hc.2.2 rfl)
  · obtain ⟨s', hstep, hi', hmem, hk⟩ :=
      h.inv.device_step hc.1 (fun priority size h => hA ⟨priority, size, h⟩) ht
    have hhist : s'.created = s.created ∧ s'.finished = s.finished := by
      cases c with
      | A priority size => exact absurd ⟨priority, size, rfl⟩ hA
      | t => exact absurd rfl ht
      | d i => obtain ⟨r, -, rfl⟩ := Option.map_eq_some_iff.mp hstep; exact ⟨rfl, rfl⟩
      | p i => obtain ⟨r, -, rfl⟩ := Option.map_eq_some_iff.mp hstep; exact ⟨rfl, rfl⟩
      | D i => obtain ⟨r, -, rfl⟩ := Option.map_eq_some_iff.mp hstep; exact ⟨rfl, rfl⟩
      | P i => obtain ⟨r, -, rfl⟩ := Option.map_eq_some_iff.mp hstep; exact ⟨rfl, rfl⟩
    exact ⟨s', bs, hstep, h.move hi' hmem hhist.1 hhist.2, by rw [hmem]⟩

end Steps

theorem run_reclaimed {m disks printers : ℕ} (h0 : 1 ≤ m) (h1 : m < 2 ^ 32) (hd : 1 ≤ disks)
    (hp : 1 ≤ printers) {tr : List Command} {s : Machine}
    (hr : Run (Guarded KeepsHead (ofOption Machine.step)) (start m disks printers) tr s) :
    s.mem.maxVal = m ∧ ∃ bs, s.Reclaimed bs := by
  refine hr.invariant (fun s => s.mem.maxVal = m ∧ ∃ bs, s.Reclaimed bs) ?_ ?_
  · exact ⟨(by simp only [start, Memory.new]; rw [uint32_int32, uint32_natCast h1]), _,
      start_reclaimed h0 h1 hd hp⟩
  · rintro s c s' ⟨hmax, bs, h⟩ ⟨hc, hstep⟩
    obtain ⟨s₁, bs', hstep', h', hmax'⟩ := h.step hc
    obtain rfl := Option.some.inj (hstep'.symm.trans hstep)
    exact ⟨hmax'.trans hmax, bs', h'⟩

/-- Where no process is live the block list is one hole. -/
theorem Reclaimed.one_hole {s : Machine} {bs : List (ℕ × Block)} (h : s.Reclaimed bs)
    (hno : ∀ p, ¬ s.Live p) : ∃ a x, bs = [(a, x)] ∧ x.empty = true := by
  have hholes : ∀ b ∈ bs, b.2.empty = true := fun b hb => by
    by_contra he
    exact hno b.1 (h.owned b hb (by simpa using he))
  rcases bs with _ | ⟨⟨a, x⟩, _ | ⟨b, bs⟩⟩
  · exact absurd rfl h.inv.linked.ne_nil
  · exact ⟨a, x, rfl, hholes (a, x) (by simp)⟩
  · have happ := h.apart
    simp only [NoAdjacentHoles, blocks_cons, List.isChain_cons_cons] at happ
    exact absurd ⟨hholes (a, x) (by simp), hholes b (by simp)⟩ happ.1

/-- After every run that keeps the head `screenshot` prints the live processes, each with
its place in the order of creation as an `int`, and holes, no two of them side by side, that
together are the memory. Without live processes it prints one hole. A request is turned
down exactly where no hole is large enough, and then nothing changes. -/
theorem run_screenshot {m disks printers : ℕ} (h0 : 1 ≤ m) (h1 : m < 2 ^ 32) (hd : 1 ≤ disks)
    (hp : 1 ≤ printers) {tr : List Command} {s : Machine}
    (hr : Run (Guarded KeepsHead (ofOption Machine.step)) (start m disks printers) tr s) :
    ∃ bs, s.mem.screenshot = some bs ∧ Tiles 0 (blocks bs) m ∧ NoAdjacentHoles (blocks bs) ∧
      (∀ p, s.Live p ↔ ∃ x, (p, x) ∈ bs ∧ x.empty = false) ∧
      (∀ b ∈ bs, b.2.empty = true ∧ b.2.processNumber = -1 ∨ b.2.empty = false ∧
        ∃ k : ℕ, s.created[k]? = some b.1 ∧ b.2.processNumber = int32 (k + 1)) ∧
      ((∀ p, ¬ s.Live p) → ∃ a x, bs = [(a, x)] ∧ x.empty = true ∧ x.start = 0 ∧
        x.end_ = m - 1 ∧ x.size = m) ∧
      ∀ priority size, s.KeepsHead (.A priority size) →
        ∃ s', s.step (.A priority size) = some s' ∧
          ((∀ b ∈ bs, ¬ b.2.Fits size) → s' = s) ∧
          ((∃ b ∈ bs, b.2.Fits size) → s'.created = s.created ++ [s.mem.heap.fresh]) := by
  obtain ⟨rfl, bs, h⟩ := run_reclaimed h0 h1 hd hp hr
  refine ⟨bs, h.wellFormed.screenshot, h.inv.linked.tiles, h.apart, fun p => ⟨h.inv.live p, ?_⟩,
    fun b hb => ?_, fun hno => ?_, fun priority size hc => ?_⟩
  · rintro ⟨x, hx, he⟩
    exact h.owned _ hx he
  · cases he : b.2.empty with
    | false => exact Or.inr ⟨rfl, h.numbered b hb he⟩
    | true =>
      obtain ⟨pv, nx, hread⟩ := h.inv.linked.seg.read_of_mem hb
      exact Or.inl ⟨rfl, h.named b.1 _ hread he⟩
  · obtain ⟨a, x, rfl, he⟩ := h.one_hole hno
    obtain ⟨hstart, hpos, hend, hsize⟩ := h.inv.linked.tiles
    have hmax : 0 + x.size = s.mem.maxVal := hsize
    have hlast : x.end_ + 1 = 0 + x.size := hend
    refine ⟨a, x, rfl, he, hstart, ?_, ?_⟩
    · omega
    · omega
  · rcases h.insert priority hc.1.1 (hc.2.1 priority size rfl) with
      ⟨hno, hins⟩ | ⟨⟨b, hb, hfit⟩, s', -, hins, -, -, hcreated⟩
    · refine ⟨s, hins, fun _ => rfl, ?_⟩
      rintro ⟨b, hb, hfit⟩
      exact absurd hfit (hno b hb)
    · exact ⟨s', hins, fun hno => absurd hfit (hno b hb), fun _ => hcreated⟩

/-- The third of three processes has the bytes 4 and 5 of eight; before and after it
`screenshot` prints one hole each. -/
theorem run_screenshot_merge : ∃ s bs,
    Run (Guarded KeepsHead (ofOption Machine.step)) (start 8 1 1)
      [.A 0 2, .A 0 2, .A 0 2, .t, .t] s ∧ s.mem.screenshot = some bs ∧
    (bs.map fun b => (b.2.empty, b.2.start, b.2.end_)) =
      [(true, 0, 3), (false, 4, 5), (true, 6, 7)] ∧
    Tiles 0 (blocks bs) 8 ∧ NoAdjacentHoles (blocks bs) := by
  have hs : (([.A 0 2, .A 0 2, .A 0 2, .t, .t] : List Command).foldlM
      (fun s c => if testKeepsHead s c then Machine.step s c else none) (start 8 1 1)).map (fun s =>
        s.mem.screenshot.map fun bs => bs.map fun b => (b.2.empty, b.2.start, b.2.end_)) =
      some (some [(true, 0, 3), (false, 4, 5), (true, 6, 7)]) := by decide +kernel
  obtain ⟨s, hrun, hread⟩ := Option.map_eq_some_iff.mp hs
  obtain ⟨bs, hshot, hprint⟩ := Option.map_eq_some_iff.mp hread
  have hr := run_of_test keepsHead_of_test hrun
  obtain ⟨bs', hshot', htiles, hapart, -⟩ :=
    run_screenshot (by omega) (by omega) le_rfl le_rfl hr
  obtain rfl := Option.some.inj (hshot.symm.trans hshot')
  exact ⟨s, bs, hr, hshot, hprint, htiles, hapart⟩

end Machine

end SchoolProjects.OSProject
