import SchoolProjects.Paging.Replacement

/-! Calls of the paged memory and their runs. Each call keeps `Tracks` and does to
the table what the least-recently-used rule says, so long as the clock stays below
the largest `int`. -/

namespace SchoolProjects.Paging.Memory

open Transition

/-- A call; the CPU and the queues a creation is given may be anything. -/
inductive Call
  | createNewProcess (c : CPU) (q : Schedule)
  | accessAddress (p : Option Process) (num : ℤ)
  | terminate (pid : ℤ)

def call (m : Memory) : Call → Option Memory
  | .createNewProcess c q => (m.createNewProcess c q).map fun r => r.1
  | .accessAddress p num => m.accessAddress p num
  | .terminate pid => some (m.terminate pid)

/-- The page a call creates or accesses. -/
def used (m : Memory) : Call → List Key
  | .createNewProcess _ _ => [(int32 (uint32 (m.processCounter + 1)), 0)]
  | .accessAddress (some p) num => [(p.pid, m.pageOf num)]
  | .accessAddress none _ => []
  | .terminate _ => []

/-- A call, with its use of a page put on record. -/
def step (s : Memory × List Key) (c : Call) : Option (Memory × List Key) :=
  (s.1.call c).map fun m => (m, s.1.used c ++ s.2)

/-- Accesses are by processes created so far. -/
def Allowed (s : Memory × List Key) : Call → Prop
  | .accessAddress (some p) _ => 1 ≤ p.pid ∧ p.pid ≤ s.1.processCounter
  | _ => True

instance (s : Memory × List Key) (c : Call) : Decidable (Allowed s c) := by
  unfold Allowed
  split
  · infer_instance
  · infer_instance

/-- Only the timestamp of the frame that holds `k` changes. -/
def Hit (m m' : Memory) (k : Key) : Prop :=
  ∃ i e, m.Occupied i e ∧ e.key = k ∧
    m'.pageTable = m.pageTable.set i (some { e with timeSlice := m'.timeSlice })

/-- Only the victim's frame changes, and it does. -/
def Fill (m : Memory) (uses : List Key) (m' : Memory) (k : Key) : Prop :=
  ∃ i, (m.lru uses).Victim i ∧ m.pageTable[i]? ≠ m'.pageTable[i]? ∧
    m'.pageTable = m.pageTable.set i (some ⟨k.2, k.1, m'.timeSlice⟩)

/-- What a call does to the table. -/
def Effect (m : Memory) (uses : List Key) (m' : Memory) : Call → Prop
  | .createNewProcess _ _ => Fill m uses m' (m.processCounter + 1, 0)
  | .accessAddress (some p) num =>
    (m.Resident (p.pid, m.pageOf num) → Hit m m' (p.pid, m.pageOf num)) ∧
    (¬ m.Resident (p.pid, m.pageOf num) → Fill m uses m' (p.pid, m.pageOf num))
  | .accessAddress none _ => m' = m
  | .terminate pid => m'.lru uses = (m.lru uses).drop fun k => k.1 = pid

/-! ### Assignments to the table -/

section Table

variable {m m' : Memory} {uses : List Key} {i : ℕ} {e : PageEntry}

theorem setEntry_of_lt (e : PageEntry) (hi : i < m.pageTable.length) :
    m.setEntry i e = some { m with pageTable := m.pageTable.set i (some e) } := by
  simp [setEntry, hi]

theorem modifyEntry_of_get (f : PageEntry → PageEntry) (he : m.pageTable[i]? = some (some e)) :
    m.modifyEntry i f = some { m with pageTable := m.pageTable.set i (some (f e)) } := by
  have hi := (List.getElem?_eq_some_iff.mp he).1
  simp [modifyEntry, he, setEntry_of_lt (f e) hi]

theorem lru_set (uses : List Key) {uses' : List Key} (ht : e.timeSlice ≠ -1)
    (h : m'.pageTable = m.pageTable.set i (some e)) :
    m'.lru uses' = ⟨(m.lru uses).frames.set i (some e.key), uses'⟩ := by
  simp [lru, h, List.map_set, frameKey, ht]

end Table

/-! ### One call -/

theorem call_createNewProcess (m : Memory) (c : CPU) (q : Schedule) :
    m.call (.createNewProcess c q) =
      Memory.setEntry { m with
          processCounter := uint32 (m.processCounter + 1)
          timeSlice := int32 (m.timeSlice + 1) }
        m.leastUsedFrame
        ⟨0, int32 (uint32 (m.processCounter + 1)), int32 (m.timeSlice + 1)⟩ := by
  simp only [call, createNewProcess, Option.map_map]
  exact Option.map_id'

section Step

variable {m m' : Memory} {uses : List Key} {k : Key}

/-- A use whose entry is written to frame `i` keeps the invariant. -/
theorem Tracks.use (h : m.Tracks uses) (hps : m'.pageSize = m.pageSize)
    (hclock : m'.timeSlice = uses.length + 1) (hcount : m.processCounter ≤ m'.processCounter)
    (hk : 1 ≤ k.1 ∧ k.1 ≤ m'.processCounter) {i : ℕ} (hi : i < m.pageTable.length)
    (htab : m'.pageTable = m.pageTable.set i (some ⟨k.2, k.1, m'.timeSlice⟩))
    (huse : (m.lru uses).Use k (m'.lru (k :: uses))) : m'.Tracks (k :: uses) := by
  have hwf := h.wf.use huse
  have hocc : m'.Occupied i ⟨k.2, k.1, m'.timeSlice⟩ :=
    ⟨by rw [htab, List.getElem?_set_self hi], by simp only [hclock]; omega⟩
  refine ⟨?_, ?_, by rw [hps]; exact h.pageSize, hwf, ?_, ?_, by simp [hclock], ?_⟩
  · intro hnone
    rw [htab] at hnone
    rcases List.mem_or_eq_of_mem_set hnone with hold | hnew
    · exact h.entries hold
    · cases hnew
  · rw [htab]
    simpa using h.frames
  · intro j e he
    by_cases hji : i = j
    · subst hji
      obtain rfl : e = ⟨k.2, k.1, m'.timeSlice⟩ := by
        simpa [hocc.1] using he.1.symm
      rw [show PageEntry.key ⟨k.2, k.1, m'.timeSlice⟩ = k from rfl, Lru.lastUse_cons_self]
      simp [hclock]
    · have hold : m.Occupied j e := by
        refine ⟨?_, he.2⟩
        rw [← he.1, htab, List.getElem?_set_ne hji]
      have hne : k ≠ e.key := fun heq =>
        hji (hwf.distinct i j k (lru_frame.mpr ⟨_, hocc, rfl⟩) (lru_frame.mpr ⟨e, he, heq.symm⟩))
      rw [Lru.lastUse_cons_of_ne hne]
      exact h.stamp j e hold
  · intro e he ht
    rw [htab] at he
    rcases List.mem_or_eq_of_mem_set he with hold | hnew
    · exact h.free e hold ht
    · obtain rfl : e = _ := Option.some.inj hnew
      exact absurd ht hocc.2
  · intro k' hk'
    rcases List.mem_cons.mp hk' with rfl | hold
    · exact hk
    · have := h.pids k' hold
      omega

/-- A miss fills the victim's frame. -/
theorem Tracks.fill (h : m.Tracks uses) (m' : Memory) (hps : m'.pageSize = m.pageSize)
    (hclock : m'.timeSlice = uses.length + 1) (hcount : m.processCounter ≤ m'.processCounter)
    (hk : 1 ≤ k.1 ∧ k.1 ≤ m'.processCounter) (hres : ¬ m.Resident k) {i : ℕ}
    (hv : (m.lru uses).Victim i)
    (htab : m'.pageTable = m.pageTable.set i (some ⟨k.2, k.1, m'.timeSlice⟩)) :
    m'.Tracks (k :: uses) ∧ Fill m uses m' k := by
  have ht : (⟨k.2, k.1, m'.timeSlice⟩ : PageEntry).timeSlice ≠ -1 := by
    simp only [hclock]; omega
  have hi : i < m.pageTable.length := by simpa [lru] using hv.lt
  refine ⟨h.use hps hclock hcount hk hi htab ?_, i, hv, fun heq => hres ?_, htab⟩
  · rw [lru_set uses ht htab]
    exact .miss i (fun hf => hres (mem_lru_frames.mp hf)) hv
  · rw [htab, List.getElem?_set_self hi] at heq
    exact ⟨i, _, ⟨heq, ht⟩, rfl⟩

theorem Tracks.hit (h : m.Tracks uses) (m' : Memory) (hps : m'.pageSize = m.pageSize)
    (hclock : m'.timeSlice = uses.length + 1) (hcount : m.processCounter = m'.processCounter)
    {i : ℕ} {e : PageEntry} (he : m.Occupied i e)
    (htab : m'.pageTable = m.pageTable.set i (some { e with timeSlice := m'.timeSlice })) :
    m'.Tracks (e.key :: uses) ∧ Hit m m' e.key := by
  have hi := (List.getElem?_eq_some_iff.mp he.1).1
  have hres : some e.key ∈ (m.lru uses).frames := mem_lru_frames.mpr ⟨i, e, he, rfl⟩
  have hk := h.pids _ (h.wf.used _ hres)
  refine ⟨h.use hps hclock hcount.le (by rw [← hcount]; exact hk) hi htab ?_, i, e, he, rfl, htab⟩
  obtain ⟨hi', hframe⟩ := List.getElem?_eq_some_iff.mp (lru_frame.mpr ⟨e, he, rfl⟩)
  have hsame : (m.lru uses).frames.set i (some e.key) = (m.lru uses).frames := by
    rw [← hframe, List.set_getElem_self]
  have hlru : m'.lru (e.key :: uses) = ⟨(m.lru uses).frames, e.key :: uses⟩ := by
    rw [lru_set uses (show m'.timeSlice ≠ -1 by rw [hclock]; omega) htab]
    exact congrArg (fun f => (⟨f, e.key :: uses⟩ : Lru Key)) hsame
  rw [hlru]
  exact .hit hres

theorem Tracks.not_resident (h : m.Tracks uses) (hk : m.processCounter < k.1) :
    ¬ m.Resident k := by
  intro hres
  have := h.pids k (h.wf.used k (mem_lru_frames.mpr hres))
  omega

theorem Tracks.createNewProcess (h : m.Tracks uses) (hn : uses.length < 2 ^ 31 - 1)
    (hc : m.processCounter < 2 ^ 31 - 1) (c : CPU) (q : Schedule) :
    ∃ m', m.call (.createNewProcess c q) = some m' ∧
      m'.Tracks ((m.processCounter + 1, 0) :: uses) ∧
      m'.processCounter = m.processCounter + 1 ∧
      Fill m uses m' (m.processCounter + 1, 0) := by
  obtain ⟨i, e, hluf, he, hv⟩ := h.leastUsedFrame hn
  have hi := (List.getElem?_eq_some_iff.mp he).1
  have hcount : uint32 (m.processCounter + 1) = m.processCounter + 1 :=
    uint32_natCast (n := m.processCounter + 1) (by omega)
  have hpid : int32 ((m.processCounter + 1 : ℕ) : ℤ) = m.processCounter + 1 := by
    rw [int32_of_range (by omega) (by omega)]; rfl
  have hclock : int32 (m.timeSlice + 1) = uses.length + 1 := by
    rw [h.clock, int32_of_range (by omega) (by omega)]
  rw [call_createNewProcess, hluf, hcount, hpid, hclock]
  have hfill := h.fill (k := (m.processCounter + 1, 0)) (i := i)
    { m with
      processCounter := m.processCounter + 1
      timeSlice := uses.length + 1
      pageTable := m.pageTable.set i (some ⟨0, m.processCounter + 1, uses.length + 1⟩) }
    rfl rfl (Nat.le_succ _) (by simp) (h.not_resident (by simp)) hv rfl
  exact ⟨_, setEntry_of_lt _ hi, hfill.1, rfl, hfill.2⟩

theorem Tracks.accessAddress (h : m.Tracks uses) (hn : uses.length < 2 ^ 31 - 1) {p : Process}
    (hp : 1 ≤ p.pid ∧ p.pid ≤ m.processCounter) (num : ℤ) :
    ∃ m', m.accessAddress (some p) num = some m' ∧
      m'.Tracks ((p.pid, m.pageOf num) :: uses) ∧
      m'.processCounter = m.processCounter ∧
      (m.Resident (p.pid, m.pageOf num) → Hit m m' (p.pid, m.pageOf num)) ∧
      (¬ m.Resident (p.pid, m.pageOf num) → Fill m uses m' (p.pid, m.pageOf num)) := by
  have hclock : int32 (m.timeSlice + 1) = uses.length + 1 := by
    rw [h.clock, int32_of_range (by omega) (by omega)]
  simp only [Memory.accessAddress, if_neg h.pageSize, hclock]
  generalize m.pageOf num = page
  rcases findPage_spec p.pid page m.pageTable 0 with ⟨i, e, he, hk, hr⟩ | ⟨hall, hr⟩
  · -- the frame found is occupied, since a free one has pid `-1`
    have hocc : m.Occupied i e := by
      refine ⟨he, fun ht => ?_⟩
      have := h.free e (List.mem_of_getElem? he) ht
      have : e.pid = p.pid := (Prod.mk.inj hk).1
      omega
    have hhit := h.hit (i := i) (e := e)
      { m with
        timeSlice := uses.length + 1
        pageTable := m.pageTable.set i (some { e with timeSlice := uses.length + 1 }) }
      rfl rfl rfl hocc rfl
    rw [hk] at hhit
    rw [hr, zero_add]
    exact ⟨_, modifyEntry_of_get _ he, hhit.1, rfl, fun _ => hhit.2,
      fun hres => absurd ⟨i, e, hocc, hk⟩ hres⟩
  · have hres : ¬ m.Resident (p.pid, page) := by
      rintro ⟨i, e, he, hk⟩
      exact hall e (List.mem_of_getElem? he.1) hk
    obtain ⟨i, e, hluf, he, hv⟩ := h.leastUsedFrame hn
    have hfill := h.fill (k := (p.pid, page)) (i := i)
      { m with
        timeSlice := uses.length + 1
        pageTable := m.pageTable.set i (some ⟨page, p.pid, uses.length + 1⟩) }
      rfl rfl le_rfl hp hres hv rfl
    rw [hr]
    simp only [ne_eq, not_true_eq_false, ↓reduceIte]
    rw [show Memory.leastUsedFrame { m with timeSlice := uses.length + 1 } = i from hluf]
    exact ⟨_, modifyEntry_of_get _ he, hfill.1, rfl, fun h => absurd h hres, fun _ => hfill.2⟩

/-- Ending a process frees its frames and leaves the others alone. -/
theorem terminate_lru (m : Memory) (uses : List Key) (pid : ℤ) :
    (m.terminate pid).lru uses = (m.lru uses).drop fun k => k.1 = pid := by
  have hframe : ∀ x : Option PageEntry,
      frameKey (x.map fun e => if e.pid = pid then ⟨-1, -1, -1⟩ else e) =
        (frameKey x).filter fun k => !decide (k.1 = pid) := by
    intro x
    cases x with
    | none => rfl
    | some e =>
      by_cases hp : e.pid = pid <;> by_cases ht : e.timeSlice = -1 <;>
        simp [frameKey, PageEntry.key, hp, ht, Option.filter]
  simp only [lru, Memory.terminate, Lru.drop, List.map_map, Lru.mk.injEq, and_true]
  exact List.map_congr_left fun x _ => hframe x

theorem Tracks.terminate (h : m.Tracks uses) (pid : ℤ) : (m.terminate pid).Tracks uses := by
  -- an entry is cleared or as before
  have hget : ∀ (i : ℕ) (e : PageEntry), (m.terminate pid).pageTable[i]? = some (some e) →
      e = ⟨-1, -1, -1⟩ ∨ m.pageTable[i]? = some (some e) := by
    intro i e he
    simp only [Memory.terminate, List.getElem?_map, Option.map_eq_some_iff] at he
    obtain ⟨x, hx, e', rfl, he'⟩ := he
    split_ifs at he' with hp
    · exact Or.inl he'.symm
    · exact Or.inr (he' ▸ hx)
  refine ⟨?_, by simpa [Memory.terminate] using h.frames, h.pageSize, ?_, ?_, ?_, h.clock, h.pids⟩
  · intro hnone
    simp only [Memory.terminate, List.mem_map] at hnone
    obtain ⟨x, hx, hxn⟩ := hnone
    exact h.entries (Option.map_eq_none_iff.mp hxn ▸ hx)
  · rw [terminate_lru]
    exact h.wf.drop _
  · intro i e he
    rcases hget i e he.1 with rfl | hold
    · exact absurd rfl he.2
    · exact h.stamp i e ⟨hold, he.2⟩
  · intro e he ht
    obtain ⟨i, hi⟩ := List.mem_iff_getElem?.mp he
    rcases hget i e hi with rfl | hold
    · rfl
    · exact h.free e (List.mem_of_getElem? hold) ht

/-- What one allowed call does, in a state that `Tracks` its uses. -/
theorem Tracks.call (h : m.Tracks uses) (hn : uses.length < 2 ^ 31 - 1)
    (hc : m.processCounter < 2 ^ 31 - 1) {c : Call} (ha : Allowed (m, uses) c) :
    ∃ m', m.call c = some m' ∧ m'.Tracks (m.used c ++ uses) ∧
      m'.processCounter ≤ m.processCounter + 1 ∧ Effect m uses m' c := by
  cases c with
  | createNewProcess cpu q =>
    obtain ⟨m', hm', htr, hcount, hfill⟩ := h.createNewProcess hn hc cpu q
    have hpid : int32 (uint32 ((m.processCounter : ℤ) + 1)) = m.processCounter + 1 := by
      rw [uint32_of_range (by omega) (by omega), int32_of_range (by omega) (by omega)]
    refine ⟨m', hm', ?_, hcount.le, hfill⟩
    simp only [used, hpid]
    exact htr
  | accessAddress p num =>
    cases p with
    | none => exact ⟨m, rfl, h, Nat.le_succ _, rfl⟩
    | some p =>
      obtain ⟨m', hm', htr, hcount, heff⟩ := h.accessAddress hn ha num
      exact ⟨m', hm', htr, by omega, heff⟩
  | terminate pid => exact ⟨_, rfl, h.terminate pid, Nat.le_succ _, terminate_lru m uses pid⟩

end Step

/-! ### Runs -/

theorem new_tracks {s ps : ℕ} {m : Memory} (h : new s ps = some m) (hf : 0 < m.numOfFrames) :
    m.Tracks [] ∧ m.processCounter = 0 := by
  unfold new at h
  split_ifs at h with hps
  obtain rfl := Option.some.inj h
  have hfree : ∀ i e, ¬ Occupied
      ⟨0, s, ps, s / ps, List.replicate (s / ps) (some ⟨-1, -1, -1⟩), 0⟩ i e := by
    rintro i e ⟨he, ht⟩
    obtain rfl : e = ⟨-1, -1, -1⟩ := by
      simpa using List.eq_of_mem_replicate (List.mem_of_getElem? he)
    exact ht rfl
  refine ⟨⟨by simp, by simpa using hf.ne', by tauto, ⟨?_, ?_⟩, ?_, ?_, rfl, by simp⟩, rfl⟩
  · intro i j k hi _
    obtain ⟨e, he, -⟩ := lru_frame.mp hi
    exact absurd he (hfree i e)
  · intro k hk
    obtain ⟨i, e, he, -⟩ := mem_lru_frames.mp hk
    exact absurd he (hfree i e)
  · exact fun i e he => absurd he (hfree i e)
  · intro e he _
    obtain rfl : e = ⟨-1, -1, -1⟩ := by simpa using List.eq_of_mem_replicate he
    rfl

section Runs

variable {s ps : ℕ} {m₀ : Memory}

theorem used_length (m : Memory) (c : Call) : (m.used c).length ≤ 1 := by
  unfold used
  split <;> simp

theorem run_tracks (h₀ : new s ps = some m₀) (hf : 0 < m₀.numOfFrames) {calls : List Call}
    {t : Memory × List Key} (hr : Run (Guarded Allowed (ofOption step)) (m₀, []) calls t)
    (hn : calls.length < 2 ^ 31 - 1) :
    t.1.Tracks t.2 ∧ t.2.length ≤ calls.length ∧ t.1.processCounter ≤ calls.length := by
  obtain ⟨htr, hcount⟩ := new_tracks h₀ hf
  refine hr.history (fun calls t => calls.length < 2 ^ 31 - 1 → t.1.Tracks t.2 ∧
    t.2.length ≤ calls.length ∧ t.1.processCounter ≤ calls.length)
    (fun _ => ⟨htr, le_rfl, hcount.le⟩) ?_ hn
  rintro calls ⟨m, uses⟩ c t' _ ih ⟨ha, hs⟩ hn
  simp only [List.length_append, List.length_singleton] at hn ⊢
  obtain ⟨htr, hlen, hcount⟩ := ih (by omega)
  dsimp only at htr hlen hcount
  obtain ⟨m', hm', htr', hcount', -⟩ := htr.call (by omega) (by omega) ha
  obtain rfl : (m', m.used c ++ uses) = t' := by
    simpa [ofOption, step, hm'] using hs
  have := used_length m c
  refine ⟨htr', ?_, ?_⟩
  · simp only [List.length_append]; omega
  · dsimp only; omega

/-- In every run shorter than the largest `int`: no page sits in two frames, the
timestamps are ordered by the last use, and the next call fills or refreshes the
frame the least-recently-used rule names. -/
theorem run_lru (h₀ : new s ps = some m₀) (hf : 0 < m₀.numOfFrames) {calls : List Call}
    {m : Memory} {uses : List Key}
    (hr : Run (Guarded Allowed (ofOption step)) (m₀, []) calls (m, uses))
    (hn : calls.length < 2 ^ 31 - 1) :
    (∀ i j e e', m.Occupied i e → m.Occupied j e' → e.key = e'.key → i = j) ∧
    (∀ i j e e', m.Occupied i e → m.Occupied j e' → i ≠ j →
      e.timeSlice ≠ e'.timeSlice ∧
      (e.timeSlice < e'.timeSlice ↔ Lru.lastUse uses e.key < Lru.lastUse uses e'.key)) ∧
    (∀ c, Allowed (m, uses) c → calls.length + 1 < 2 ^ 31 - 1 →
      ∃ m', m.call c = some m' ∧ Effect m uses m' c) := by
  obtain ⟨htr, hlen, hcount⟩ := run_tracks h₀ hf hr hn
  dsimp only at htr hlen hcount
  have hdistinct : ∀ i j e e', m.Occupied i e → m.Occupied j e' → e.key = e'.key → i = j := by
    intro i j e e' he he' hk
    exact htr.wf.distinct i j e.key (lru_frame.mpr ⟨e, he, rfl⟩) (lru_frame.mpr ⟨e', he', hk.symm⟩)
  refine ⟨hdistinct, ?_, ?_⟩
  · intro i j e e' he he' hij
    rw [htr.stamp i e he, htr.stamp j e' he']
    refine ⟨fun heq => hij ?_, by exact_mod_cast Iff.rfl⟩
    have hused := htr.wf.used e.key (mem_lru_frames.mpr ⟨i, e, he, rfl⟩)
    exact hdistinct i j e e' he he' (Lru.lastUse_inj hused (by exact_mod_cast heq))
  · intro c ha _
    obtain ⟨m', hm', -, -, heff⟩ := htr.call (by omega) (by omega) ha
    exact ⟨m', hm', heff⟩

/-- Two frames: a creation, a miss, and a creation that evicts the older page. -/
theorem run_lru_evict :
    ∃ m uses, Run (Guarded Allowed (ofOption step))
        (⟨0, 8, 4, 2, [some ⟨-1, -1, -1⟩, some ⟨-1, -1, -1⟩], 0⟩, [])
        [.createNewProcess CPU.new Schedule.new, .accessAddress (some ⟨1, 0, 0⟩) 9,
          .createNewProcess CPU.new Schedule.new] (m, uses) ∧
      m.pageTable = [some ⟨0, 2, 3⟩, some ⟨2, 1, 2⟩] ∧
      (∀ i j e e', m.Occupied i e → m.Occupied j e' → e.key = e'.key → i = j) ∧
      ∃ m', m.call (.accessAddress (some ⟨1, 0, 0⟩) 10) = some m' ∧ Hit m m' (1, 2) := by
  have hr : Run (Guarded Allowed (ofOption step))
      (⟨0, 8, 4, 2, [some ⟨-1, -1, -1⟩, some ⟨-1, -1, -1⟩], 0⟩, [])
      [.createNewProcess CPU.new Schedule.new, .accessAddress (some ⟨1, 0, 0⟩) 9,
        .createNewProcess CPU.new Schedule.new]
      (⟨2, 8, 4, 2, [some ⟨0, 2, 3⟩, some ⟨2, 1, 2⟩], 3⟩, [(2, 0), (1, 2), (1, 0)]) := by
    rw [guarded_ofOption, run_iff_foldlM]
    decide +kernel
  have h₀ : new 8 4 = some ⟨0, 8, 4, 2, [some ⟨-1, -1, -1⟩, some ⟨-1, -1, -1⟩], 0⟩ := by decide
  obtain ⟨hdistinct, -, hcall⟩ := run_lru h₀ (by decide) hr (by decide)
  obtain ⟨m', hm', heff⟩ := hcall (.accessAddress (some ⟨1, 0, 0⟩) 10) (by decide) (by decide)
  refine ⟨_, _, hr, rfl, hdistinct, m', hm', heff.1 ⟨1, ⟨2, 1, 2⟩, ⟨rfl, by decide⟩, ?_⟩⟩
  decide +kernel

end Runs

end SchoolProjects.Paging.Memory
