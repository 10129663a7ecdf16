import SchoolProjects.Paging.Dispatch
import SchoolProjects.Paging.Replacement

/-! Which commands are defined. A command is undefined when it divides by zero, finds
no frame to use, indexes one disk too far, takes from an empty disk or terminates
without a process. The condition of each command speaks of the state before it, and
a session is defined exactly when the condition holds at every command. -/

namespace SchoolProjects.Paging

open Transition

namespace Memory

/-- Every frame has an entry, and the page size can be divided by. -/
structure Sound (m : Memory) : Prop where
  entries : none ∉ m.pageTable
  pageSize : m.pageSize ≠ 0

/-- A frame that `leastUsedFrame` can choose. -/
def HasVictim (m : Memory) : Prop := ∃ e, some e ∈ m.pageTable ∧ e.timeSlice < 2 ^ 31 - 1

variable {m m' : Memory}

theorem Sound.setEntry (hm : m.Sound) {i : ℤ} {e : PageEntry} (h : m.setEntry i e = some m') :
    m'.Sound := by
  unfold Memory.setEntry at h
  split_ifs at h
  obtain rfl := Option.some.inj h
  constructor
  · intro hmem
    rcases List.mem_or_eq_of_mem_set hmem with hmem | hmem
    · exact hm.entries hmem
    · cases hmem
  · exact hm.pageSize

theorem Sound.modifyEntry (hm : m.Sound) {i : ℤ} {f : PageEntry → PageEntry}
    (h : m.modifyEntry i f = some m') : m'.Sound := by
  unfold Memory.modifyEntry at h
  split_ifs at h
  obtain ⟨e, -, h⟩ := Option.bind_eq_some_iff.mp h
  exact hm.setEntry h

theorem Sound.terminate (hm : m.Sound) (pid : ℤ) : (m.terminate pid).Sound := by
  constructor
  · intro hmem
    obtain ⟨x, hx, hnone⟩ := List.mem_map.mp hmem
    rw [Option.map_eq_none_iff] at hnone
    subst hnone
    exact hm.entries hx
  · exact hm.pageSize

/-- The index of `leastUsedFrame` is in the table, or `-1` without a victim. -/
theorem Sound.leastUsedFrame (hm : m.Sound) :
    (m.HasVictim ∧ ∃ i : ℕ, m.leastUsedFrame = i ∧ i < m.pageTable.length) ∨
      (¬ m.HasVictim ∧ m.leastUsedFrame = -1) := by
  rcases leastUsedFrom_spec hm.entries 0 (2 ^ 31 - 1) (-1) with ⟨hr, hall⟩ | ⟨j, e, hj, hr, hlt, -⟩
  · refine Or.inr ⟨?_, hr⟩
    rintro ⟨e, he, hlt⟩
    have := hall e he
    omega
  · refine Or.inl ⟨⟨e, List.mem_of_getElem? hj, hlt⟩, j, by simpa [Memory.leastUsedFrame] using hr, ?_⟩
    exact (List.getElem?_eq_some_iff.mp hj).1

theorem setEntry_defined {i : ℤ} {e : PageEntry} :
    (∃ m', m.setEntry i e = some m') ↔ 0 ≤ i ∧ i < m.pageTable.length := by
  unfold setEntry
  split_ifs with h <;> simp [h]

theorem Sound.modifyEntry_defined (hm : m.Sound) {i : ℤ} {f : PageEntry → PageEntry} :
    (∃ m', m.modifyEntry i f = some m') ↔ 0 ≤ i ∧ i < m.pageTable.length := by
  unfold Memory.modifyEntry
  split_ifs with h0
  · constructor
    · rintro ⟨m', h⟩
      obtain ⟨e, -, h⟩ := Option.bind_eq_some_iff.mp h
      exact setEntry_defined.mp ⟨m', h⟩
    · rintro ⟨-, hlt⟩
      have hi : i.toNat < m.pageTable.length := by omega
      cases hx : m.pageTable[i.toNat] with
      | none => exact absurd (hx ▸ List.getElem_mem hi) hm.entries
      | some e =>
        rw [List.getElem?_eq_getElem hi, hx, Option.join_some, Option.bind_some]
        exact setEntry_defined.mpr ⟨h0, hlt⟩
  · simp [h0]

/-- A store into the frame of `leastUsedFrame` is defined when there is a victim. -/
theorem Sound.leastUsedFrame_range (hm : m.Sound) :
    (0 ≤ m.leastUsedFrame ∧ m.leastUsedFrame < m.pageTable.length) ↔ m.HasVictim := by
  rcases hm.leastUsedFrame with ⟨hv, i, hr, hi⟩ | ⟨hv, hr⟩
  · rw [hr]
    simp [hv, hi]
  · rw [hr]
    simp [hv]

theorem exists_map_eq_some {α β : Type*} (f : α → β) (o : Option α) :
    (∃ b, o.map f = some b) ↔ ∃ a, o = some a := by
  cases o <;> simp

theorem Sound.createNewProcess_defined (hm : m.Sound) (c : CPU) (q : Schedule) :
    (∃ r, m.createNewProcess c q = some r) ↔ m.HasVictim := by
  set m₁ : Memory := { m with
    processCounter := uint32 (m.processCounter + 1)
    timeSlice := int32 (m.timeSlice + 1) } with hm₁
  have hsound : m₁.Sound := ⟨hm.entries, hm.pageSize⟩
  unfold Memory.createNewProcess
  rw [exists_map_eq_some, setEntry_defined]
  exact hsound.leastUsedFrame_range

/-- An access finds its page in the table or needs a victim. -/
theorem Sound.accessAddress_defined (hm : m.Sound) (p : Process) (num : ℤ) :
    (∃ m', m.accessAddress (some p) num = some m') ↔
      (∃ e, some e ∈ m.pageTable ∧ e.key = (p.pid, m.pageOf num)) ∨ m.HasVictim := by
  set m₁ : Memory := { m with timeSlice := int32 (m.timeSlice + 1) } with hm₁
  have hsound : m₁.Sound := ⟨hm.entries, hm.pageSize⟩
  simp only [Memory.accessAddress, if_neg hm.pageSize]
  rcases findPage_spec p.pid (m.pageOf num) m.pageTable 0 with ⟨j, e, hj, hk, hr⟩ | ⟨hall, hr⟩
  · have hlt : j < m.pageTable.length := (List.getElem?_eq_some_iff.mp hj).1
    have hdef := (hsound.modifyEntry_defined (i := (0 + j : ℕ))
      (f := fun e => { e with timeSlice := m₁.timeSlice })).mpr ⟨by omega, by simpa [hm₁] using hlt⟩
    rw [hr]
    exact iff_of_true hdef (Or.inl ⟨e, List.mem_of_getElem? hj, hk⟩)
  · rw [hr]
    have hno : ¬ ∃ e, some e ∈ m.pageTable ∧ e.key = (p.pid, m.pageOf num) := by
      rintro ⟨e, he, hk⟩
      exact hall e he hk
    simp only [ne_eq, not_true_eq_false, if_false, hno, false_or]
    exact hsound.modifyEntry_defined.trans hsound.leastUsedFrame_range

theorem Sound.createNewProcess (hm : m.Sound) {c : CPU} {q : Schedule} {r : Memory × CPU × Schedule}
    (h : m.createNewProcess c q = some r) : r.1.Sound := by
  obtain ⟨m', hset, rfl⟩ := Option.map_eq_some_iff.mp h
  have hm₁ : Sound { m with
    processCounter := uint32 (m.processCounter + 1)
    timeSlice := int32 (m.timeSlice + 1) } := ⟨hm.entries, hm.pageSize⟩
  show m'.Sound
  exact hm₁.setEntry hset

theorem Sound.accessAddress (hm : m.Sound) {p : Option Process} {num : ℤ}
    (h : m.accessAddress p num = some m') : m'.Sound := by
  have hm₁ : Sound { m with timeSlice := int32 (m.timeSlice + 1) } := ⟨hm.entries, hm.pageSize⟩
  cases p with
  | none =>
    obtain rfl := Option.some.inj h
    exact hm
  | some p =>
    simp only [Memory.accessAddress] at h
    split_ifs at h
    split at h
    · exact hm₁.modifyEntry h
    · split_ifs at h
      · exact hm₁.setEntry h
      · exact hm₁.modifyEntry h

end Memory

namespace System

/-- The condition under which a command is defined. -/
def Ok (s : System) : Command → Prop
  | .A => s.mem.HasVictim
  | .t => s.c.currentProcess ≠ none
  | .d n _ => uint32 n ≠ s.hd.length
  | .D n => s.hd.length < uint32 n ∨ ∃ disk, s.hd[uint32 n]? = some disk ∧ disk.hd ≠ []
  | .m n => ∀ p, s.c.currentProcess = some p →
      (∃ e, some e ∈ s.mem.pageTable ∧ e.key = (p.pid, s.mem.pageOf n)) ∨ s.mem.HasVictim
  | .Q | .S _ => True

/-- The sizes with which the program starts. -/
def StartOk (memSize : ℕ) (pgfrSize hardDisks : ℤ) : Prop :=
  0 ≤ hardDisks ∧ uint32 pgfrSize ≠ 0 ∧ memSize / uint32 pgfrSize < 2 ^ 31

variable {s s' : System}

theorem start_defined (memSize : ℕ) (pgfrSize hardDisks : ℤ) :
    (∃ s, start memSize pgfrSize hardDisks = some s) ↔ StartOk memSize pgfrSize hardDisks := by
  unfold start StartOk
  split_ifs with hneg
  · simp [not_le.mpr hneg]
  · rw [Memory.exists_map_eq_some]
    unfold Memory.new
    split_ifs with hbad
    · simp only [exists_false, false_iff]
      rintro ⟨-, h0, hlt⟩
      omega
    · rw [not_or, not_le] at hbad
      exact iff_of_true ⟨_, rfl⟩ ⟨not_lt.mp hneg, hbad⟩

theorem start_sound {memSize : ℕ} {pgfrSize hardDisks : ℤ}
    (h : start memSize pgfrSize hardDisks = some s) : s.mem.Sound := by
  unfold start at h
  split_ifs at h
  obtain ⟨mem, hmem, rfl⟩ := Option.map_eq_some_iff.mp h
  unfold Memory.new at hmem
  split_ifs at hmem with hbad
  obtain rfl := Option.some.inj hmem
  constructor
  · simp [List.mem_replicate]
  · exact (not_or.mp hbad).1

theorem sound_step {c : Command} (hs : s.mem.Sound) (h : s.step c = some s') : s'.mem.Sound := by
  cases c with
  | A =>
    obtain ⟨r, hr, rfl⟩ := Option.map_eq_some_iff.mp h
    exact hs.createNewProcess hr
  | t =>
    obtain ⟨mem, hmem, rfl⟩ := Option.map_eq_some_iff.mp h
    obtain ⟨p, -, rfl⟩ := Option.map_eq_some_iff.mp hmem
    exact hs.terminate p.pid
  | m n =>
    obtain ⟨mem, hmem, rfl⟩ := Option.map_eq_some_iff.mp h
    unfold CPU.accessAddress at hmem
    split at hmem
    · obtain rfl := Option.some.inj hmem
      exact hs
    · exact hs.accessAddress hmem
  | d n filename =>
    simp only [step] at h
    split_ifs at h
    · obtain rfl := Option.some.inj h
      exact hs
    · obtain ⟨disk, -, rfl⟩ := Option.map_eq_some_iff.mp h
      exact hs
  | D n =>
    simp only [step] at h
    split_ifs at h
    · obtain rfl := Option.some.inj h
      exact hs
    · obtain ⟨disk, -, h⟩ := Option.bind_eq_some_iff.mp h
      obtain ⟨r, -, rfl⟩ := Option.map_eq_some_iff.mp h
      exact hs
  | Q =>
    obtain rfl := Option.some.inj h
    exact hs
  | S flag =>
    obtain rfl := Option.some.inj h
    exact hs

/-- One case per command: the condition is what the command needs. -/
theorem step_defined (hs : s.mem.Sound) (c : Command) :
    (∃ s', s.step c = some s') ↔ s.Ok c := by
  cases c with
  | A =>
    rw [step, Memory.exists_map_eq_some]
    exact hs.createNewProcess_defined s.c s.q
  | t =>
    rw [step, Memory.exists_map_eq_some, CPU.terminate, Memory.exists_map_eq_some]
    exact Option.ne_none_iff_exists'.symm
  | m n =>
    rw [step, Memory.exists_map_eq_some]
    simp only [CPU.accessAddress, Ok]
    cases hc : s.c.currentProcess with
    | none => simp
    | some p => simpa using hs.accessAddress_defined p n
  | d n filename =>
    simp only [step, Ok]
    split_ifs with hn
    · exact iff_of_true ⟨s, rfl⟩ (by omega)
    · rw [Memory.exists_map_eq_some, ← Option.ne_none_iff_exists', ne_eq,
        List.getElem?_eq_none_iff]
      omega
  | D n =>
    simp only [step, Ok]
    split_ifs with hn
    · exact iff_of_true ⟨s, rfl⟩ (Or.inl hn)
    · simp only [hn, false_or]
      constructor
      · rintro ⟨s', h⟩
        obtain ⟨disk, hdisk, h⟩ := Option.bind_eq_some_iff.mp h
        refine ⟨disk, hdisk, fun hnil => ?_⟩
        simp [HardDisk.returnProcess, hnil] at h
      · rintro ⟨⟨hd⟩, hdisk, hne⟩
        obtain ⟨e, rest, rfl⟩ := List.exists_cons_of_ne_nil hne
        rw [hdisk]
        exact ⟨_, rfl⟩
  | Q => exact iff_of_true ⟨_, rfl⟩ trivial
  | S flag => exact iff_of_true ⟨_, rfl⟩ trivial

/-- A session is defined exactly when its sizes are and every command meets its
condition in the state it finds. -/
theorem session_defined_iff (memSize : ℕ) (pgfrSize hardDisks : ℤ) (cmds : List Command) :
    (∃ s₀ s, start memSize pgfrSize hardDisks = some s₀ ∧ s₀.Runs cmds s) ↔
      StartOk memSize pgfrSize hardDisks ∧
        ∀ s₀ pre c post s, start memSize pgfrSize hardDisks = some s₀ →
          cmds = pre ++ c :: post → s₀.Runs pre s → s.Ok c := by
  rw [← start_defined]
  constructor
  · rintro ⟨s₀, s, h0, hr⟩
    refine ⟨⟨s₀, h0⟩, fun s₀' pre c post s₁ h0' hc h1 => ?_⟩
    obtain rfl : s₀ = s₀' := Option.some.inj (h0.symm.trans h0')
    exact (exists_run_iff (fun s => s.mem.Sound) Ok (start_sound h0) (fun _ _ _ => sound_step)
      (fun _ c hs => step_defined hs c) cmds).mp ⟨s, hr⟩ pre c post s₁ hc h1
  · rintro ⟨⟨s₀, h0⟩, h⟩
    obtain ⟨s, hr⟩ := (exists_run_iff (fun s => s.mem.Sound) Ok (start_sound h0)
      (fun _ _ _ => sound_step) (fun _ c hs => step_defined hs c) cmds).mpr
      fun pre c post s₁ hc h1 => h s₀ pre c post s₁ h0 hc h1
    exact ⟨s₀, s, h0, hr⟩

/-- On a machine with one disk, disk 1 passes the check of the index. -/
theorem disk_one_too_far :
    ¬ ∃ s₀ s, start 16 4 1 = some s₀ ∧ s₀.Runs [.A, .d 1 [102]] s := by
  rintro ⟨s₀, s, h0, hr⟩
  have hnone : (sample [.A, .d 1 [102]]).isNone = true := by decide +kernel
  rw [sample, h0, Option.bind_some, (run_iff_foldlM _ _ _ _).mp hr] at hnone
  cases hnone

end System

end SchoolProjects.Paging
