import SchoolProjects.Lib.QueueBank
import SchoolProjects.Paging.Dispatch

/-! Custody of the processes: every process that was created is held by the CPU, a
ready queue or a disk, once. A history of creations, arrivals in the ready queues
and dispatches is kept beside the state. The counters are machine integers, so the
pids repeat after `2 ^ 32` creations, and a quantum that passes the largest `int`
becomes negative. -/

namespace SchoolProjects.Paging

open Transition

namespace Schedule

/-- The three queues as a bank. -/
def bank (s : Schedule) : QueueBank Process := [s.q 0, s.q 1, s.q 2]

theorem bank_get (s : Schedule) (l : Fin 3) : s.bank[(l : ℕ)]? = some (s.q l) := by
  fin_cases l <;> rfl

theorem bank_update (s : Schedule) (l : Fin 3) (x : List Process) :
    bank ⟨Function.update s.q l x⟩ = s.bank.set l x := by
  fin_cases l <;> simp [bank, Function.update]

theorem mem_bank {s : Schedule} {p : Process} : p ∈ s.bank.flatten ↔ ∃ l, p ∈ s.q l := by
  simp [bank, Fin.exists_fin_succ]

/-- The processes that wait in the queues. -/
def processes (s : Schedule) : Multiset Process := s.bank.flatten

theorem processes_push (s : Schedule) (l : Fin 3) (p : Process) :
    (s.push l p).processes = p ::ₘ s.processes := by
  apply Multiset.coe_eq_coe.mpr
  apply QueueBank.push_perm (i := l)
  rw [QueueBank.push_eq_some]
  refine ⟨s.q l, by rw [QueueBank.queue_natCast, bank_get], ?_⟩
  simp [push, bank_update]

theorem processes_pop {s : Schedule} {l : Fin 3} {p : Process} {rest : List Process}
    (h : s.q l = p :: rest) :
    s.processes = p ::ₘ processes ⟨Function.update s.q l rest⟩ := by
  apply Multiset.coe_eq_coe.mpr
  apply QueueBank.pop_perm (i := l)
  rw [QueueBank.pop_eq_some]
  refine ⟨rest, by rw [QueueBank.queue_natCast, bank_get, h], ?_⟩
  simp [bank_update]

/-- A dispatch moves one process, or finds none. -/
theorem processes_getNextProcess (s : Schedule) :
    s.processes = s.getNextProcess.1.toList + s.getNextProcess.2.processes := by
  rcases s.getNextProcess_cases with ⟨-, hr⟩ | ⟨l, p, rest, -, hq, hr⟩
  · simp [hr]
  · rw [hr, processes_pop hq]
    simp

end Schedule

/-- The processes in the queue of a disk. -/
def HardDisk.processes (d : HardDisk) : List Process := d.hd.map HardDiskEntry.p

namespace System

def diskBank (s : System) : QueueBank Process := s.hd.map HardDisk.processes

def diskProcesses (s : System) : Multiset Process := s.diskBank.flatten

/-- The processes of the CPU, the ready queues and the disks, with the number of
times each is held. -/
def processes (s : System) : Multiset Process :=
  s.c.currentProcess.toList + s.q.processes + s.diskProcesses

theorem diskProcesses_add {s : System} {n : ℕ} {disk : HardDisk} (h : s.hd[n]? = some disk)
    (p : Process) (filename : Text) (c : CPU) (q : Schedule) :
    (s.withDisk n (disk.addProcess p filename) c q).diskProcesses = p ::ₘ s.diskProcesses := by
  apply Multiset.coe_eq_coe.mpr
  apply QueueBank.push_perm (i := n)
  rw [QueueBank.push_eq_some]
  refine ⟨disk.processes, by simp [QueueBank.queue_natCast, diskBank, h], ?_⟩
  simp [diskBank, withDisk, HardDisk.processes, HardDisk.addProcess, List.map_set]

theorem diskProcesses_return {s : System} {n : ℕ} {e : HardDiskEntry} {rest : List HardDiskEntry}
    (h : s.hd[n]? = some ⟨e :: rest⟩) (c : CPU) (q : Schedule) :
    s.diskProcesses = e.p ::ₘ (s.withDisk n ⟨rest⟩ c q).diskProcesses := by
  apply Multiset.coe_eq_coe.mpr
  apply QueueBank.pop_perm (i := n)
  rw [QueueBank.pop_eq_some]
  refine ⟨rest.map HardDiskEntry.p, by simp [QueueBank.queue_natCast, diskBank, h,
    HardDisk.processes], ?_⟩
  simp [diskBank, withDisk, HardDisk.processes, List.map_set]

/-- The process that a command puts at the back of its ready queue. -/
def arrival (s : System) : Command → Option Process
  | .A => s.c.currentProcess.map fun _ => ⟨s.nextPid, 0, 0⟩
  | .D n => s.hd[uint32 n]?.bind fun disk => disk.processes.head?
  | _ => none

/-- The process that a command takes from the ready queues to the CPU. -/
def dispatched (s : System) : Command → Option Process
  | .d n _ =>
    if uint32 n < s.hd.length ∧ s.c.currentProcess ≠ none then s.q.getNextProcess.1 else none
  | _ => none

variable {s s' : System} {c : Command}

/-- Only a creation adds a process, only `Q` changes one, and none is lost. -/
theorem processes_step (h : Effect s c s') :
    (c = .A ∧ s'.processes = ⟨s.nextPid, 0, 0⟩ ::ₘ s.processes) ∨
      (c = .Q ∧ s' = { s with c := s.c.passQuantum }) ∨
      (c ≠ .A ∧ c ≠ .Q ∧ s'.processes = s.processes) := by
  cases h with
  | load mem hc hcount =>
    left
    simp [processes, diskProcesses, diskBank, hc]
  | wait mem p hc hcount =>
    left
    simp [processes, diskProcesses, diskBank, Schedule.processes_push]
  | pass => simp
  | finish p hc => simp [processes, diskProcesses, diskBank]
  | send n filename p disk hc hdisk =>
    have hnext := s.q.processes_getNextProcess
    have hdisks := diskProcesses_add hdisk p filename ⟨s.q.getNextProcess.1⟩ s.q.getNextProcess.2
    simp only [processes, hdisks, hc, hnext]
    simp [withDisk, add_assoc]
  | back n e rest hdisk =>
    have hdisks := diskProcesses_return hdisk s.c (s.q.push (level e.p.quantum) e.p)
    simp only [processes, hdisks]
    simp [withDisk, Schedule.processes_push]
  | access n mem p hc hcount => simp [processes, diskProcesses, diskBank]
  | idle c hidle =>
    cases c with
    | A => cases hidle
    | Q => cases hidle
    | _ => simp

def pids (s : System) : Multiset ℤ := s.processes.map Process.pid

theorem pids_step (h : Effect s c s') :
    s'.pids = (if c = .A then {s.nextPid} else 0) + s.pids := by
  rcases processes_step h with ⟨rfl, hp⟩ | ⟨rfl, rfl⟩ | ⟨hA, -, hp⟩
  · simp [pids, hp]
  · cases hc : s.c.currentProcess <;>
      simp [pids, processes, diskProcesses, diskBank, CPU.passQuantum, hc]
  · simp [pids, hp, hA]

/-- The quantum of a process after a step, when it does not overflow. -/
theorem quantum_step (h : Effect s c s') (hs : ∀ p ∈ s.processes, 0 ≤ p.quantum ∧ p.quantum < 2 ^ 31)
    (hQ : c = .Q → ∀ p, s.c.currentProcess = some p → p.quantum < 2 ^ 31 - 1) :
    ∀ p ∈ s'.processes, 0 ≤ p.quantum ∧ p.quantum < 2 ^ 31 := by
  rcases processes_step h with ⟨rfl, hp⟩ | ⟨rfl, rfl⟩ | ⟨-, -, hp⟩
  · intro p hmem
    rw [hp] at hmem
    rcases Multiset.mem_cons.mp hmem with rfl | hmem
    · norm_num
    · exact hs p hmem
  · intro p hmem
    cases hc : s.c.currentProcess with
    | none =>
      apply hs
      simpa [processes, diskProcesses, diskBank, CPU.passQuantum, hc] using hmem
    | some r =>
      have hr := hs r (by simp [processes, hc])
      have hlt := hQ rfl r hc
      have hmem' : p = { r with quantum := int32 (r.quantum + 1) } ∨ p ∈ s.processes := by
        simp only [processes, diskProcesses, diskBank, CPU.passQuantum, hc, Option.map_some,
          Option.toList_some, Multiset.mem_add, Multiset.coe_singleton, Multiset.mem_singleton]
          at hmem ⊢
        tauto
      rcases hmem' with rfl | hmem'
      · have := int32_of_range (z := r.quantum + 1) (by omega) (by omega)
        simp only [this]
        omega
      · exact hs p hmem'
  · intro p hmem
    exact hs p (hp ▸ hmem)

/-- The ready queues are in order: each process waits in the queue of its quantum. -/
def Leveled (s : System) : Prop := ∀ l, ∀ p ∈ s.q.q l, level p.quantum = l

/-- The processes of a list that belong in queue `l`. -/
def atLevel (l : Fin 3) (ps : List Process) : List Process :=
  ps.filter fun p => level p.quantum = l

@[simp] theorem atLevel_nil (l : Fin 3) : atLevel l [] = [] := rfl

@[simp] theorem atLevel_append (l : Fin 3) (ps qs : List Process) :
    atLevel l (ps ++ qs) = atLevel l ps ++ atLevel l qs := List.filter_append ..

theorem mem_atLevel {l : Fin 3} {ps : List Process} {p : Process} :
    p ∈ atLevel l ps ↔ p ∈ ps ∧ level p.quantum = l := by simp [atLevel]

theorem push_atLevel (q : Schedule) (p : Process) (l : Fin 3) :
    (q.push (level p.quantum) p).q l = q.q l ++ atLevel l [p] := by
  by_cases hl : level p.quantum = l
  · subst hl
    simp [Schedule.push, atLevel]
  · simp [Schedule.push, atLevel, hl, Function.update_of_ne (Ne.symm hl)]

theorem getNextProcess_atLevel (hs : s.Leveled) (l : Fin 3) :
    s.q.q l = atLevel l s.q.getNextProcess.1.toList ++ s.q.getNextProcess.2.q l := by
  rcases s.q.getNextProcess_cases with ⟨-, hr⟩ | ⟨k, p, rest, -, hq, hr⟩
  · simp [hr]
  · have hp : level p.quantum = k := hs k p (by simp [hq])
    rw [hr]
    by_cases hl : k = l
    · subst hl
      simp [atLevel, hp, hq]
    · simp [atLevel, hp, hl, Function.update_of_ne (Ne.symm hl)]

/-- The queues are first in, first out: what a step takes from a queue was at its
front, and what it adds goes to its back. -/
theorem queues_step (hs : s.Leveled) (h : Effect s c s') (l : Fin 3) :
    s.q.q l ++ atLevel l (s.arrival c).toList =
      atLevel l (s.dispatched c).toList ++ s'.q.q l := by
  cases h with
  | load mem hc hcount => simp [arrival, dispatched, hc]
  | wait mem p hc hcount =>
    have hpush := push_atLevel s.q ⟨s.nextPid, 0, 0⟩ l
    simpa [arrival, dispatched, hc] using hpush.symm
  | pass => simp [arrival, dispatched]
  | finish p hc => simp [arrival, dispatched]
  | send n filename p disk hc hdisk =>
    obtain ⟨hlt, -⟩ := List.getElem?_eq_some_iff.mp hdisk
    simpa [arrival, dispatched, hc, hlt, withDisk] using getNextProcess_atLevel hs l
  | back n e rest hdisk =>
    have hpush := push_atLevel s.q e.p l
    simpa [arrival, dispatched, hdisk, HardDisk.processes, withDisk] using hpush.symm
  | access n mem p hc hcount => simp [arrival, dispatched]
  | idle c hidle =>
    cases c with
    | A => cases hidle
    | d n filename =>
      have hnot : ¬ (uint32 n < s.hd.length ∧ s.c.currentProcess ≠ none) := by
        rintro ⟨hlt, hc⟩
        rcases hidle with hgt | hnone
        · omega
        · exact hc hnone
      simp [arrival, dispatched, hnot]
    | D n =>
      have hnone : s.hd[uint32 n]? = none := List.getElem?_eq_none (le_of_lt hidle)
      simp [arrival, dispatched, hnone]
    | _ => simp [arrival, dispatched]

theorem leveled_step (hs : s.Leveled) (h : Effect s c s') : s'.Leveled := by
  intro l p hp
  have hmem : p ∈ s.q.q l ++ atLevel l (s.arrival c).toList := by
    rw [queues_step hs h l]
    exact List.mem_append_right _ hp
  rcases List.mem_append.mp hmem with hmem | hmem
  · exact hs l p hmem
  · exact (mem_atLevel.mp hmem).2

theorem processCounter_step (h : Effect s c s') :
    s'.mem.processCounter =
      if c = .A then uint32 (s.mem.processCounter + 1) else s.mem.processCounter := by
  cases h with
  | load mem hc hcount => simp [hcount]
  | wait mem p hc hcount => simp [hcount]
  | access n mem p hc hcount => simp [hcount]
  | idle c hidle =>
    cases c with
    | A => cases hidle
    | _ => simp
  | _ => rfl

end System

/-- The state with its history: the pids given, and the processes that arrived in
the ready queues and that left them, in order. The program has no such variables. -/
structure Traced where
  sys : System
  created : List ℤ
  arrived : List Process
  departed : List Process

namespace Traced

def start (s : System) : Traced := ⟨s, [], [], []⟩

def step (g : Traced) (c : Command) : Option Traced :=
  (g.sys.step c).map fun s =>
    ⟨s, if c = .A then g.created ++ [g.sys.nextPid] else g.created,
      g.arrived ++ (g.sys.arrival c).toList, g.departed ++ (g.sys.dispatched c).toList⟩

/-- No counter passes its largest value: at most `2 ^ 32` processes are created, and
no quantum goes beyond the largest `int`. -/
def NoWrap (g : Traced) : Command → Prop
  | .A => g.created.length < 2 ^ 32
  | .Q => ∀ p, g.sys.c.currentProcess = some p → p.quantum < 2 ^ 31 - 1
  | _ => True

instance (g : Traced) (c : Command) : Decidable (g.NoWrap c) :=
  match c with
  | .A => inferInstanceAs (Decidable (g.created.length < 2 ^ 32))
  | .Q => inferInstanceAs (Decidable (∀ p, g.sys.c.currentProcess = some p → _))
  | .t | .d _ _ | .D _ | .m _ | .S _ => inferInstanceAs (Decidable True)

/-- The processes in custody: each created process is held by the CPU, a ready queue
or a disk, once; the pids are distinct; every queue holds the quanta it is for; and
the processes that wait in a queue are the last ones that arrived in it, in order. -/
structure Orderly (g : Traced) : Prop where
  places : g.sys.pids = g.created
  distinct : g.created.Nodup
  level0 : ∀ p ∈ g.sys.q.q 0, p.quantum = 0
  level1 : ∀ p ∈ g.sys.q.q 1, p.quantum = 1 ∨ p.quantum = 2
  level2 : ∀ p ∈ g.sys.q.q 2, 3 ≤ p.quantum
  fifo : ∀ l, System.atLevel l g.arrived = System.atLevel l g.departed ++ g.sys.q.q l

/-- The process dispatched from `g` to `g'` is the one that waited longest in the
lowest queue that is not empty; with all queues empty there is none. -/
def DispatchesLongestWaiting (g g' : Traced) : Prop :=
  ((∀ l, g.sys.q.q l = []) ∧ g'.sys.c.currentProcess = none) ∨
    ∃ l p rest, (∀ k < l, g.sys.q.q k = []) ∧ g.sys.q.q l = p :: rest ∧
      g'.sys.c.currentProcess = some p ∧ g'.departed = g.departed ++ [p]

/-- The pid of the creation after `k` others. -/
def pidOf (k : ℕ) : ℤ := int32 (uint32 (k + 1))

theorem pidOf_injective {j k : ℕ} (hj : j < 2 ^ 32) (hk : k < 2 ^ 32) (h : pidOf j = pidOf k) :
    j = k := by
  unfold pidOf at h
  obtain ⟨a, ha⟩ := int32_eq (uint32 (j + 1) : ℕ)
  obtain ⟨b, hb⟩ := int32_eq (uint32 (k + 1) : ℕ)
  rw [ha, hb] at h
  unfold uint32 at h
  omega

/-- Reducing a counter at every increment is reducing it at the end. -/
theorem uint32_succ (n : ℕ) : uint32 ((uint32 n : ℕ) + 1) = uint32 (n + 1) := by
  unfold uint32
  omega

/-- What the runs keep, as long as no counter wraps. -/
structure Inv (g : Traced) : Prop where
  places : g.sys.pids = g.created
  pids : g.created = (List.range g.created.length).map pidOf
  bound : g.created.length ≤ 2 ^ 32
  counter : g.sys.mem.processCounter = uint32 g.created.length
  quanta : ∀ p ∈ g.sys.processes, 0 ≤ p.quantum ∧ p.quantum < 2 ^ 31
  leveled : g.sys.Leveled
  fifo : ∀ l, System.atLevel l g.arrived = System.atLevel l g.departed ++ g.sys.q.q l

variable {g g' : Traced} {c : Command}

theorem Inv.orderly (h : g.Inv) : g.Orderly where
  places := h.places
  distinct := by
    rw [h.pids]
    apply List.Nodup.map_on _ List.nodup_range
    intro j hj k hk heq
    have hb := h.bound
    rw [List.mem_range] at hj hk
    exact pidOf_injective (by omega) (by omega) heq
  level0 p hp := by
    have hl := h.leveled 0 p hp
    rcases level_cases p.quantum with ⟨-, hq⟩ | ⟨h1, -⟩ | ⟨h2, -⟩
    · exact hq
    · simp [hl] at h1
    · simp [hl] at h2
  level1 p hp := by
    have hl := h.leveled 1 p hp
    rcases level_cases p.quantum with ⟨h0, -⟩ | ⟨-, hq⟩ | ⟨h2, -⟩
    · simp [hl] at h0
    · exact hq
    · simp [hl] at h2
  level2 p hp := by
    have hl := h.leveled 2 p hp
    have hmem : p ∈ g.sys.processes := by
      have : p ∈ g.sys.q.bank.flatten := Schedule.mem_bank.mpr ⟨2, hp⟩
      simp [System.processes, Schedule.processes, this]
    have hq := h.quanta p hmem
    rcases level_cases p.quantum with ⟨h0, -⟩ | ⟨h1, -⟩ | ⟨-, h0, h1, h2⟩
    · simp [hl] at h0
    · simp [hl] at h1
    · omega
  fifo := h.fifo

theorem inv_start {memSize : ℕ} {pgfrSize hardDisks : ℤ} {s : System}
    (h : System.start memSize pgfrSize hardDisks = some s) : (start s).Inv := by
  obtain ⟨hc, hq, hd⟩ := System.start_q h
  have hnone : s.processes = 0 := by
    simp [System.processes, Schedule.processes, Schedule.bank, System.diskProcesses,
      System.diskBank, HardDisk.processes, hc, hq, hd, CPU.new, Schedule.new]
  have hcount : s.mem.processCounter = 0 := by
    unfold System.start at h
    split_ifs at h
    obtain ⟨mem, hmem, rfl⟩ := Option.map_eq_some_iff.mp h
    unfold Memory.new at hmem
    split_ifs at hmem
    obtain rfl := Option.some.inj hmem
    rfl
  constructor
  · simp [start, System.pids, hnone]
  · rfl
  · simp [start]
  · exact hcount
  · simp [start, hnone]
  · intro l p hp
    simp [start, hq, Schedule.new] at hp
  · intro l
    simp [start, hq, Schedule.new]

theorem inv_step (hi : g.Inv) (hw : g.NoWrap c) (h : g.step c = some g') : g'.Inv := by
  obtain ⟨s, hs, rfl⟩ := Option.map_eq_some_iff.mp h
  have heff := System.step_effect hs
  have hpid : g.sys.nextPid = pidOf g.created.length := by
    unfold System.nextPid pidOf
    rw [hi.counter, uint32_succ]
  constructor
  · rw [System.pids_step heff, hi.places, add_comm]
    split_ifs
    · rw [← Multiset.coe_singleton, Multiset.coe_add]
    · simp
  · split_ifs with hA
    · rw [List.length_append, List.length_singleton, List.range_succ, List.map_append, ← hi.pids,
        List.map_singleton, hpid]
    · exact hi.pids
  · split_ifs with hA
    · subst hA
      have hlt : g.created.length < 2 ^ 32 := hw
      simpa using hlt
    · exact hi.bound
  · rw [System.processCounter_step heff, hi.counter]
    split_ifs with hA
    · rw [uint32_succ]
      simp
    · rfl
  · apply System.quantum_step heff hi.quanta
    rintro rfl
    exact hw
  · exact System.leveled_step hi.leveled heff
  · intro l
    rw [System.atLevel_append, System.atLevel_append, hi.fifo l, List.append_assoc,
      System.queues_step hi.leveled heff l, List.append_assoc]

/-- `d` with a running process is the one command that dispatches. -/
theorem dispatch_step {n : ℤ} {filename : Text} (h : g.step (.d n filename) = some g')
    (hn : uint32 n < g.sys.hd.length) (hc : g.sys.c.currentProcess ≠ none) :
    g.DispatchesLongestWaiting g' := by
  obtain ⟨s, hs, rfl⟩ := Option.map_eq_some_iff.mp h
  have hdisp : g.sys.dispatched (.d n filename) = g.sys.q.getNextProcess.1 := by
    simp [System.dispatched, hn, hc]
  have hnext : s.c.currentProcess = g.sys.q.getNextProcess.1 := by
    cases System.step_effect hs with
    | send n filename p disk hc hdisk => rfl
    | idle c hidle =>
      rcases hidle with hgt | hnone
      · omega
      · exact absurd hnone hc
  rcases g.sys.q.getNextProcess_cases with ⟨hq, hr⟩ | ⟨l, p, rest, hlow, hq, hr⟩
  · exact Or.inl ⟨hq, by rw [hnext, hr]⟩
  · exact Or.inr ⟨l, p, rest, hlow, hq, by rw [hnext, hr], by simp [hdisp, hr]⟩

/-- In every state of a run in which no counter wraps the processes are in custody,
and every dispatch takes the process that waited longest in the lowest queue. -/
theorem custody_run {memSize : ℕ} {pgfrSize hardDisks : ℤ} {s₀ : System}
    (hstart : System.start memSize pgfrSize hardDisks = some s₀) {cmds : List Command}
    (hr : Run (Guarded NoWrap (ofOption step)) (start s₀) cmds g) :
    g.Orderly ∧ ∀ n filename g', g.step (.d n filename) = some g' →
      uint32 n < g.sys.hd.length → g.sys.c.currentProcess ≠ none →
        g.DispatchesLongestWaiting g' := by
  have hinv : g.Inv := hr.invariant Inv (inv_start hstart) fun _ _ _ hi hs => inv_step hi hs.1 hs.2
  exact ⟨hinv.orderly, fun _ _ _ => dispatch_step⟩

theorem custody_run_sample : ∃ s₀ g, System.start 16 4 1 = some s₀ ∧
    Run (Guarded NoWrap (ofOption step)) (start s₀) [.A, .Q, .A, .d 0 [102], .D 0] g ∧
      g.Orderly := by
  have hsome : ((System.start 16 4 1).bind fun s₀ => [.A, .Q, .A, .d 0 [102], .D 0].foldlM
      (fun g c => if NoWrap g c then g.step c else none) (start s₀)).isSome = true := by
    decide +kernel
  obtain ⟨g, hg⟩ := Option.isSome_iff_exists.mp hsome
  obtain ⟨s₀, h0, hr⟩ := Option.bind_eq_some_iff.mp hg
  rw [← run_iff_foldlM, ← guarded_ofOption] at hr
  exact ⟨s₀, g, h0, hr, (custody_run h0 hr).1⟩

/-! ### When a quantum wraps -/

/-- Every run of the program has its history. -/
theorem exists_history {s₀ s : System} {cmds : List Command} (hr : s₀.Runs cmds s) :
    ∃ g, Run (ofOption step) (start s₀) cmds g ∧ g.sys = s := by
  induction hr with
  | nil => exact ⟨start s₀, .nil, rfl⟩
  | @snoc cmds s s' c hr hs ih =>
    obtain ⟨g, hg, rfl⟩ := ih
    have hs : g.sys.step c = some s' := hs
    obtain ⟨g', hg', rfl⟩ : ∃ g', g.step c = some g' ∧ g'.sys = s' := by simp [step, hs]
    exact ⟨g', hg.snoc hg', rfl⟩

/-- `Q` again and again: the quantum of the running process counts up and wraps. -/
theorem run_passQuantum (s : System) (p : Process) (hc : s.c.currentProcess = some p)
    (hq : p.quantum = 0) (n : ℕ) :
    s.Runs (List.replicate n .Q) { s with c := ⟨some { p with quantum := int32 n }⟩ } := by
  induction n with
  | zero =>
    have hsame : ({ s with c := ⟨some { p with quantum := int32 (0 : ℕ) }⟩ } : System) = s := by
      obtain ⟨mem, ⟨current⟩, q, hd⟩ := s
      obtain ⟨pid, state, quantum⟩ := p
      obtain rfl : current = some ⟨pid, state, quantum⟩ := hc
      obtain rfl : quantum = 0 := hq
      rfl
    rw [hsame]
    exact .nil
  | succ n ih =>
    rw [List.replicate_succ']
    apply ih.snoc
    show some _ = some _
    simp [CPU.passQuantum, int32_add_int32]

/-- With `2 ^ 31` times `Q` the quantum of a process is negative, and after a disk
request it waits in the last queue. -/
theorem quantum_wraps : ∃ s₀ g, System.start 16 4 1 = some s₀ ∧
    Run (ofOption step) (start s₀)
      ([.A] ++ List.replicate (2 ^ 31) .Q ++ [.A, .d 0 [102], .D 0]) g ∧ ¬ g.Orderly := by
  obtain ⟨s₀, s, h0, hA, hs⟩ := System.sample_run [.A] (by decide +kernel)
  have hcpu : (System.sample [.A]).any (fun s => s.c.currentProcess = some ⟨1, 0, 0⟩) = true := by
    decide +kernel
  -- the last three commands, from the state in which the quantum has wrapped
  have hend : (System.sample [.A]).any (fun s =>
      ([.A, .d 0 [102], .D 0].foldlM System.step
        { s with c := ⟨some ⟨1, 0, -2 ^ 31⟩⟩ }).any fun s' =>
          s'.q.q 2 = [⟨1, 0, -2 ^ 31⟩]) = true := by
    decide +kernel
  rw [hs] at hcpu hend
  obtain ⟨s', hlast, hq⟩ := (Option.any_eq_true _ _).mp (by simpa only [Option.any_some] using hend)
  have hQ := run_passQuantum s ⟨1, 0, 0⟩ (by simpa using hcpu) rfl (2 ^ 31)
  have hwrap : int32 ((2 ^ 31 : ℕ) : ℤ) = -2 ^ 31 := by decide +kernel
  rw [hwrap] at hQ
  obtain ⟨g, hg, rfl⟩ := exists_history ((hA.append hQ).append ((run_iff_foldlM _ _ _ _).mpr hlast))
  refine ⟨s₀, g, h0, hg, fun hord => ?_⟩
  have hlevel := hord.level2 ⟨1, 0, -2 ^ 31⟩ (by rw [of_decide_eq_true hq]; simp)
  norm_num at hlevel

end Traced

end SchoolProjects.Paging
