import SchoolProjects.OSProject.MemoryInvariant
import SchoolProjects.OSProject.SchedulerInvariant

/-! The whole OS simulator: the memory with its block list, the scheduler and the
devices, driven by the commands `main` reads. Every step of it is a step of the
scheduler alone, with the memory seen as what it does to `priority` fields, so the
scheduler invariant holds here too. -/

namespace SchoolProjects.OSProject

open Transition LinkedChain

/-- The state of the program. `created` and `finished` record history; the program
has no such variables. -/
structure Machine where
  mem : Memory
  sched : Sched
  harddisks : IODevice
  printers : IODevice
  created : List ℕ
  finished : List ℕ

namespace Machine

/-- `main` up to its loop; `m` is converted to the `int` parameter of `Memory`. -/
def start (m disks printers : ℕ) : Machine :=
  ⟨.new (int32 m), .start, .new disks "Hard Disk", .new printers "Printer", [], []⟩

/-- The state after `temp` was created and handed to the ready queues. -/
def withCreated (s : Machine) (mem : Memory) (sched : Sched) (temp : ℕ) : Machine :=
  { s with mem := mem, sched := sched, created := s.created ++ [temp] }

/-- The state after the running process `p` was deleted. -/
def withFinished (s : Machine) (mem : Memory) (p : ℕ) : Machine :=
  ⟨mem, CPU.loadNewProcess s.sched, s.harddisks, s.printers, s.created, s.finished ++ [p]⟩

/-- Command `A`: `Memory::insert` with its call of `ReadyQueue::addProcess`. -/
def insert (s : Machine) (priority : ℤ) (size : ℕ) : Option Machine :=
  match s.mem.insert priority size with
  | none => none
  | some (mem, none) => some { s with mem := mem }
  | some (mem, some temp) =>
    (ReadyQueue.addProcess mem.prio s.sched temp).map fun sched =>
      s.withCreated mem sched temp

/-- Command `t`: `CPU::finishProcess`. -/
def finishProcess (s : Machine) : Option Machine :=
  match s.sched.currentProcess with
  | none => some s
  | some p => (s.mem.deleteProcess p).map fun mem => s.withFinished mem p

/-- The loop body of `main`. -/
def step (s : Machine) : Command → Option Machine
  | .A priority size => s.insert priority size
  | .t => s.finishProcess
  | .d i => (CPU.sendToDevice i s.harddisks s.sched).map fun r =>
      { s with harddisks := r.1, sched := r.2 }
  | .p i => (CPU.sendToDevice i s.printers s.sched).map fun r =>
      { s with printers := r.1, sched := r.2 }
  | .D i => (s.harddisks.releaseProcess s.mem.prio i s.sched).map fun r =>
      { s with harddisks := r.1, sched := r.2 }
  | .P i => (s.printers.releaseProcess s.mem.prio i s.sched).map fun r =>
      { s with printers := r.1, sched := r.2 }

/-- The scheduler's view of the machine. -/
def kernel (s : Machine) : Kernel :=
  ⟨s.mem.prio, s.sched, s.harddisks, s.printers, s.created, s.finished⟩

/-- A process created and not finished. -/
def Live (s : Machine) (p : ℕ) : Prop := p ∈ s.created ∧ p ∉ s.finished

/-- The commands considered: a process has a positive size, an `unsigned int`, and `D`
and `P` name a device of the machine. -/
def Admissible (s : Machine) : Command → Prop
  | .A _ size => 1 ≤ size ∧ size < 2 ^ 32
  | .D i => 0 ≤ i ∧ i < s.harddisks.size
  | .P i => 0 ≤ i ∧ i < s.printers.size
  | _ => True

instance (s : Machine) (c : Command) : Decidable (s.Admissible c) :=
  match c with
  | .A _ _ => inferInstanceAs (Decidable (_ ∧ _))
  | .D _ => inferInstanceAs (Decidable (_ ∧ _))
  | .P _ => inferInstanceAs (Decidable (_ ∧ _))
  | .t => inferInstanceAs (Decidable True)
  | .d _ => inferInstanceAs (Decidable True)
  | .p _ => inferInstanceAs (Decidable True)

/-- The machine with the block list `bs`: live processes are blocks in it that are
no holes, and the scheduler is in order. -/
structure Inv (s : Machine) (bs : List (ℕ × Block)) : Prop where
  linked : s.mem.Linked bs
  sched : s.kernel.Inv
  created_lt : ∀ p ∈ s.created, p < s.mem.heap.fresh
  live : ∀ p, s.Live p → ∃ x, (p, x) ∈ bs ∧ x.empty = false

section Steps

variable {s s' : Machine} {bs bs' : List (ℕ × Block)}

theorem prio_of_mem {m : Memory} (hm : m.Linked bs) {p : ℕ} {x : Block} (hp : (p, x) ∈ bs) :
    m.prio p = some x.priority := by
  obtain ⟨pv, nx, hr⟩ := hm.seg.read_of_mem hp
  simp [Memory.prio, hr, Block.node]

theorem start_inv {m disks printers : ℕ} (h0 : 1 ≤ m) (h1 : m < 2 ^ 32) (hd : 1 ≤ disks)
    (hp : 1 ≤ printers) :
    (start m disks printers).Inv [(0, ⟨-1, 0, 0, m - 1, m, true⟩)] where
  linked := Memory.new_linked h0 h1
  sched := by
    have h := Kernel.inv_start hd hp
    exact ⟨Sched.start_ordered _, fun p hp => (by cases hp.1), h.nodup, h.mem_places,
      fun p hp => (by cases hp), h.disks_pos, h.printers_pos⟩
  created_lt p hp := by cases hp
  live p hp := by cases hp.1

/-- A command other than `A` and `t` leaves the memory and the history alone. -/
theorem Inv.move (hi : s.Inv bs) (hmem : s'.mem = s.mem) (hc : s'.created = s.created)
    (hf : s'.finished = s.finished) (hk : s'.kernel.Inv) : s'.Inv bs where
  linked := hmem ▸ hi.linked
  sched := hk
  created_lt p hp := by rw [hmem]; exact hi.created_lt p (hc ▸ hp)
  live p hp := hi.live p ⟨hc ▸ hp.1, hf ▸ hp.2⟩

/-- A new process, created with a memory that keeps the blocks of the others. -/
theorem Inv.create (hi : s.Inv bs) (priority : ℤ) (size : ℕ) {mem : Memory} {x : Block}
    (hmem : mem.Linked bs') (hf : mem.heap.fresh = s.mem.heap.fresh + 1)
    (hx : x.priority = clampPriority priority ∧ x.empty = false)
    (hlive : ∀ b, b.2.empty = false → (b ∈ bs' ↔ b ∈ bs ∨ b = (s.mem.heap.fresh, x))) :
    ∃ sched, ReadyQueue.addProcess mem.prio s.sched s.mem.heap.fresh = some sched ∧
      Kernel.Step s.kernel (.A priority size)
        (s.withCreated mem sched s.mem.heap.fresh).kernel ∧
      (s.withCreated mem sched s.mem.heap.fresh).Inv bs' := by
  have hnew : s.mem.heap.fresh ∉ s.created := fun h => absurd (hi.created_lt _ h) (lt_irrefl _)
  have hp : mem.prio s.mem.heap.fresh = some (clampPriority priority) := by
    rw [prio_of_mem hmem ((hlive _ hx.2).mpr (Or.inr rfl)), hx.1]
  have hkeep : ∀ q, s.kernel.Live q → mem.prio q = s.kernel.prio q := fun q hq => by
    obtain ⟨y, hy, he⟩ := hi.live q hq
    exact (prio_of_mem hmem ((hlive (q, y) he).mpr (Or.inl hy))).trans
      (prio_of_mem hi.linked hy).symm
  obtain ⟨sched, hadd⟩ := hi.sched.create_defined priority hp hkeep
  have hstep := Kernel.Step.create s.kernel priority size _ mem.prio sched hnew hp hkeep hadd
  refine ⟨sched, hadd, hstep, hmem, hstep.inv hi.sched, fun p hp => ?_, fun p hp => ?_⟩
  · change p < mem.heap.fresh
    rcases List.mem_append.mp hp with hp | hp
    · have := hi.created_lt p hp
      omega
    · have := List.mem_singleton.mp hp
      omega
  · rcases List.mem_append.mp hp.1 with hpc | hpc
    · obtain ⟨y, hy, he⟩ := hi.live p ⟨hpc, hp.2⟩
      exact ⟨y, (hlive (p, y) he).mpr (Or.inl hy), he⟩
    · obtain rfl := List.mem_singleton.mp hpc
      exact ⟨x, (hlive _ hx.2).mpr (Or.inr rfl), hx.2⟩

/-- The running process ends, in a memory that keeps the blocks of the others. -/
theorem Inv.finish (hi : s.Inv bs) {p : ℕ} (hc : s.sched.currentProcess = some p) {mem : Memory}
    (hmem : mem.Linked bs') (hf : mem.heap.fresh = s.mem.heap.fresh)
    (hlive : ∀ b, b.2.empty = false → (b ∈ bs' ↔ b ∈ bs ∧ b.1 ≠ p)) :
    Kernel.Step s.kernel .t (s.withFinished mem p).kernel ∧ (s.withFinished mem p).Inv bs' := by
  have hkeep : ∀ q, s.kernel.Live q → q ≠ p → mem.prio q = s.kernel.prio q := fun q hq hqp => by
    obtain ⟨y, hy, he⟩ := hi.live q hq
    exact (prio_of_mem hmem ((hlive (q, y) he).mpr ⟨hy, hqp⟩)).trans
      (prio_of_mem hi.linked hy).symm
  have hstep := Kernel.Step.finish s.kernel p mem.prio hc hkeep
  refine ⟨hstep, hmem, hstep.inv hi.sched, fun q hq => ?_, fun q hq => ?_⟩
  · change q < mem.heap.fresh
    rw [hf]
    exact hi.created_lt q hq
  · have hq' : q ∉ s.finished ∧ q ≠ p := by
      have : q ∉ s.finished ++ [p] := hq.2
      simpa [not_or] using this
    obtain ⟨y, hy, he⟩ := hi.live q ⟨hq.1, hq'.1⟩
    exact ⟨y, (hlive (q, y) he).mpr ⟨hy, hq'.2⟩, he⟩

/-- The running process is a block of the list. -/
theorem Inv.current_mem (hi : s.Inv bs) {p : ℕ} (hc : s.sched.currentProcess = some p) :
    ∃ x, (p, x) ∈ bs ∧ x.empty = false := by
  refine hi.live p ((hi.sched.mem_places p).mp ?_)
  simp [Kernel.places, kernel, Sched.places, hc]

/-- A device command is defined, does not touch the memory and is a step of the
scheduler. -/
theorem Inv.device_step (hi : s.Inv bs) {c : Command} (hc : s.Admissible c)
    (hA : ∀ priority size, c ≠ .A priority size) (ht : c ≠ .t) :
    ∃ s', s.step c = some s' ∧ s'.Inv bs ∧ s'.mem = s.mem ∧
      Kernel.Step s.kernel c s'.kernel := by
  have hk := hi.sched
  cases c with
  | A priority size => exact absurd rfl (hA priority size)
  | t => exact absurd rfl ht
  | d i =>
    obtain ⟨dev, sc, h, -⟩ := sendToDevice_ordered hk.ordered s.harddisks hk.disks_pos i
    have hstep := Kernel.Step.toDisk s.kernel i dev sc h
    exact ⟨{ s with harddisks := dev, sched := sc }, congrArg (Option.map _) h,
      hi.move rfl rfl rfl (hstep.inv hk), rfl, hstep⟩
  | p i =>
    obtain ⟨dev, sc, h, -⟩ := sendToDevice_ordered hk.ordered s.printers hk.printers_pos i
    have hstep := Kernel.Step.toPrinter s.kernel i dev sc h
    exact ⟨{ s with printers := dev, sched := sc }, congrArg (Option.map _) h,
      hi.move rfl rfl rfl (hstep.inv hk), rfl, hstep⟩
  | D i =>
    have hsize := s.harddisks.size_eq
    obtain ⟨q, hq⟩ := s.harddisks.container.queue_isSome hc.1 (by have := hc.2; omega)
    obtain ⟨dev, sc, h, -⟩ := releaseProcess_ordered hk.ordered _ hk.disk_range hq
    have hstep := Kernel.Step.fromDisk s.kernel i dev sc h
    exact ⟨{ s with harddisks := dev, sched := sc }, congrArg (Option.map _) h,
      hi.move rfl rfl rfl (hstep.inv hk), rfl, hstep⟩
  | P i =>
    have hsize := s.printers.size_eq
    obtain ⟨q, hq⟩ := s.printers.container.queue_isSome hc.1 (by have := hc.2; omega)
    obtain ⟨dev, sc, h, -⟩ := releaseProcess_ordered hk.ordered _ hk.printer_range hq
    have hstep := Kernel.Step.fromPrinter s.kernel i dev sc h
    exact ⟨{ s with printers := dev, sched := sc }, congrArg (Option.map _) h,
      hi.move rfl rfl rfl (hstep.inv hk), rfl, hstep⟩

end Steps

end Machine

end SchoolProjects.OSProject
