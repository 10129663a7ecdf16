import SchoolProjects.Lib.Text
import SchoolProjects.Lib.Transition
import SchoolProjects.Paging.Memory

/-! The second OS simulator as a whole: the rest of `Schedule.cpp` and `CPU.cpp`,
`HardDisk.cpp`, and the commands of `main` on the memory, the CPU, the ready queues
and the disks. `none` as a result stands for undefined behaviour: an index outside a
container, the front of an empty queue, a null process, or what `Memory` leaves
undefined. What a defined command does to the processes is stated once, by `Effect`. -/

namespace SchoolProjects.Paging

open Transition

/-- The instance behind the numerals of the three queues. -/
instance instNeZeroQueues : NeZero 3 := ⟨by decide⟩

namespace Schedule

/-- The front process of the first queue that is not empty. -/
def getNextProcess (s : Schedule) : Option Process × Schedule :=
  match s.q 0 with
  | temp :: rest => (some temp, ⟨Function.update s.q 0 rest⟩)
  | [] =>
    match s.q 1 with
    | temp :: rest => (some temp, ⟨Function.update s.q 1 rest⟩)
    | [] =>
      match s.q 2 with
      | temp :: rest => (some temp, ⟨Function.update s.q 2 rest⟩)
      | [] => (none, s)

end Schedule

structure HardDiskEntry where
  p : Process
  file_name : Text

structure HardDisk where
  hd : List HardDiskEntry

namespace HardDisk

def addProcess (d : HardDisk) (p : Process) (fn : Text) : HardDisk := ⟨d.hd ++ [⟨p, fn⟩]⟩

def returnProcess (d : HardDisk) (q : Schedule) : Option (HardDisk × Schedule) :=
  match d.hd with
  | [] => none
  | temp :: rest => some (⟨rest⟩, q.addToQueues temp.p)

end HardDisk

namespace CPU

/-- The process stays on the CPU: the lines that would take it off are commented out. -/
def terminate (c : CPU) (mem : Memory) : Option Memory :=
  c.currentProcess.map fun p => mem.terminate p.pid

def passQuantum (c : CPU) : CPU :=
  ⟨c.currentProcess.map fun p => { p with quantum := int32 (p.quantum + 1) }⟩

def sendToDisk (c : CPU) (q : Schedule) (hd : HardDisk) (filename : Text) :
    CPU × Schedule × HardDisk :=
  match c.currentProcess with
  | none => (c, q, hd)
  | some p => (⟨q.getNextProcess.1⟩, q.getNextProcess.2, hd.addProcess p filename)

def accessAddress (c : CPU) (num : ℤ) (mem : Memory) : Option Memory :=
  match c.currentProcess with
  | none => some mem
  | some p => mem.accessAddress (some p) num

end CPU

/-- The objects `main` works on. -/
structure System where
  mem : Memory
  c : CPU
  q : Schedule
  hd : List HardDisk

/-- The commands of `main`, with the numbers `stoi` has read. -/
inductive Command where
  | A
  | Q
  | t
  | d (n : ℤ) (filename : Text)
  | D (n : ℤ)
  | m (n : ℤ)
  | S (flag : Text)
  deriving DecidableEq

namespace System

/-- `main` up to its loop; `pgfrSize` is converted to the `unsigned` parameter of
`Memory`, and a negative number of disks makes `resize` throw. -/
def start (memSize : ℕ) (pgfrSize hardDisks : ℤ) : Option System :=
  if hardDisks < 0 then none
  else (Memory.new memSize (uint32 pgfrSize)).map fun mem =>
    ⟨mem, .new, .new, List.replicate hardDisks.toNat ⟨[]⟩⟩

/-- The state after disk `n` and the ready queues have exchanged a process. -/
def withDisk (s : System) (n : ℕ) (disk : HardDisk) (c : CPU) (q : Schedule) : System :=
  { s with c := c, q := q, hd := s.hd.set n disk }

/-- The loop body of `main` once the command is read. The comparison with the number
of disks lets one index too many through. -/
def step (s : System) : Command → Option System
  | .A => (s.mem.createNewProcess s.c s.q).map fun r =>
      { s with mem := r.1, c := r.2.1, q := r.2.2 }
  | .Q => some { s with c := s.c.passQuantum }
  | .t => (s.c.terminate s.mem).map fun mem => { s with mem := mem }
  | .d n filename =>
    if s.hd.length < uint32 n then some s
    else s.hd[uint32 n]?.map fun disk =>
      let r := s.c.sendToDisk s.q disk filename
      s.withDisk (uint32 n) r.2.2 r.1 r.2.1
  | .D n =>
    if s.hd.length < uint32 n then some s
    else s.hd[uint32 n]?.bind fun disk => (disk.returnProcess s.q).map fun r =>
      s.withDisk (uint32 n) r.1 s.c r.2
  | .m n => (s.c.accessAddress n s.mem).map fun mem => { s with mem := mem }
  | .S _ => some s

/-- The commands that are refused, or only print. -/
def Idle (s : System) : Command → Prop
  | .d n _ => s.hd.length < uint32 n ∨ s.c.currentProcess = none
  | .D n => s.hd.length < uint32 n
  | .m _ => s.c.currentProcess = none
  | .S _ => True
  | _ => False

/-- The pid that command `A` gives next. -/
def nextPid (s : System) : ℤ := int32 (uint32 (s.mem.processCounter + 1))

end System

/-! ### Queues -/

/-- The queue of a quantum. -/
def level (quantum : ℤ) : Fin 3 :=
  if quantum = 0 then 0 else if quantum = 1 ∨ quantum = 2 then 1 else 2

@[simp] theorem level_zero : level 0 = 0 := rfl

theorem level_cases (quantum : ℤ) :
    (level quantum = 0 ∧ quantum = 0) ∨ (level quantum = 1 ∧ (quantum = 1 ∨ quantum = 2)) ∨
      (level quantum = 2 ∧ quantum ≠ 0 ∧ quantum ≠ 1 ∧ quantum ≠ 2) := by
  unfold level
  split_ifs <;> simp_all

theorem Schedule.addToQueues_some (s : Schedule) (p : Process) :
    s.addToQueues (some p) = s.push (level p.quantum) p := by
  simp only [addToQueues, level]
  split_ifs <;> rfl

/-- A dispatch takes the front of the lowest queue that is not empty. -/
theorem Schedule.getNextProcess_cases (s : Schedule) :
    ((∀ l, s.q l = []) ∧ s.getNextProcess = (none, s)) ∨
      ∃ l p rest, (∀ k < l, s.q k = []) ∧ s.q l = p :: rest ∧
        s.getNextProcess = (some p, ⟨Function.update s.q l rest⟩) := by
  unfold getNextProcess
  cases h0 : s.q 0 with
  | cons p rest => exact Or.inr ⟨0, p, rest, by simp, h0, rfl⟩
  | nil =>
    cases h1 : s.q 1 with
    | cons p rest =>
      refine Or.inr ⟨1, p, rest, fun k hk => ?_, h1, rfl⟩
      obtain rfl : k = 0 := by omega
      exact h0
    | nil =>
      cases h2 : s.q 2 with
      | cons p rest =>
        refine Or.inr ⟨2, p, rest, fun k hk => ?_, h2, rfl⟩
        obtain rfl | rfl : k = 0 ∨ k = 1 := by omega
        · exact h0
        · exact h1
      | nil =>
        refine Or.inl ⟨fun l => ?_, rfl⟩
        fin_cases l
        · exact h0
        · exact h1
        · exact h2

/-! ### What a defined command does -/

/-- The effect of a command on the places where processes are. -/
inductive Effect (s : System) : Command → System → Prop
  /-- A new process on an idle CPU. -/
  | load (mem : Memory) : s.c.currentProcess = none →
      mem.processCounter = uint32 (s.mem.processCounter + 1) →
      Effect s .A { s with mem := mem, c := ⟨some ⟨s.nextPid, 0, 0⟩⟩ }
  /-- A new process behind the running one. -/
  | wait (mem : Memory) (p : Process) : s.c.currentProcess = some p →
      mem.processCounter = uint32 (s.mem.processCounter + 1) →
      Effect s .A { s with mem := mem, q := s.q.push 0 ⟨s.nextPid, 0, 0⟩ }
  | pass : Effect s .Q { s with c := s.c.passQuantum }
  /-- The process that was terminated keeps the CPU. -/
  | finish (p : Process) : s.c.currentProcess = some p →
      Effect s .t { s with mem := s.mem.terminate p.pid }
  /-- The running process goes to a disk, and the next one is dispatched. -/
  | send (n : ℤ) (filename : Text) (p : Process) (disk : HardDisk) :
      s.c.currentProcess = some p → s.hd[uint32 n]? = some disk →
      Effect s (.d n filename) (s.withDisk (uint32 n) (disk.addProcess p filename)
        ⟨s.q.getNextProcess.1⟩ s.q.getNextProcess.2)
  /-- The first process of a disk goes to its ready queue. -/
  | back (n : ℤ) (e : HardDiskEntry) (rest : List HardDiskEntry) :
      s.hd[uint32 n]? = some ⟨e :: rest⟩ →
      Effect s (.D n) (s.withDisk (uint32 n) ⟨rest⟩ s.c (s.q.push (level e.p.quantum) e.p))
  | access (n : ℤ) (mem : Memory) (p : Process) : s.c.currentProcess = some p →
      mem.processCounter = s.mem.processCounter →
      Effect s (.m n) { s with mem := mem }
  | idle (c : Command) : s.Idle c → Effect s c s

namespace System

variable {s s' : System}

theorem processCounter_setEntry {m m' : Memory} {i : ℤ} {e : PageEntry}
    (h : m.setEntry i e = some m') : m'.processCounter = m.processCounter := by
  unfold Memory.setEntry at h
  split_ifs at h
  obtain rfl := Option.some.inj h
  rfl

theorem processCounter_modifyEntry {m m' : Memory} {i : ℤ} {f : PageEntry → PageEntry}
    (h : m.modifyEntry i f = some m') : m'.processCounter = m.processCounter := by
  unfold Memory.modifyEntry at h
  split_ifs at h
  obtain ⟨e, -, h⟩ := Option.bind_eq_some_iff.mp h
  exact processCounter_setEntry h

theorem processCounter_accessAddress {m m' : Memory} {p : Option Process} {num : ℤ}
    (h : m.accessAddress p num = some m') : m'.processCounter = m.processCounter := by
  cases p with
  | none =>
    obtain rfl := Option.some.inj h
    rfl
  | some p =>
    simp only [Memory.accessAddress] at h
    split_ifs at h
    split at h
    · exact processCounter_modifyEntry (m := { m with timeSlice := int32 (m.timeSlice + 1) }) h
    · split_ifs at h
      · exact processCounter_setEntry (m := { m with timeSlice := int32 (m.timeSlice + 1) }) h
      · exact processCounter_modifyEntry (m := { m with timeSlice := int32 (m.timeSlice + 1) }) h

theorem effect_A (h : s.step .A = some s') : Effect s .A s' := by
  obtain ⟨⟨mem, cpu, q⟩, hr, rfl⟩ := Option.map_eq_some_iff.mp h
  obtain ⟨m', hset, heq⟩ := Option.map_eq_some_iff.mp hr
  obtain ⟨rfl, hplace⟩ := Prod.mk.inj heq
  have hcount : m'.processCounter = uint32 (s.mem.processCounter + 1) :=
    processCounter_setEntry hset
  cases hc : s.c.currentProcess with
  | none =>
    obtain ⟨rfl, rfl⟩ : cpu = ⟨some ⟨s.nextPid, 0, 0⟩⟩ ∧ q = s.q := by
      simpa [CPU.place, CPU.getCurrent, hc, CPU.loadProcess, CPU.sendToQueues,
        Schedule.addToQueues, Process.new, nextPid, eq_comm] using hplace
    exact .load m' hc hcount
  | some p =>
    obtain ⟨rfl, rfl⟩ : cpu = s.c ∧ q = s.q.push 0 ⟨s.nextPid, 0, 0⟩ := by
      simpa [CPU.place, CPU.getCurrent, hc, Schedule.addToQueues, Process.new, nextPid,
        eq_comm] using hplace
    exact .wait m' p hc hcount

theorem effect_d {n : ℤ} {filename : Text} (h : s.step (.d n filename) = some s') :
    Effect s (.d n filename) s' := by
  simp only [step] at h
  split_ifs at h with hn
  · obtain rfl := Option.some.inj h
    exact .idle _ (Or.inl hn)
  · obtain ⟨disk, hdisk, rfl⟩ := Option.map_eq_some_iff.mp h
    cases hc : s.c.currentProcess with
    | none =>
      -- the disk is written back as it was
      obtain ⟨hlt, hget⟩ := List.getElem?_eq_some_iff.mp hdisk
      have hset : s.hd.set (uint32 n) disk = s.hd := by
        rw [← hget, List.set_getElem_self]
      simp only [CPU.sendToDisk, hc, withDisk, hset]
      exact .idle _ (Or.inr hc)
    | some p =>
      simp only [CPU.sendToDisk, hc]
      exact .send n filename p disk hc hdisk

theorem effect_D {n : ℤ} (h : s.step (.D n) = some s') : Effect s (.D n) s' := by
  simp only [step] at h
  split_ifs at h with hn
  · obtain rfl := Option.some.inj h
    exact .idle _ hn
  · obtain ⟨disk, hdisk, h⟩ := Option.bind_eq_some_iff.mp h
    obtain ⟨r, hr, rfl⟩ := Option.map_eq_some_iff.mp h
    obtain ⟨hd⟩ := disk
    cases hd with
    | nil => cases hr
    | cons e rest =>
      obtain rfl := Option.some.inj hr
      rw [Schedule.addToQueues_some]
      exact .back n e rest hdisk

theorem effect_m {n : ℤ} (h : s.step (.m n) = some s') : Effect s (.m n) s' := by
  obtain ⟨mem, hmem, rfl⟩ := Option.map_eq_some_iff.mp h
  unfold CPU.accessAddress at hmem
  cases hc : s.c.currentProcess with
  | none =>
    obtain rfl : s.mem = mem := by simpa [hc] using hmem
    exact .idle _ hc
  | some p =>
    rw [hc] at hmem
    exact .access n mem p hc (processCounter_accessAddress hmem)

/-- Every step that is defined has its effect. -/
theorem step_effect {c : Command} (h : s.step c = some s') : Effect s c s' := by
  cases c with
  | A => exact effect_A h
  | Q =>
    obtain rfl := Option.some.inj h
    exact .pass
  | t =>
    obtain ⟨mem, hmem, rfl⟩ := Option.map_eq_some_iff.mp h
    obtain ⟨p, hp, rfl⟩ := Option.map_eq_some_iff.mp hmem
    exact .finish p hp
  | d n filename => exact effect_d h
  | D n => exact effect_D h
  | m n => exact effect_m h
  | S flag =>
    obtain rfl := Option.some.inj h
    exact .idle _ trivial

end System

end SchoolProjects.Paging
