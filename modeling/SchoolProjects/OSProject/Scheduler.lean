import SchoolProjects.Lib.QueueBank

/-! The ready queues, the CPU and the I/O devices of the OS simulator
(`ReadyQueue.cpp`, `CPU.cpp`, `IODevice.cpp`). A process is named by its heap
location; `prio p` is the field `p->priority`, `none` when `p` is not allocated.
Printing is left out. `none` as a result stands for undefined behaviour: a freed
process read, or a queue index outside its array. -/

namespace SchoolProjects.OSProject

/-- `CPU::currentProcess` and the five queues `ReadyQueue::rQ`. -/
structure Sched where
  currentProcess : Option ℕ
  rQ : QueueBank ℕ

/-- `IODevice`: `size` is the length of the array `container` points to. -/
structure IODevice where
  type : String
  size : ℤ
  container : QueueBank ℕ
  size_eq : size = container.length

/-- `IODevice(int s, string t)`; a negative `s` throws in `new`. -/
def IODevice.new (s : ℕ) (t : String) : IODevice :=
  ⟨t, s, List.replicate s [], by simp⟩

def Sched.start : Sched := ⟨none, List.replicate 5 []⟩

variable (prio : ℕ → Option ℤ)

namespace CPU

def currentPriority (s : Sched) : Option ℤ :=
  match s.currentProcess with
  | some p => prio p
  | none => some (-1)

end CPU

-- `ReadyQueue::addProcess` and `CPU::contextSwitch` call each other; the first
-- argument bounds the depth of the calls.
mutual

def ReadyQueue.addProcessRec : ℕ → Sched → ℕ → Option Sched
  | 0, _, _ => none
  | depth + 1, s, p => do
    let priority ← prio p
    let current ← CPU.currentPriority prio s
    if current < priority then
      CPU.contextSwitchRec depth s p
    else
      let rQ ← s.rQ.push priority p
      return { s with rQ := rQ }

def CPU.contextSwitchRec : ℕ → Sched → ℕ → Option Sched
  | 0, _, _ => none
  | depth + 1, s, otherProcess => do
    let s ← match s.currentProcess with
      | some p => ReadyQueue.addProcessRec depth s p
      | none => some s
    return { s with currentProcess := some otherProcess }

end

/-- `ReadyQueue::addProcess`: the calls nest at most three deep
(`addProcessRec_depth`). -/
def ReadyQueue.addProcess (s : Sched) (p : ℕ) : Option Sched :=
  ReadyQueue.addProcessRec prio 3 s p

/-- The loop of `chooseNewProcess` over the queues below `i`, highest first. -/
def ReadyQueue.chooseBelow : ℕ → QueueBank ℕ → Option ℕ × QueueBank ℕ
  | 0, rQ => (none, rQ)
  | i + 1, rQ =>
    match rQ.pop i with
    | some (temp, rQ') => (some temp, rQ')
    | none => chooseBelow i rQ

def ReadyQueue.chooseNewProcess (rQ : QueueBank ℕ) : Option ℕ × QueueBank ℕ :=
  ReadyQueue.chooseBelow 5 rQ

/-- `currentProcess = ReadyQueue::chooseNewProcess()`. -/
def CPU.loadNewProcess (s : Sched) : Sched :=
  ⟨(ReadyQueue.chooseNewProcess s.rQ).1, (ReadyQueue.chooseNewProcess s.rQ).2⟩

namespace IODevice

/-- The device after a push or a pop on one of its queues. -/
def setContainer (dev : IODevice) (c : QueueBank ℕ) (h : c.length = dev.container.length) :
    IODevice :=
  ⟨dev.type, dev.size, c, by rw [h]; exact dev.size_eq⟩

def addProcess (dev : IODevice) (i : ℤ) (toAdd : ℕ) : Option IODevice :=
  match h : dev.container.push i toAdd with
  | some c => some (dev.setContainer c (QueueBank.push_length h))
  | none => none

/-- `releaseProcess`: the front process of queue `i`, if any, goes back to the
ready queues. -/
def releaseProcess (dev : IODevice) (i : ℤ) (s : Sched) : Option (IODevice × Sched) :=
  match dev.container.queue i with
  | none => none
  | some [] => some (dev, s)
  | some (_ :: _) =>
    match h : dev.container.pop i with
    | none => none
    | some (temp, c) =>
      (ReadyQueue.addProcess prio s temp).map fun s =>
        (dev.setContainer c (QueueBank.pop_length h), s)

end IODevice

/-- `CPU::sendToDevice`: the index is brought into the range of the device. -/
def CPU.sendToDevice (i : ℤ) (dev : IODevice) (s : Sched) : Option (IODevice × Sched) :=
  let i := if i < 0 then 0 else if dev.size - 1 < i then dev.size - 1 else i
  match s.currentProcess with
  | none => some (dev, s)
  | some p => (dev.addProcess i p).map fun dev => (dev, CPU.loadNewProcess s)

/-! ### What the operations do -/

variable {prio}

section AddProcess

variable {s : Sched} {p c : ℕ} {pr pc : ℤ}

/-- An idle CPU takes the process at once. -/
theorem addProcess_idle (hc : s.currentProcess = none) (hp : prio p = some pr) (h0 : 0 ≤ pr) :
    ReadyQueue.addProcess prio s p = some { s with currentProcess := some p } := by
  have hlt : (-1 : ℤ) < pr := by omega
  simp [ReadyQueue.addProcess, ReadyQueue.addProcessRec, CPU.contextSwitchRec,
    CPU.currentPriority, hc, hp, hlt]

/-- A process of lower or equal priority waits in its queue. -/
theorem addProcess_wait (hc : s.currentProcess = some c) (hpc : prio c = some pc)
    (hp : prio p = some pr) (hle : pr ≤ pc) :
    ReadyQueue.addProcess prio s p = (s.rQ.push pr p).map fun rQ => { s with rQ := rQ } := by
  simp [ReadyQueue.addProcess, ReadyQueue.addProcessRec, CPU.currentPriority, hc, hp, hpc,
    not_lt.mpr hle, Option.map_eq_bind]

/-- A process of higher priority takes the CPU; the old one waits in its queue. -/
theorem addProcess_preempt (hc : s.currentProcess = some c) (hpc : prio c = some pc)
    (hp : prio p = some pr) (hlt : pc < pr) :
    ReadyQueue.addProcess prio s p =
      (s.rQ.push pc c).map fun rQ => ⟨some p, rQ⟩ := by
  simp [ReadyQueue.addProcess, ReadyQueue.addProcessRec, CPU.contextSwitchRec,
    CPU.currentPriority, hc, hp, hpc, hlt, Option.map_eq_bind, Option.bind_assoc]

/-- The bound on the depth of the calls is never reached. -/
theorem addProcessRec_depth (s : Sched) (p n : ℕ) :
    ReadyQueue.addProcessRec prio (n + 3) s p = ReadyQueue.addProcess prio s p := by
  simp only [ReadyQueue.addProcess, ReadyQueue.addProcessRec, CPU.contextSwitchRec,
    CPU.currentPriority]
  cases s.currentProcess with
  | none => rfl
  | some c =>
    -- the inner call adds the running process, whose priority is not above itself
    cases hc : prio c <;> simp [hc]

end AddProcess

namespace IODevice

variable {dev : IODevice} {i : ℤ} {p : ℕ} {c : QueueBank ℕ} {s : Sched}

@[simp] theorem setContainer_size (h : c.length = dev.container.length) :
    (dev.setContainer c h).size = dev.size := rfl

@[simp] theorem setContainer_container (h : c.length = dev.container.length) :
    (dev.setContainer c h).container = c := rfl

theorem addProcess_eq (h : dev.container.push i p = some c) :
    dev.addProcess i p = some (dev.setContainer c (QueueBank.push_length h)) := by
  unfold addProcess
  split
  · next c' h' =>
    obtain rfl : c' = c := by simpa [h] using h'.symm
    rfl
  · next h' => rw [h] at h'; cases h'

theorem releaseProcess_empty (h : dev.container.queue i = some []) :
    dev.releaseProcess prio i s = some (dev, s) := by
  simp [releaseProcess, h]

theorem releaseProcess_queue {r : IODevice × Sched} (h : dev.releaseProcess prio i s = some r) :
    ∃ q, dev.container.queue i = some q := by
  cases hq : dev.container.queue i with
  | none => simp [releaseProcess, hq] at h
  | some q => exact ⟨q, rfl⟩

theorem releaseProcess_eq (h : dev.container.pop i = some (p, c)) :
    dev.releaseProcess prio i s = (ReadyQueue.addProcess prio s p).map fun s =>
      (dev.setContainer c (QueueBank.pop_length h), s) := by
  obtain ⟨q, hq, -⟩ := QueueBank.pop_eq_some.mp h
  simp only [releaseProcess, hq]
  split
  · next h' => rw [h] at h'; cases h'
  · next p' c' h' =>
    rw [h] at h'
    obtain ⟨rfl, rfl⟩ : p = p' ∧ c = c' := by simpa using h'
    rfl

end IODevice

/-- The process chosen comes from the highest queue that is not empty. -/
theorem chooseBelow_cases (n : ℕ) (rQ : QueueBank ℕ) :
    (ReadyQueue.chooseBelow n rQ = (none, rQ) ∧ ∀ k < n, rQ.pop k = none) ∨
      ∃ i < n, ∃ p rQ', rQ.pop i = some (p, rQ') ∧
        ReadyQueue.chooseBelow n rQ = (some p, rQ') ∧ ∀ k, i < k → k < n → rQ.pop k = none := by
  induction n with
  | zero => exact Or.inl ⟨rfl, by omega⟩
  | succ n ih =>
    unfold ReadyQueue.chooseBelow
    cases hpop : rQ.pop n with
    | some pq =>
      obtain ⟨p, rQ'⟩ := pq
      exact Or.inr ⟨n, by omega, p, rQ', hpop, rfl, by omega⟩
    | none =>
      rcases ih with ⟨he, hk⟩ | ⟨i, hi, p, rQ', hp, he, hk⟩
      · refine Or.inl ⟨he, fun k hkn => ?_⟩
        rcases Nat.lt_succ_iff_lt_or_eq.mp hkn with h | rfl
        · exact hk k h
        · exact hpop
      · refine Or.inr ⟨i, by omega, p, rQ', hp, he, fun k hik hkn => ?_⟩
        rcases Nat.lt_succ_iff_lt_or_eq.mp hkn with h | rfl
        · exact hk k hik h
        · exact hpop

theorem pop_eq_none {rQ : QueueBank ℕ} {k : ℕ} {q : List ℕ} (h : rQ.pop k = none)
    (hq : rQ[k]? = some q) : q = [] := by
  unfold QueueBank.pop at h
  rw [QueueBank.queue_natCast, hq] at h
  cases q with
  | nil => rfl
  | cons x q => simp at h

end SchoolProjects.OSProject
