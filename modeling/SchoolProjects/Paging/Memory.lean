import SchoolProjects.Lib.MachineInt

/-! The paged memory of the second OS simulator (`Memory.cpp`), with what it uses
of `Schedule.cpp` and `CPU.cpp`. A process is passed by value: the CPU, a queue or
a disk holds it, one at a time. Printing is left out. `none` as a result stands for
undefined behaviour: a division by zero, an index outside the page table, or an
overflow of a loop counter. -/

namespace SchoolProjects.Paging

structure Process where
  pid : ℤ
  state : ℤ
  quantum : ℤ
deriving DecidableEq, Repr

/-- `Process(int p, int s, int q)`; the last argument is not used. -/
def Process.new (p s _q : ℤ) : Process := ⟨p, s, 0⟩

/-- The three ready queues of `Schedule`. -/
structure Schedule where
  q : Fin 3 → List Process

namespace Schedule

def new : Schedule := ⟨fun _ => []⟩

def push (s : Schedule) (level : Fin 3) (p : Process) : Schedule :=
  ⟨Function.update s.q level (s.q level ++ [p])⟩

def addToQueues (s : Schedule) : Option Process → Schedule
  | none => s
  | some p =>
    if p.quantum = 0 then s.push 0 p
    else if p.quantum = 1 ∨ p.quantum = 2 then s.push 1 p
    else s.push 2 p

end Schedule

structure CPU where
  currentProcess : Option Process

namespace CPU

def new : CPU := ⟨none⟩

def getCurrent (c : CPU) : Option Process := c.currentProcess

def sendToQueues (c : CPU) (q : Schedule) : CPU × Schedule :=
  (⟨none⟩, q.addToQueues c.currentProcess)

def loadProcess (c : CPU) (temp : Process) (q : Schedule) : CPU × Schedule :=
  (⟨some temp⟩, (c.sendToQueues q).2)

/-- Where `createNewProcess` puts the new process. -/
def place (c : CPU) (temp : Process) (q : Schedule) : CPU × Schedule :=
  match c.getCurrent with
  | none => c.loadProcess temp q
  | some _ => (c, q.addToQueues temp)

end CPU

structure PageEntry where
  page : ℤ
  pid : ℤ
  timeSlice : ℤ
deriving DecidableEq, Repr

/-- `Memory`; an entry of the table is a pointer, `none` being null. -/
structure Memory where
  processCounter : ℕ
  size : ℕ
  pageSize : ℕ
  numOfFrames : ℕ
  pageTable : List (Option PageEntry)
  timeSlice : ℤ
deriving DecidableEq, Repr

namespace Memory

/-- `Memory(unsigned int s, unsigned int ps)`; the loop counter over the frames is
an `int`. -/
def new (s ps : ℕ) : Option Memory :=
  if ps = 0 ∨ 2 ^ 31 ≤ s / ps then none
  else some ⟨0, s, ps, s / ps, List.replicate (s / ps) (some ⟨-1, -1, -1⟩), 0⟩

/-- `pageTable[i] = e`. -/
def setEntry (m : Memory) (i : ℤ) (e : PageEntry) : Option Memory :=
  if 0 ≤ i ∧ i < m.pageTable.length then
    some { m with pageTable := m.pageTable.set i.toNat (some e) }
  else none

/-- Assignments through `pageTable[i]`. -/
def modifyEntry (m : Memory) (i : ℤ) (f : PageEntry → PageEntry) : Option Memory :=
  if 0 ≤ i then
    (m.pageTable[i.toNat]?.join).bind fun e => m.setEntry i (f e)
  else none

/-- The loop of `leastUsedFrame` from frame `i` on. -/
def leastUsedFrom : List (Option PageEntry) → ℕ → ℤ → ℤ → ℤ
  | [], _, _, index => index
  | none :: _, i, _, _ => i
  | some e :: rest, i, min, index =>
    if e.timeSlice < min then leastUsedFrom rest (i + 1) e.timeSlice i
    else leastUsedFrom rest (i + 1) min index

def leastUsedFrame (m : Memory) : ℤ := leastUsedFrom m.pageTable 0 (2 ^ 31 - 1) (-1)

def createNewProcess (m : Memory) (c : CPU) (q : Schedule) :
    Option (Memory × CPU × Schedule) :=
  let m := { m with
    processCounter := uint32 (m.processCounter + 1)
    timeSlice := int32 (m.timeSlice + 1) }
  let temp := Process.new (int32 m.processCounter) 0 m.timeSlice
  (m.setEntry m.leastUsedFrame ⟨0, int32 m.processCounter, m.timeSlice⟩).map fun m =>
    (m, c.place temp q)

def terminate (m : Memory) (pid : ℤ) : Memory :=
  { m with pageTable := m.pageTable.map fun x =>
      x.map fun e => if e.pid = pid then ⟨-1, -1, -1⟩ else e }

def isFree : Option PageEntry → Bool
  | none => true
  | some e => e.timeSlice == -1

def holds (pid page : ℤ) : Option PageEntry → Bool
  | none => false
  | some e => pid == e.pid && page == e.page

/-- The loop of `accessAddress` from frame `i` on: the frame that holds the page, or
`index` after the last frame. -/
def findPage (pid page : ℤ) : List (Option PageEntry) → ℕ → ℤ → ℕ ⊕ ℤ
  | [], _, index => .inr index
  | x :: rest, i, index =>
    let index := if isFree x ∧ index ≠ -1 then (i : ℤ) else index
    if holds pid page x then .inl i else findPage pid page rest (i + 1) index

/-- `num / pageSize`: the address is converted to `unsigned`, the quotient back to
`int`. -/
def pageOf (m : Memory) (num : ℤ) : ℤ := int32 (uint32 num / m.pageSize : ℕ)

def accessAddress (m : Memory) (p : Option Process) (num : ℤ) : Option Memory :=
  match p with
  | none => some m
  | some p =>
    if m.pageSize = 0 then none
    else
      let page := m.pageOf num
      let m := { m with timeSlice := int32 (m.timeSlice + 1) }
      match findPage p.pid page m.pageTable 0 (-1) with
      | .inl i => m.modifyEntry i fun e => { e with timeSlice := m.timeSlice }
      | .inr index =>
        if index ≠ -1 then m.setEntry index ⟨page, p.pid, m.timeSlice⟩
        else m.modifyEntry m.leastUsedFrame fun _ => ⟨page, p.pid, m.timeSlice⟩

end Memory

end SchoolProjects.Paging
