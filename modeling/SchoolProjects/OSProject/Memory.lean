import SchoolProjects.Lib.LinkedChain
import SchoolProjects.Lib.MachineInt
import SchoolProjects.OSProject.SchedulerInvariant

/-! The memory of the OS simulator (`Memory.h`, `Memory.cpp`): blocks are heap
nodes, processes and holes alike, chained by `prev` and `next`. A result `none`
is undefined behaviour (a null or freed block is read or written) or a walk along
`next` that does not end. Stores into the `unsigned` fields convert as in the
source. -/

namespace SchoolProjects.OSProject

/-- `struct Process`; `end_` is the field `end`. -/
structure Process where
  processNumber : ℤ
  priority : ℤ
  start : ℕ
  end_ : ℕ
  size : ℕ
  prev : Option ℕ
  next : Option ℕ
  empty : Bool
  deriving DecidableEq

namespace Process

/-- `p->prev = a`. -/
def setPrev (p : Process) (a : Option ℕ) : Process := { p with prev := a }

/-- `p->next = a`. -/
def setNext (p : Process) (a : Option ℕ) : Process := { p with next := a }

/-- The stores of `insert` into a hole that is larger than the request. -/
def shrink (p : Process) (nEnd : ℤ) (size temp : ℕ) : Process :=
  { p with start := uint32 (nEnd + 1), size := uint32 (p.size - size), prev := some temp }

/-- The stores of `deleteProcess` into a finished process. -/
def release (p : Process) : Process :=
  { p with processNumber := -1, priority := -1, empty := true }

/-- The stores of `deleteProcess` into the hole before `cur`. -/
def growRight (p cur : Process) : Process :=
  { p with end_ := cur.end_, size := uint32 (p.size + cur.size), next := cur.next }

/-- The stores of `deleteProcess` into the hole after `cur`. -/
def growLeft (p cur : Process) : Process :=
  { p with start := cur.start, size := uint32 (p.size + cur.size), prev := cur.prev }

end Process

/-- `Memory`, with its static members and the heap its blocks live in. -/
structure Memory where
  heap : Heap Process
  maxVal : ℕ
  numOfProcesses : ℤ
  root : ℕ

namespace Memory

/-- `Memory(int m)`. -/
def new (m : ℤ) : Memory :=
  let block : Process := ⟨-1, 0, 0, uint32 (m - 1), uint32 (m - 0), none, none, true⟩
  ⟨Heap.empty.alloc block, uint32 m, 1, Heap.empty.fresh (α := Process)⟩

/-- The search of `insert`, from `currptr` along `next`: the first hole that holds
`size` bytes and is not the last block (`true`), or else the last block (`false`). -/
def findSpot (h : Heap Process) (size : ℕ) : ℕ → ℕ → Option (ℕ × Bool)
  | 0, _ => none
  | fuel + 1, currptr => do
    let cur ← h.read currptr
    match cur.next with
    | none => return (currptr, false)
    | some next =>
      if cur.empty ∧ size ≤ cur.size then return (currptr, true) else findSpot h size fuel next

/-- The inner test of `insert`: what is left of the hole follows the new process, or
the process takes the place of the hole. -/
def linkSpot (heap : Heap Process) (cur : Process) (nEnd : ℤ) (size currptr temp : ℕ) :
    Option (Heap Process) :=
  if size < cur.size then heap.modify currptr fun c => c.shrink nEnd size temp
  else heap.modify temp fun t => t.setNext cur.next

/-- The body of `insert` once a hole is found; the source has it twice. -/
def takeSpot (m : Memory) (priority : ℤ) (size currptr : ℕ) : Option (Memory × ℕ) := do
  let cur ← m.heap.read currptr
  let nStart := int32 cur.start
  let nEnd := int32 (uint32 (nStart + size - 1))
  let temp := m.heap.fresh
  let heap := m.heap.alloc ⟨m.numOfProcesses, priority, uint32 nStart, uint32 nEnd, size,
    cur.prev, some currptr, false⟩
  let heap ← linkSpot heap cur nEnd size currptr temp
  let numOfProcesses := int32 (m.numOfProcesses + 1)
  if nStart = 0 then
    return ({ m with heap := heap, root := temp, numOfProcesses := numOfProcesses }, temp)
  else
    let prev ← cur.prev
    let heap ← heap.modify prev fun p => p.setNext (some temp)
    return ({ m with heap := heap, numOfProcesses := numOfProcesses }, temp)

/-- `insert`: the memory afterwards and the process handed to
`ReadyQueue::addProcess`, if a spot was found. -/
def insert (m : Memory) (priority : ℤ) (size : ℕ) : Option (Memory × Option ℕ) := do
  let priority := clampPriority priority
  let (currptr, found) ← findSpot m.heap size (m.heap.fresh + 1) m.root
  if found then
    let (m, temp) ← takeSpot m priority size currptr
    return (m, some temp)
  else
    let cur ← m.heap.read currptr
    if cur.empty ∧ size ≤ cur.size then
      let (m, temp) ← takeSpot m priority size currptr
      return (m, some temp)
    else return (m, none)

/-- `if (p != nullptr)`, an assignment through `p`. -/
def store (heap : Heap Process) (p : Option ℕ) (f : Process → Process) : Option (Heap Process) :=
  match p with
  | none => some heap
  | some p => heap.modify p f

/-- First half of `deleteProcess`: a hole before the block takes it over. -/
def mergePrev (heap : Heap Process) (toDel : ℕ) : Option (Heap Process × ℕ) := do
  let cur ← heap.read toDel
  match cur.prev with
  | none => return (heap, toDel)
  | some prev =>
    let p ← heap.read prev
    if p.empty then
      let heap ← heap.modify prev fun p => p.growRight cur
      let heap ← store heap cur.next fun p => p.setPrev (some prev)
      let heap ← heap.free toDel
      return (heap, prev)
    else return (heap, toDel)

/-- Second half of `deleteProcess`: a hole after the block takes it over, and
becomes the root when it spans the whole memory. -/
def mergeNext (m : Memory) (currptr : ℕ) : Option Memory := do
  let cur ← m.heap.read currptr
  match cur.next with
  | none => return m
  | some next =>
    let n ← m.heap.read next
    if n.empty then
      let heap ← m.heap.modify next fun n => n.growLeft cur
      let heap ← store heap cur.prev fun p => p.setNext (some next)
      let n ← heap.read next
      let heap ← heap.free currptr
      return { m with heap := heap, root := if m.maxVal ≤ n.size then next else m.root }
    else return m

def deleteProcess (m : Memory) (toDel : ℕ) : Option Memory := do
  let heap ← m.heap.modify toDel Process.release
  let (heap, currptr) ← mergePrev heap toDel
  mergeNext { m with heap := heap } currptr

/-- The field `p->priority` as the scheduler reads it. -/
def prio (m : Memory) (p : ℕ) : Option ℤ := (m.heap.read p).map Process.priority

end Memory

end SchoolProjects.OSProject
