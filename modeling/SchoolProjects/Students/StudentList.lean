import SchoolProjects.Lib.LinkedQueue
import SchoolProjects.Lib.Text
import SchoolProjects.Lib.Transition

/-! The list of students and their grades (`student.h`, `StudentLinkedList.h`), which is singly
linked with the newest student first. A result `none` is the use of a null or dangling pointer,
or a loop that does not end. -/

namespace SchoolProjects.Students

open Text LinkedQueue Transition

/-- `class Student`. -/
structure Student where
  name : Text := ascii "null"
  grade : ℤ := 0
  next : Option ℕ := none

namespace Student

def setNext (s : Student) (n : Option ℕ) : Student := { s with next := n }

def setGrade (s : Student) (g : ℤ) : Student := { s with grade := g }

end Student

/-- `class StudentLinkedList`, with the heap its nodes live in. -/
structure StudentLinkedList where
  heap : Heap Student
  root : Option ℕ

namespace StudentLinkedList

def empty : StudentLinkedList := ⟨.empty, none⟩

/-- `add`, with what it prints. -/
def add (l : StudentLinkedList) (name : Text) (grade : ℤ) : Option (StudentLinkedList × Text) :=
  let stud := l.heap.fresh
  let heap := l.heap.alloc { name := name, grade := grade }
  match l.root with
  | none => some (⟨heap, some stud⟩, name ++ ascii " added")
  | some root => do
    let heap ← heap.modify stud fun s => s.setNext (some root)
    return (⟨heap, some stud⟩, name ++ ascii " added")

/-- The loop of `remove`, at most `fuel` rounds of it. -/
def removeLoop (name : Text) : ℕ → Heap Student → ℕ → Option ℕ → Option (Heap Student)
  | 0, _, _, _ => none
  | _ + 1, heap, _, none => some heap
  | fuel + 1, heap, prevPtr, some nextPtr => do
    let s ← heap.read nextPtr
    if s.name = name then
      let heap ← heap.modify prevPtr fun p => p.setNext s.next
      heap.free nextPtr
    else removeLoop name fuel heap nextPtr s.next

def remove (l : StudentLinkedList) (name : Text) : Option (StudentLinkedList × Text) := do
  let prevPtr ← l.root
  let first ← l.heap.read prevPtr
  if first.name = name then
    let heap ← l.heap.free prevPtr
    return (⟨heap, first.next⟩, ascii "Done.\n")
  let heap ← removeLoop name (l.heap.fresh + 1) l.heap prevPtr first.next
  return ({ l with heap := heap }, ascii "Done.\n")

/-- The loop of `update` and of `search`: the first node with the name, if there is one. -/
def locate (heap : Heap Student) (name : Text) : ℕ → Option ℕ → Option (Option ℕ)
  | 0, _ => none
  | _ + 1, none => some none
  | fuel + 1, some currPtr => do
    let s ← heap.read currPtr
    if s.name = name then return some currPtr
    locate heap name fuel s.next

def update (l : StudentLinkedList) (name : Text) (grade : ℤ) :
    Option (StudentLinkedList × Text) := do
  match ← locate l.heap name (l.heap.fresh + 1) l.root with
  | some currPtr =>
    let heap ← l.heap.modify currPtr fun s => s.setGrade grade
    return ({ l with heap := heap }, ascii "Updated " ++ name)
  | none => return (l, ascii "Student not found\n")

def search (l : StudentLinkedList) (name : Text) : Option (StudentLinkedList × Text) := do
  match ← locate l.heap name (l.heap.fresh + 1) l.root with
  | some currPtr =>
    let s ← l.heap.read currPtr
    return (l, ascii "Student name : " ++ s.name ++ ascii "\nGrade : " ++ format 0 s.grade ++
      ascii "\n")
  | none => return (l, ascii "Student not found\n")

end StudentLinkedList

/-- The calls of a client. -/
inductive Call
  | add (name : Text) (grade : ℤ)
  | remove (name : Text)
  | update (name : Text) (grade : ℤ)
  | search (name : Text)

def StudentLinkedList.call (l : StudentLinkedList) : Call → Option (StudentLinkedList × Text)
  | .add name grade => l.add name grade
  | .remove name => l.remove name
  | .update name grade => l.update name grade
  | .search name => l.search name

/-- A list, and what the calls so far have printed. -/
abbrev Session := StudentLinkedList × List Text

def step (s : Session) (c : Call) : Option Session :=
  (s.1.call c).map fun r => (r.1, s.2 ++ [r.2])

/-! ### Lists of records -/

structure Record where
  name : Text
  grade : ℤ
  deriving DecidableEq

namespace Call

/-- The records after a call, newest first. -/
def apply (rs : List Record) : Call → List Record
  | .add name grade => ⟨name, grade⟩ :: rs
  | .remove name => rs.eraseP fun r => r.name = name
  | .update name grade =>
    rs.replaceF fun r => if r.name = name then some { r with grade := grade } else none
  | .search _ => rs

/-- What a call prints. -/
def reply (rs : List Record) : Call → Text
  | .add name _ => name ++ ascii " added"
  | .remove _ => ascii "Done.\n"
  | .update name _ =>
    match rs.find? fun r => r.name = name with
    | some _ => ascii "Updated " ++ name
    | none => ascii "Student not found\n"
  | .search name =>
    match rs.find? fun r => r.name = name with
    | some r => ascii "Student name : " ++ r.name ++ ascii "\nGrade : " ++ format 0 r.grade ++
        ascii "\n"
    | none => ascii "Student not found\n"

end Call

section Cons

variable {name : Text} {grade : ℤ} {r : Record} {rs : List Record}

theorem apply_remove_of_eq (h : r.name = name) : (Call.remove name).apply (r :: rs) = rs := by
  simp [Call.apply, h]

theorem apply_remove_of_ne (h : r.name ≠ name) :
    (Call.remove name).apply (r :: rs) = r :: (Call.remove name).apply rs := by
  simp [Call.apply, h]

theorem apply_update_of_eq (h : r.name = name) :
    (Call.update name grade).apply (r :: rs) = { r with grade := grade } :: rs := by
  simp [Call.apply, h]

theorem apply_update_of_ne (h : r.name ≠ name) :
    (Call.update name grade).apply (r :: rs) = r :: (Call.update name grade).apply rs := by
  simp [Call.apply, h]

end Cons

/-- The records and the replies after some calls. -/
def journal (calls : List Call) : List Record × List Text :=
  calls.foldl (fun s c => (c.apply s.1, s.2 ++ [c.reply s.1])) ([], [])

def Student.record (s : Student) : Record := ⟨s.name, s.grade⟩

/-- From the pointer `p` on the nodes `q` hold the records. -/
abbrev Records (h : Heap Student) (p : Option ℕ) (q : List ℕ) (rs : List Record) : Prop :=
  Holds Student.next Student.record h p q rs

/-- The list has the records. -/
def StudentLinkedList.Has (l : StudentLinkedList) (rs : List Record) : Prop :=
  ∃ q, q.Nodup ∧ Records l.heap l.root q rs

/-! ### The loops -/

namespace StudentLinkedList

variable {h h' : Heap Student} {p : Option ℕ} {q : List ℕ} {rs : List Record} {fuel : ℕ}

/-- The node at `b` is freed after `prev` is linked past it. -/
theorem unlink_spec {prev b : ℕ} {x s : Student} (hx : h.read prev = some x)
    (hs : h.read b = some s) (hne : b ≠ prev) (next : Option ℕ) :
    ∃ h', ((h.modify prev fun p => p.setNext next).bind fun heap => heap.free b) = some h' ∧
      h'.read prev = some (x.setNext next) ∧ ∀ a, a ≠ prev → a ≠ b → h'.read a = h.read a := by
  let h₁ := h.put prev (some (x.setNext next)) (Heap.lt_fresh hx)
  have hs₁ : h₁.read b = some s := by rw [Heap.read_put, if_neg hne, hs]
  refine ⟨h₁.put b none (Heap.lt_fresh hs₁), ?_, ?_, fun a hp hb => ?_⟩
  · rw [Heap.modify_of_read _ hx, Option.bind_some, Heap.free_of_read hs₁]
  · rw [Heap.read_put, if_neg hne.symm, Heap.read_put, if_pos rfl]
  · rw [Heap.read_put, if_neg hb, Heap.read_put, if_neg hp]

/-- The loop of `remove` takes the first node with the name out of the chain after `prev`. -/
theorem removeLoop_spec (name : Text) {prev : ℕ} {x : Student} (hx : h.read prev = some x)
    (hq : Records h x.next q rs) (hnd : (prev :: q).Nodup) (hfuel : q.length ≤ fuel) :
    ∃ h' q', removeLoop name (fuel + 1) h prev x.next = some h' ∧
      Records h' (some prev) (prev :: q') (x.record :: (Call.remove name).apply rs) ∧
      q'.Sublist q ∧ ∀ a ∉ prev :: q, h'.read a = h.read a := by
  induction q generalizing h prev x rs fuel with
  | nil =>
    obtain ⟨hp, rfl⟩ := holds_nil.mp hq
    exact ⟨h, [], by rw [hp]; rfl, hq.cons hx fun _ _ => rfl, .slnil, fun _ _ => rfl⟩
  | cons b q ih =>
    obtain ⟨hp, s, rs, hs, rfl, hsq⟩ := holds_cons.mp hq
    obtain ⟨fuel, rfl⟩ := Nat.exists_eq_add_one_of_ne_zero (Nat.ne_zero_of_lt hfuel)
    obtain ⟨hprev, hnd'⟩ := List.nodup_cons.mp hnd
    have hb : b ∉ q := (List.nodup_cons.mp hnd').1
    have hbp : b ≠ prev := ne_of_mem_of_not_mem List.mem_cons_self hprev
    by_cases hname : s.name = name
    · -- the records of `q` stay, and `prev` leads to them
      obtain ⟨h', hrun, hx', hframe⟩ := unlink_spec hx hs hbp s.next
      refine ⟨h', q, ?_, ?_, List.sublist_cons_self b q, fun a ha => ?_⟩
      · rw [hp]
        simpa [removeLoop, hs, hname] using hrun
      · rw [apply_remove_of_eq hname]
        refine hsq.cons (x := x.setNext s.next) hx' fun a ha => ?_
        exact hframe a (ne_of_mem_of_not_mem (List.mem_cons_of_mem b ha) hprev)
          (ne_of_mem_of_not_mem ha hb)
      · rw [List.mem_cons, List.mem_cons, not_or, not_or] at ha
        exact hframe a ha.1 ha.2.1
    · obtain ⟨h', q', hrun, hh', hsub, hframe⟩ :=
        ih hs hsq hnd' (Nat.le_of_succ_le_succ hfuel)
      refine ⟨h', b :: q', ?_, ?_, hsub.cons_cons b, fun a ha => ?_⟩
      · rw [hp]
        simpa [removeLoop, hs, hname] using hrun
      · rw [apply_remove_of_ne hname]
        rw [← hp] at hh'
        exact hh'.cons ((hframe prev hprev).trans hx) fun _ _ => rfl
      · exact hframe a fun hm => ha (List.mem_cons_of_mem prev hm)

/-- The loop of `update` and `search` ends at the node of the first record with the name, and a
new grade there changes that record. -/
theorem locate_cases (name : Text) (hq : Records h p q rs) (hnd : q.Nodup)
    (hfuel : q.length ≤ fuel) :
    (locate h name (fuel + 1) p = some none ∧ rs.find? (fun r => r.name = name) = none) ∨
      ∃ a s, locate h name (fuel + 1) p = some (some a) ∧ a ∈ q ∧ h.read a = some s ∧
        rs.find? (fun r => r.name = name) = some s.record ∧
        ∀ grade h', h'.read a = some (s.setGrade grade) → (∀ b ≠ a, h'.read b = h.read b) →
          Records h' p q ((Call.update name grade).apply rs) := by
  induction q generalizing p rs fuel with
  | nil =>
    obtain ⟨rfl, rfl⟩ := holds_nil.mp hq
    exact .inl ⟨rfl, rfl⟩
  | cons b q ih =>
    obtain ⟨rfl, s, rs, hs, rfl, hsq⟩ := holds_cons.mp hq
    obtain ⟨fuel, rfl⟩ := Nat.exists_eq_add_one_of_ne_zero (Nat.ne_zero_of_lt hfuel)
    obtain ⟨hb, hnd⟩ := List.nodup_cons.mp hnd
    by_cases hname : s.record.name = name
    · refine .inr ⟨b, s, ?_, List.mem_cons_self, hs, ?_, fun grade h' hset hframe => ?_⟩
      · simp [locate, hs, show s.name = name from hname]
      · rw [List.find?_cons_of_pos (by simpa using hname)]
      · rw [apply_update_of_eq hname]
        exact hsq.cons hset fun a ha => hframe a (ne_of_mem_of_not_mem ha hb)
    · have hloc : locate h name (fuel + 1 + 1) (some b) = locate h name (fuel + 1) s.next := by
        simp [locate, hs, show s.name ≠ name from hname]
      rw [hloc, List.find?_cons_of_neg (by simpa using hname)]
      refine (ih hsq hnd (Nat.le_of_succ_le_succ hfuel)).imp id ?_
      rintro ⟨a, t, hrun, ha, ht, hfind, hset⟩
      refine ⟨a, t, hrun, List.mem_cons_of_mem b ha, ht, hfind, fun grade h' hs' hframe => ?_⟩
      rw [apply_update_of_ne hname]
      have hkeep : h'.read b = some s := by rw [hframe b (ne_of_mem_of_not_mem ha hb).symm, hs]
      exact (hset grade h' hs' hframe).cons hkeep fun _ _ => rfl

/-! ### The calls -/

variable {l : StudentLinkedList}

theorem empty_has : empty.Has [] := ⟨[], List.nodup_nil, holds_nil.mpr ⟨rfl, rfl⟩⟩

theorem add_spec (hl : l.Has rs) (name : Text) (grade : ℤ) :
    ∃ l', l.add name grade = some (l', name ++ ascii " added") ∧ l'.Has (⟨name, grade⟩ :: rs) := by
  obtain ⟨q, hnd, hq⟩ := hl
  have hfresh : l.heap.fresh ∉ q := fun hm => by
    obtain ⟨s, hs⟩ := Option.isSome_iff_exists.mp (hq.1.read_isSome hm)
    exact Heap.ne_fresh hs rfl
  let s₀ : Student := { name := name, grade := grade }
  have hs₀ : (l.heap.alloc s₀).read l.heap.fresh = some s₀ := by rw [Heap.read_alloc, if_pos rfl]
  have hold : ∀ a ∈ q, (l.heap.alloc s₀).read a = l.heap.read a := fun a ha =>
    Heap.read_alloc_of_ne (ne_of_mem_of_not_mem ha hfresh)
  cases hroot : l.root with
  | none =>
    refine ⟨⟨l.heap.alloc s₀, some l.heap.fresh⟩, by simp [add, hroot, s₀], ?_⟩
    refine ⟨l.heap.fresh :: q, List.nodup_cons.mpr ⟨hfresh, hnd⟩, ?_⟩
    rw [hroot] at hq
    exact hq.cons hs₀ hold
  | some root =>
    refine ⟨⟨(l.heap.alloc s₀).put l.heap.fresh (some (s₀.setNext (some root)))
      (Heap.lt_fresh hs₀), some l.heap.fresh⟩, ?_, ?_⟩
    · simp only [add, hroot]
      rw [Heap.modify_of_read _ hs₀]
      rfl
    refine ⟨l.heap.fresh :: q, List.nodup_cons.mpr ⟨hfresh, hnd⟩, ?_⟩
    rw [hroot] at hq
    refine hq.cons (x := s₀.setNext (some root)) ?_ fun a ha => ?_
    · rw [Heap.read_put, if_pos rfl]
    · rw [Heap.read_put, if_neg (ne_of_mem_of_not_mem ha hfresh), hold a ha]

/-- Only a list with a first node survives `remove`. -/
theorem remove_empty (hl : l.Has []) (name : Text) : l.remove name = none := by
  obtain ⟨q, -, hq⟩ := hl
  have hroot : l.root = none := by
    cases q with
    | nil => exact hq.1
    | cons a q => simpa using hq.2
  rw [remove, hroot]
  rfl

theorem remove_spec (hl : l.Has rs) (hne : rs ≠ []) (name : Text) :
    ∃ l', l.remove name = some (l', ascii "Done.\n") ∧
      l'.Has ((Call.remove name).apply rs) := by
  obtain ⟨q, hnd, hq⟩ := hl
  have hfuel := hq.length_le hnd
  cases q with
  | nil => exact absurd (holds_nil.mp hq).2 hne
  | cons a q =>
    obtain ⟨hroot, s, rs, hs, rfl, hsq⟩ := holds_cons.mp hq
    obtain ⟨ha, hnd'⟩ := List.nodup_cons.mp hnd
    by_cases hname : s.name = name
    · refine ⟨⟨l.heap.put a none (Heap.lt_fresh hs), s.next⟩, ?_, q, hnd', ?_⟩
      · simp [remove, hroot, hs, hname, Heap.free_of_read hs]
      · rw [apply_remove_of_eq hname]
        refine hsq.frame fun b hb => ?_
        rw [Heap.read_put, if_neg (ne_of_mem_of_not_mem hb ha)]
    · obtain ⟨h', q', hrun, hh', hsub, -⟩ :=
        removeLoop_spec name hs hsq hnd (Nat.le_of_succ_le hfuel)
      refine ⟨⟨h', l.root⟩, ?_, a :: q', hnd.sublist (hsub.cons_cons a), ?_⟩
      · simp [remove, hroot, hs, hname, hrun]
      · rw [apply_remove_of_ne hname, hroot]
        exact hh'

theorem update_spec (hl : l.Has rs) (name : Text) (grade : ℤ) :
    ∃ l', l.update name grade = some (l', (Call.update name grade).reply rs) ∧
      l'.Has ((Call.update name grade).apply rs) := by
  obtain ⟨q, hnd, hq⟩ := hl
  rcases locate_cases name hq hnd (hq.length_le hnd) with
    ⟨hloc, hfind⟩ | ⟨a, s, hloc, -, hs, hfind, hset⟩
  · refine ⟨l, by simp [update, hloc, Call.reply, hfind], q, hnd, ?_⟩
    have hsame : (Call.update name grade).apply rs = rs :=
      List.replaceF_of_forall_none fun r hr =>
        if_neg (by simpa using List.find?_eq_none.mp hfind r hr)
    rwa [hsame]
  · refine ⟨⟨l.heap.put a (some (s.setGrade grade)) (Heap.lt_fresh hs), l.root⟩, ?_, q, hnd, ?_⟩
    · simp [update, hloc, Heap.modify_of_read _ hs, Call.reply, hfind]
    · refine hset grade _ ?_ fun b hb => ?_
      · rw [Heap.read_put, if_pos rfl]
      · rw [Heap.read_put, if_neg hb]

theorem search_spec (hl : l.Has rs) (name : Text) :
    l.search name = some (l, (Call.search name).reply rs) := by
  obtain ⟨q, hnd, hq⟩ := hl
  rcases locate_cases name hq hnd (hq.length_le hnd) with
    ⟨hloc, hfind⟩ | ⟨a, s, hloc, -, hs, hfind, -⟩
  · simp [search, hloc, Call.reply, hfind]
  · simp [search, hloc, hs, Call.reply, hfind, Student.record]

/-- A call is defined unless it removes from an empty list, and does what it should. -/
theorem call_spec (hl : l.Has rs) (c : Call) (hc : ∀ name, c = .remove name → rs ≠ []) :
    ∃ l', l.call c = some (l', c.reply rs) ∧ l'.Has (c.apply rs) := by
  cases c with
  | add name grade => exact add_spec hl name grade
  | remove name => exact remove_spec hl (hc name rfl) name
  | update name grade => exact update_spec hl name grade
  | search name => exact ⟨l, search_spec hl name, hl⟩

end StudentLinkedList

/-! ### Runs -/

/-- No call of the run is undefined; the list has the records and has printed the replies. -/
def Kept (calls : List Call) : Prop :=
  ∃ l, Run (ofOption step) (StudentLinkedList.empty, []) calls (l, (journal calls).2) ∧
    l.Has (journal calls).1

theorem journal_snoc (calls : List Call) (c : Call) : journal (calls ++ [c]) =
    (c.apply (journal calls).1, (journal calls).2 ++ [c.reply (journal calls).1]) := by
  rw [journal, List.foldl_append]
  rfl

theorem Kept.snoc {calls : List Call} (h : Kept calls) (c : Call)
    (hc : ∀ name, c = .remove name → (journal calls).1 ≠ []) : Kept (calls ++ [c]) := by
  obtain ⟨l, hrun, hl⟩ := h
  obtain ⟨l', hcall, hl'⟩ := StudentLinkedList.call_spec hl c hc
  refine ⟨l', ?_, ?_⟩
  · rw [journal_snoc]
    exact hrun.snoc (by simp [ofOption, step, hcall])
  · rwa [journal_snoc]

/-- Along every sequence of calls the list is the list of the added records, newest first, if and
only if nothing is removed from an empty list. -/
theorem kept_iff (calls : List Call) :
    (∀ pre, pre <+: calls → Kept pre) ↔
      ∀ pre name, pre ++ [.remove name] <+: calls → (journal pre).1 ≠ [] := by
  constructor
  · intro hall pre name hpre hnil
    obtain ⟨l, hrun, hl⟩ := hall pre ((List.prefix_append _ _).trans hpre)
    obtain ⟨l', hrun', -⟩ := hall _ hpre
    obtain ⟨mid, hmid, hstep⟩ := hrun'.last
    obtain rfl := hrun.functional hmid
    rw [hnil] at hl
    simp [ofOption, step, StudentLinkedList.call, StudentLinkedList.remove_empty hl] at hstep
  · intro hok pre
    induction pre using List.reverseRecOn with
    | nil => exact fun _ => ⟨_, .nil, StudentLinkedList.empty_has⟩
    | append_singleton pre c ih =>
      intro hpre
      refine (ih ((List.prefix_append _ _).trans hpre)).snoc c ?_
      rintro name rfl
      exact hok pre name hpre

/-- On an empty list `remove` reads the link of a null `root`. -/
theorem remove_first_undefined :
    StudentLinkedList.empty.call (.remove (ascii "a")) = none ∧
      ¬ ∀ pre, pre <+: [Call.remove (ascii "a")] → Kept pre := by
  refine ⟨rfl, fun hall => ?_⟩
  obtain ⟨l, hrun, -⟩ := hall _ (List.prefix_refl _)
  obtain ⟨mid, hmid, hstep⟩ : ∃ mid, Run _ _ [] mid ∧ _ := hrun.last
  obtain rfl := Run.nil.functional hmid
  cases hstep

end SchoolProjects.Students
