import SchoolProjects.Lib.Transition
import SchoolProjects.OSProject.Scheduler

/-! The scheduler of the OS simulator as a transition system of its own. Memory
management is left open: a request for memory is rejected or yields a process
that was not there before, and the end of a process may change any record but
those of the other processes. Every process that lives is in one place, the CPU
holds a process of the highest waiting priority, and it is idle only when no
process is ready. -/

namespace SchoolProjects.OSProject

open Transition

/-- The commands of `main` that change the state; `S` only prints. -/
inductive Command where
  | A (priority : ℤ) (size : ℕ)
  | t
  | d (i : ℤ)
  | p (i : ℤ)
  | D (i : ℤ)
  | P (i : ℤ)
  deriving DecidableEq

/-- The range check at the head of `Memory::insert`. -/
def clampPriority (priority : ℤ) : ℤ :=
  if priority < 0 then 0 else if 4 < priority then 4 else priority

theorem clampPriority_range (priority : ℤ) :
    0 ≤ clampPriority priority ∧ clampPriority priority ≤ 4 := by
  unfold clampPriority
  split_ifs <;> omega

/-- The scheduler with its devices and the `priority` fields it reads. `created`
and `finished` record history; the program has no such variables. -/
structure Kernel where
  prio : ℕ → Option ℤ
  sched : Sched
  harddisks : IODevice
  printers : IODevice
  created : List ℕ
  finished : List ℕ

def Sched.places (s : Sched) : List ℕ := s.currentProcess.toList ++ s.rQ.flatten

def IODevice.waiting (dev : IODevice) : List ℕ := dev.container.flatten

namespace Kernel

def start (disks printers : ℕ) : Kernel :=
  ⟨fun _ => none, .start, .new disks "Hard Disk", .new printers "Printer", [], []⟩

/-- Every place a process can be in, with repetitions. -/
def places (k : Kernel) : List ℕ := k.sched.places ++ (k.harddisks.waiting ++ k.printers.waiting)

def Live (k : Kernel) (p : ℕ) : Prop := p ∈ k.created ∧ p ∉ k.finished

inductive Step : Kernel → Command → Kernel → Prop
  | reject (k : Kernel) (priority : ℤ) (size : ℕ) : Step k (.A priority size) k
  | create (k : Kernel) (priority : ℤ) (size p : ℕ) (prio' : ℕ → Option ℤ) (s : Sched)
      (hnew : p ∉ k.created) (hp : prio' p = some (clampPriority priority))
      (hkeep : ∀ q, k.Live q → prio' q = k.prio q)
      (hadd : ReadyQueue.addProcess prio' k.sched p = some s) :
      Step k (.A priority size)
        { k with prio := prio', sched := s, created := k.created ++ [p] }
  | idle (k : Kernel) (hc : k.sched.currentProcess = none) : Step k .t k
  | finish (k : Kernel) (p : ℕ) (prio' : ℕ → Option ℤ) (hc : k.sched.currentProcess = some p)
      (hkeep : ∀ q, k.Live q → q ≠ p → prio' q = k.prio q) :
      Step k .t { k with
        prio := prio', sched := CPU.loadNewProcess k.sched, finished := k.finished ++ [p] }
  | toDisk (k : Kernel) (i : ℤ) (dev : IODevice) (s : Sched)
      (h : CPU.sendToDevice i k.harddisks k.sched = some (dev, s)) :
      Step k (.d i) { k with harddisks := dev, sched := s }
  | toPrinter (k : Kernel) (i : ℤ) (dev : IODevice) (s : Sched)
      (h : CPU.sendToDevice i k.printers k.sched = some (dev, s)) :
      Step k (.p i) { k with printers := dev, sched := s }
  | fromDisk (k : Kernel) (i : ℤ) (dev : IODevice) (s : Sched)
      (h : k.harddisks.releaseProcess k.prio i k.sched = some (dev, s)) :
      Step k (.D i) { k with harddisks := dev, sched := s }
  | fromPrinter (k : Kernel) (i : ℤ) (dev : IODevice) (s : Sched)
      (h : k.printers.releaseProcess k.prio i k.sched = some (dev, s)) :
      Step k (.P i) { k with printers := dev, sched := s }

end Kernel

/-! ### The order of the ready queues -/

/-- Queue `k` holds processes of priority `k`; a busy CPU runs a process of the
highest priority, and an idle one leaves nothing waiting. -/
structure Sched.Ordered (prio : ℕ → Option ℤ) (s : Sched) : Prop where
  five : s.rQ.length = 5
  level : ∀ (k : ℕ) q, s.rQ[k]? = some q → ∀ p ∈ q, prio p = some k
  busy : ∀ p, s.currentProcess = some p → ∃ a, prio p = some a ∧ 0 ≤ a ∧ a ≤ 4 ∧
    ∀ q ∈ s.rQ.flatten, ∃ b, prio q = some b ∧ b ≤ a
  idle : s.currentProcess = none → s.rQ.flatten = []

theorem Sched.start_ordered (prio : ℕ → Option ℤ) : Sched.start.Ordered prio where
  five := rfl
  level k q hq p hp := by
    obtain rfl := List.eq_of_mem_replicate (List.mem_of_getElem? hq)
    cases hp
  busy p hp := by cases hp
  idle _ := by simp [Sched.start]

section Ordered

variable {prio prio' : ℕ → Option ℤ} {s : Sched}

/-- The order depends on the priorities of the processes at hand only. -/
theorem Sched.Ordered.congr (ho : s.Ordered prio) (h : ∀ p ∈ s.places, prio' p = prio p) :
    s.Ordered prio' where
  five := ho.five
  level k q hq p hp := by
    rw [h p (List.mem_append_right _ (List.mem_flatten.mpr ⟨q, List.mem_of_getElem? hq, hp⟩))]
    exact ho.level k q hq p hp
  busy p hp := by
    obtain ⟨a, ha, h0, h4, hb⟩ := ho.busy p hp
    refine ⟨a, (h p (by simp [Sched.places, hp])).trans ha, h0, h4, fun q hq => ?_⟩
    obtain ⟨b, hb, hle⟩ := hb q hq
    exact ⟨b, (h q (List.mem_append_right _ hq)).trans hb, hle⟩
  idle := ho.idle

/-- The levels of the queues after a push at the priority of the process. -/
theorem level_push {rQ rQ' : QueueBank ℕ} {i : ℤ} {p : ℕ}
    (hl : ∀ (k : ℕ) q, rQ[k]? = some q → ∀ p ∈ q, prio p = some k)
    (hp : prio p = some i) (h : rQ.push i p = some rQ') :
    ∀ (k : ℕ) q, rQ'[k]? = some q → ∀ p ∈ q, prio p = some k := by
  intro k q hq x hx
  rcases QueueBank.push_get h hq with ⟨rfl, q₀, hq₀, rfl⟩ | hq₀
  · rcases List.mem_append.mp hx with hx | hx
    · exact hl k q₀ hq₀ x hx
    · rw [List.mem_singleton.mp hx]; exact hp
  · exact hl k q hq₀ x hx

/-- `addProcess` keeps the order and puts the process into one place. -/
theorem addProcess_ordered (ho : s.Ordered prio) {p : ℕ} {pr : ℤ} (hp : prio p = some pr)
    (h0 : 0 ≤ pr) (h4 : pr ≤ 4) :
    ∃ s', ReadyQueue.addProcess prio s p = some s' ∧ s'.Ordered prio ∧
      s'.places.Perm (p :: s.places) := by
  have hfive := ho.five
  cases hc : s.currentProcess with
  | none =>
    have hempty := ho.idle hc
    refine ⟨_, addProcess_idle hc hp h0, ⟨ho.five, ho.level, ?_, by simp⟩, ?_⟩
    · rintro q ⟨⟩
      exact ⟨pr, hp, h0, h4, fun q hq => by simp [hempty] at hq⟩
    · simp [Sched.places, hc]
  | some c =>
    obtain ⟨pc, hpc, hc0, hc4, hle⟩ := ho.busy c hc
    rcases lt_or_ge pc pr with hlt | hge
    · -- the running process moves to its queue
      obtain ⟨rQ', hpush⟩ := s.rQ.push_isSome c hc0 (by omega)
      refine ⟨⟨some p, rQ'⟩, ?_, ⟨?_, level_push ho.level hpc hpush, ?_, by simp⟩, ?_⟩
      · rw [addProcess_preempt hc hpc hp hlt, hpush]; rfl
      · rw [QueueBank.push_length hpush, hfive]
      · rintro q ⟨⟩
        refine ⟨pr, hp, h0, h4, fun q hq => ?_⟩
        rcases List.mem_cons.mp ((QueueBank.push_perm hpush).mem_iff.mp hq) with rfl | hq
        · exact ⟨pc, hpc, hlt.le⟩
        · obtain ⟨b, hb, hbc⟩ := hle q hq
          exact ⟨b, hb, by omega⟩
      · simpa [Sched.places, hc] using QueueBank.push_perm hpush
    · obtain ⟨rQ', hpush⟩ := s.rQ.push_isSome p h0 (by omega)
      refine ⟨{ s with rQ := rQ' }, ?_, ⟨?_, level_push ho.level hp hpush, ?_, ?_⟩, ?_⟩
      · rw [addProcess_wait hc hpc hp hge, hpush]; rfl
      · rw [QueueBank.push_length hpush, hfive]
      · intro q hq
        obtain rfl : c = q := by simpa [hc] using hq
        refine ⟨pc, hpc, hc0, hc4, fun q hq => ?_⟩
        rcases List.mem_cons.mp ((QueueBank.push_perm hpush).mem_iff.mp hq) with rfl | hq
        · exact ⟨pr, hp, hge⟩
        · exact hle q hq
      · simp [hc]
      · have hperm := (QueueBank.push_perm hpush).cons c
        simpa [Sched.places, hc] using hperm.trans (.swap p c _)

/-- After `chooseNewProcess` the order holds whatever ran before, and the ready
processes are those that were ready, one of them now on the CPU. -/
theorem loadNewProcess_ordered (hfive : s.rQ.length = 5)
    (hlevel : ∀ (k : ℕ) q, s.rQ[k]? = some q → ∀ p ∈ q, prio p = some k) :
    (CPU.loadNewProcess s).Ordered prio ∧ (CPU.loadNewProcess s).places.Perm s.rQ.flatten := by
  unfold CPU.loadNewProcess ReadyQueue.chooseNewProcess
  rcases chooseBelow_cases 5 s.rQ with ⟨he, hk⟩ | ⟨i, hi, p, rQ', hpop, he, hk⟩ <;> rw [he]
  · have hempty : s.rQ.flatten = [] := by
      rw [List.flatten_eq_nil_iff]
      intro q hq
      obtain ⟨k, hklt, rfl⟩ := List.getElem_of_mem hq
      exact pop_eq_none (hk k (by omega)) (List.getElem?_eq_getElem hklt)
    exact ⟨⟨hfive, hlevel, by simp, fun _ => hempty⟩, by simp [Sched.places]⟩
  · have hlevel' : ∀ (k : ℕ) q, rQ'[k]? = some q → ∀ p ∈ q, prio p = some k := by
      intro k q hq x hx
      obtain ⟨q₀, hq₀, hsub⟩ := QueueBank.pop_get hpop hq
      exact hlevel k q₀ hq₀ x (hsub hx)
    have hperm := QueueBank.pop_perm hpop
    obtain ⟨q, hq, -⟩ := QueueBank.pop_eq_some.mp hpop
    rw [QueueBank.queue_natCast] at hq
    refine ⟨⟨?_, hlevel', ?_, by simp⟩, by simpa [Sched.places] using hperm.symm⟩
    · rw [QueueBank.pop_length hpop, hfive]
    · rintro x ⟨⟩
      refine ⟨i, hlevel i _ hq _ (by simp), by omega, by omega, fun y hy => ?_⟩
      -- whatever still waits was waiting at level `i` or below
      obtain ⟨j, r, hj, hr, hyr⟩ :=
        QueueBank.exists_queue_of_mem (hperm.mem_iff.mpr (List.mem_cons_of_mem _ hy))
      refine ⟨j, hlevel j r hr y hyr, ?_⟩
      by_contra hlt
      rw [pop_eq_none (hk j (by omega) (by omega)) hr] at hyr
      cases hyr

/-! ### Devices -/

theorem sendToDevice_ordered (ho : s.Ordered prio) (dev : IODevice) (hd : 1 ≤ dev.size) (i : ℤ) :
    ∃ dev' s', CPU.sendToDevice i dev s = some (dev', s') ∧ s'.Ordered prio ∧
      dev'.size = dev.size ∧ (s'.places ++ dev'.waiting).Perm (s.places ++ dev.waiting) := by
  unfold CPU.sendToDevice
  set j := if i < 0 then 0 else if dev.size - 1 < i then dev.size - 1 else i with hj
  cases hc : s.currentProcess with
  | none => exact ⟨dev, s, rfl, ho, rfl, .refl _⟩
  | some p =>
    have hsize := dev.size_eq
    have hr : 0 ≤ j ∧ j < dev.container.length := by
      rw [hj]; split_ifs <;> omega
    obtain ⟨c, hpush⟩ := dev.container.push_isSome p hr.1 hr.2
    obtain ⟨hord, hperm⟩ := loadNewProcess_ordered (s := s) ho.five ho.level
    refine ⟨dev.setContainer c (QueueBank.push_length hpush), CPU.loadNewProcess s, ?_, hord, rfl,
      ?_⟩
    · simp [IODevice.addProcess_eq hpush]
    · have hw : ((CPU.loadNewProcess s).places ++ c.flatten).Perm
          (s.rQ.flatten ++ (p :: dev.waiting)) := hperm.append (QueueBank.push_perm hpush)
      have hm : (s.rQ.flatten ++ (p :: dev.waiting)).Perm (s.places ++ dev.waiting) := by
        simp [Sched.places, hc]
      exact hw.trans hm

theorem releaseProcess_ordered (ho : s.Ordered prio) (dev : IODevice)
    (hrange : ∀ p ∈ dev.waiting, ∃ a, prio p = some a ∧ 0 ≤ a ∧ a ≤ 4) {i : ℤ} {q : List ℕ}
    (hq : dev.container.queue i = some q) :
    ∃ dev' s', dev.releaseProcess prio i s = some (dev', s') ∧ s'.Ordered prio ∧
      dev'.size = dev.size ∧ (s'.places ++ dev'.waiting).Perm (s.places ++ dev.waiting) := by
  cases q with
  | nil => exact ⟨dev, s, IODevice.releaseProcess_empty hq, ho, rfl, .refl _⟩
  | cons p q =>
    have hpop := QueueBank.pop_eq_some.mpr ⟨q, hq, rfl⟩
    obtain ⟨a, ha, ha0, ha4⟩ := hrange p (QueueBank.mem_of_queue hq (by simp))
    obtain ⟨s', hs', hord, hperm⟩ := addProcess_ordered ho ha ha0 ha4
    refine ⟨dev.setContainer _ (QueueBank.pop_length hpop), s', ?_, hord, rfl, ?_⟩
    · rw [IODevice.releaseProcess_eq hpop, hs']; rfl
    · have hw := (QueueBank.pop_perm hpop).symm
      have hm : (s.places ++ p :: (dev.container.set i.toNat q).flatten).Perm
          (p :: (s.places ++ (dev.container.set i.toNat q).flatten)) := List.perm_middle
      exact (hperm.append_right _).trans (hm.symm.trans (hw.append_left s.places))

theorem perm_frame_middle {α : Type*} {a a' c c' : List α} (b : List α)
    (h : (a' ++ c').Perm (a ++ c)) : (a' ++ (b ++ c')).Perm (a ++ (b ++ c)) := by
  have swap : ∀ x y : List α, (x ++ (b ++ y)).Perm (b ++ (x ++ y)) := fun x y => by
    simpa only [List.append_assoc] using List.perm_append_comm.append_right y
  exact (swap a' c').trans ((h.append_left b).trans (swap a c).symm)

end Ordered

/-! ### The invariant of the system -/

namespace Kernel

structure Inv (k : Kernel) : Prop where
  ordered : k.sched.Ordered k.prio
  range : ∀ p, k.Live p → ∃ a, k.prio p = some a ∧ 0 ≤ a ∧ a ≤ 4
  nodup : k.places.Nodup
  mem_places : ∀ p, p ∈ k.places ↔ k.Live p
  finished_sub : ∀ p ∈ k.finished, p ∈ k.created
  disks_pos : 1 ≤ k.harddisks.size
  printers_pos : 1 ≤ k.printers.size

theorem inv_start {disks printers : ℕ} (hd : 1 ≤ disks) (hp : 1 ≤ printers) :
    (start disks printers).Inv where
  ordered := Sched.start_ordered _
  range p h := by cases h.1
  nodup := by simp [start, places, Sched.places, Sched.start, IODevice.waiting, IODevice.new]
  mem_places p := by
    simp [start, places, Sched.places, Sched.start, IODevice.waiting, IODevice.new, Live]
  finished_sub p h := by cases h
  disks_pos := by simpa [start, IODevice.new] using hd
  printers_pos := by simpa [start, IODevice.new] using hp

/-- Moving processes between places keeps the invariant. -/
theorem Inv.move {k : Kernel} (hk : k.Inv) {s : Sched} {disks printers : IODevice}
    (ho : s.Ordered k.prio) (hd : disks.size = k.harddisks.size)
    (hp : printers.size = k.printers.size)
    (hperm : (s.places ++ (disks.waiting ++ printers.waiting)).Perm k.places) :
    Inv { k with sched := s, harddisks := disks, printers := printers } where
  ordered := ho
  range := hk.range
  nodup := hperm.nodup_iff.mpr hk.nodup
  mem_places p := hperm.mem_iff.trans (hk.mem_places p)
  finished_sub := hk.finished_sub
  disks_pos := by rw [hd]; exact hk.disks_pos
  printers_pos := by rw [hp]; exact hk.printers_pos

theorem Inv.prio_congr {k : Kernel} (hk : k.Inv) {prio' : ℕ → Option ℤ}
    (h : ∀ q, k.Live q → prio' q = k.prio q) : k.sched.Ordered prio' :=
  hk.ordered.congr fun q hq => h q ((hk.mem_places q).mp (List.mem_append_left _ hq))

theorem Inv.create {k : Kernel} (hk : k.Inv) {priority : ℤ} {p : ℕ} {prio' : ℕ → Option ℤ}
    {s : Sched} (hnew : p ∉ k.created) (hp : prio' p = some (clampPriority priority))
    (hkeep : ∀ q, k.Live q → prio' q = k.prio q)
    (hadd : ReadyQueue.addProcess prio' k.sched p = some s) :
    Inv { k with prio := prio', sched := s, created := k.created ++ [p] } := by
  obtain ⟨h0, h4⟩ := clampPriority_range priority
  obtain ⟨s', hs', hord, hperm⟩ := addProcess_ordered (hk.prio_congr hkeep) hp h0 h4
  obtain rfl : s' = s := by simpa [hadd] using hs'.symm
  have hpl : (s'.places ++ (k.harddisks.waiting ++ k.printers.waiting)).Perm (p :: k.places) :=
    hperm.append_right _
  have hfin : p ∉ k.finished := fun h => hnew (hk.finished_sub p h)
  refine ⟨hord, ?_, hpl.nodup_iff.mpr ?_, fun q => hpl.mem_iff.trans ?_, ?_, hk.disks_pos,
    hk.printers_pos⟩
  · rintro q ⟨hq, hqf⟩
    rcases List.mem_append.mp hq with hq | hq
    · obtain ⟨a, ha, hr⟩ := hk.range q ⟨hq, hqf⟩
      exact ⟨a, (hkeep q ⟨hq, hqf⟩).trans ha, hr⟩
    · rw [List.mem_singleton.mp hq]
      exact ⟨_, hp, h0, h4⟩
  · refine List.nodup_cons.mpr ⟨fun h => hnew ((hk.mem_places p).mp h).1, hk.nodup⟩
  · have hm := hk.mem_places q
    simp only [Live, List.mem_cons, List.mem_append, List.not_mem_nil, or_false, hm]
    by_cases hqp : q = p
    · subst hqp; simp [hfin]
    · simp [hqp]
  · exact fun q hq => List.mem_append_left _ (hk.finished_sub q hq)

theorem Inv.finish {k : Kernel} (hk : k.Inv) {p : ℕ} {prio' : ℕ → Option ℤ}
    (hc : k.sched.currentProcess = some p)
    (hkeep : ∀ q, k.Live q → q ≠ p → prio' q = k.prio q) :
    Inv { k with
      prio := prio', sched := CPU.loadNewProcess k.sched, finished := k.finished ++ [p] } := by
  have hsplit : k.places =
      p :: (k.sched.rQ.flatten ++ (k.harddisks.waiting ++ k.printers.waiting)) := by
    simp [places, Sched.places, hc]
  have hnd := hk.nodup
  rw [hsplit, List.nodup_cons] at hnd
  have hlive : ∀ q, q ∈ k.places → q ≠ p → prio' q = k.prio q :=
    fun q hq => hkeep q ((hk.mem_places q).mp hq)
  -- the queues do not contain the process that ends
  have hlevel : ∀ (i : ℕ) q, k.sched.rQ[i]? = some q → ∀ x ∈ q, prio' x = some i := by
    intro i q hq x hx
    have hxf : x ∈ k.sched.rQ.flatten := List.mem_flatten.mpr ⟨q, List.mem_of_getElem? hq, hx⟩
    rw [hlive x (by rw [hsplit]; simp [hxf])
      (fun h => hnd.1 (by rw [← h]; exact List.mem_append_left _ hxf))]
    exact hk.ordered.level i q hq x hx
  obtain ⟨hord, hperm⟩ := loadNewProcess_ordered hk.ordered.five hlevel
  have hpl := hperm.append_right (k.harddisks.waiting ++ k.printers.waiting)
  refine ⟨hord, ?_, hpl.nodup_iff.mpr hnd.2, fun q => hpl.mem_iff.trans ?_, ?_, hk.disks_pos,
    hk.printers_pos⟩
  · rintro q ⟨hq, hqf⟩
    simp only [List.mem_append, List.mem_singleton, not_or] at hqf
    obtain ⟨a, ha, hr⟩ := hk.range q ⟨hq, hqf.1⟩
    exact ⟨a, (hkeep q ⟨hq, hqf.1⟩ hqf.2).trans ha, hr⟩
  · have hm := hk.mem_places q
    rw [hsplit] at hm
    simp only [Live, List.mem_append, List.mem_cons, List.not_mem_nil, or_false, not_or] at hm ⊢
    by_cases hqp : q = p
    · subst hqp
      simpa using hnd.1
    · simpa [hqp] using hm
  · intro q hq
    rcases List.mem_append.mp hq with hq | hq
    · exact hk.finished_sub q hq
    · rw [List.mem_singleton.mp hq]
      exact ((hk.mem_places p).mp (by rw [hsplit]; simp)).1

/-- The priorities of the processes waiting at a device. -/
theorem Inv.device_range {k : Kernel} (hk : k.Inv) {dev : IODevice}
    (hdev : ∀ p ∈ dev.waiting, p ∈ k.places) :
    ∀ p ∈ dev.waiting, ∃ a, k.prio p = some a ∧ 0 ≤ a ∧ a ≤ 4 :=
  fun p hp => hk.range p ((hk.mem_places p).mp (hdev p hp))

theorem Inv.disk_range {k : Kernel} (hk : k.Inv) :
    ∀ p ∈ k.harddisks.waiting, ∃ a, k.prio p = some a ∧ 0 ≤ a ∧ a ≤ 4 :=
  hk.device_range fun p hp => by simp [places, hp]

theorem Inv.printer_range {k : Kernel} (hk : k.Inv) :
    ∀ p ∈ k.printers.waiting, ∃ a, k.prio p = some a ∧ 0 ≤ a ∧ a ≤ 4 :=
  hk.device_range fun p hp => by simp [places, hp]

theorem places_disk {k : Kernel} {dev : IODevice} {s : Sched}
    (h : (s.places ++ dev.waiting).Perm (k.sched.places ++ k.harddisks.waiting)) :
    (s.places ++ (dev.waiting ++ k.printers.waiting)).Perm k.places := by
  simpa [places] using h.append_right k.printers.waiting

theorem places_printer {k : Kernel} {dev : IODevice} {s : Sched}
    (h : (s.places ++ dev.waiting).Perm (k.sched.places ++ k.printers.waiting)) :
    (s.places ++ (k.harddisks.waiting ++ dev.waiting)).Perm k.places :=
  perm_frame_middle k.harddisks.waiting h

/-- One command keeps the invariant. -/
theorem Step.inv {k k' : Kernel} {c : Command} (hk : k.Inv) (hs : Step k c k') : k'.Inv := by
  cases hs with
  | reject => exact hk
  | create _ _ p prio' s hnew hp hkeep hadd => exact hk.create hnew hp hkeep hadd
  | idle => exact hk
  | finish p prio' hc hkeep => exact hk.finish hc hkeep
  | toDisk i dev s h =>
    obtain ⟨_, _, h', ho, hsz, hperm⟩ := sendToDevice_ordered hk.ordered k.harddisks hk.disks_pos i
    obtain ⟨rfl, rfl⟩ := Prod.mk.inj (Option.some.inj (h'.symm.trans h))
    exact hk.move ho hsz rfl (places_disk hperm)
  | toPrinter i dev s h =>
    obtain ⟨_, _, h', ho, hsz, hperm⟩ :=
      sendToDevice_ordered hk.ordered k.printers hk.printers_pos i
    obtain ⟨rfl, rfl⟩ := Prod.mk.inj (Option.some.inj (h'.symm.trans h))
    exact hk.move ho rfl hsz (places_printer hperm)
  | fromDisk i dev s h =>
    obtain ⟨q, hq⟩ := IODevice.releaseProcess_queue h
    obtain ⟨_, _, h', ho, hsz, hperm⟩ := releaseProcess_ordered hk.ordered _ hk.disk_range hq
    obtain ⟨rfl, rfl⟩ := Prod.mk.inj (Option.some.inj (h'.symm.trans h))
    exact hk.move ho hsz rfl (places_disk hperm)
  | fromPrinter i dev s h =>
    obtain ⟨q, hq⟩ := IODevice.releaseProcess_queue h
    obtain ⟨_, _, h', ho, hsz, hperm⟩ := releaseProcess_ordered hk.ordered _ hk.printer_range hq
    obtain ⟨rfl, rfl⟩ := Prod.mk.inj (Option.some.inj (h'.symm.trans h))
    exact hk.move ho rfl hsz (places_printer hperm)

/-- `D` and `P` name a device that exists. -/
def InRange (k : Kernel) : Command → Prop
  | .D i => 0 ≤ i ∧ i < k.harddisks.size
  | .P i => 0 ≤ i ∧ i < k.printers.size
  | _ => True

/-- Every command with a device in range is defined. -/
theorem Inv.progress {k : Kernel} (hk : k.Inv) {c : Command} (hc : k.InRange c) :
    ∃ k', Step k c k' := by
  cases c with
  | A priority size => exact ⟨_, .reject k priority size⟩
  | t =>
    cases hcur : k.sched.currentProcess with
    | none => exact ⟨_, .idle k hcur⟩
    | some p => exact ⟨_, .finish k p k.prio hcur (fun _ _ _ => rfl)⟩
  | d i =>
    obtain ⟨_, _, h, -⟩ := sendToDevice_ordered hk.ordered k.harddisks hk.disks_pos i
    exact ⟨_, .toDisk k i _ _ h⟩
  | p i =>
    obtain ⟨_, _, h, -⟩ := sendToDevice_ordered hk.ordered k.printers hk.printers_pos i
    exact ⟨_, .toPrinter k i _ _ h⟩
  | D i =>
    have hsize := k.harddisks.size_eq
    obtain ⟨q, hq⟩ := k.harddisks.container.queue_isSome hc.1 (by have := hc.2; omega)
    obtain ⟨_, _, h, -⟩ := releaseProcess_ordered hk.ordered _ hk.disk_range hq
    exact ⟨_, .fromDisk k i _ _ h⟩
  | P i =>
    have hsize := k.printers.size_eq
    obtain ⟨q, hq⟩ := k.printers.container.queue_isSome hc.1 (by have := hc.2; omega)
    obtain ⟨_, _, h, -⟩ := releaseProcess_ordered hk.ordered _ hk.printer_range hq
    exact ⟨_, .fromPrinter k i _ _ h⟩

/-- A new process of any priority is taken in without undefined behaviour. -/
theorem Inv.create_defined {k : Kernel} (hk : k.Inv) (priority : ℤ) {p : ℕ}
    {prio' : ℕ → Option ℤ} (hp : prio' p = some (clampPriority priority))
    (hkeep : ∀ q, k.Live q → prio' q = k.prio q) :
    ∃ s, ReadyQueue.addProcess prio' k.sched p = some s := by
  obtain ⟨h0, h4⟩ := clampPriority_range priority
  obtain ⟨s, hs, -⟩ := addProcess_ordered (hk.prio_congr hkeep) hp h0 h4
  exact ⟨s, hs⟩

/-- What the scheduler promises of every state. -/
structure Sound (k : Kernel) : Prop where
  one_place : ∀ p, k.Live p → k.places.count p = 1
  no_finished : ∀ p ∈ k.finished, p ∉ k.places
  five_queues : k.sched.rQ.length = 5
  queue_priority : ∀ (i : ℕ) q, k.sched.rQ[i]? = some q → ∀ p ∈ q, k.prio p = some i
  busy_highest : ∀ c, k.sched.currentProcess = some c → ∀ (i : ℕ) q, k.sched.rQ[i]? = some q →
    ∀ p ∈ q, ∃ a b, k.prio c = some a ∧ k.prio p = some b ∧ b ≤ a
  idle_empty : k.sched.currentProcess = none → ∀ (i : ℕ) q, k.sched.rQ[i]? = some q → q = []
  defined : ∀ c, k.InRange c → ∃ k', Step k c k'
  create_defined : ∀ priority p (prio' : ℕ → Option ℤ), prio' p = some (clampPriority priority) →
    (∀ q, k.Live q → prio' q = k.prio q) → ∃ s, ReadyQueue.addProcess prio' k.sched p = some s

theorem Inv.sound {k : Kernel} (hk : k.Inv) : k.Sound where
  one_place p hp := List.count_eq_one_of_mem hk.nodup ((hk.mem_places p).mpr hp)
  no_finished p hp h := ((hk.mem_places p).mp h).2 hp
  five_queues := hk.ordered.five
  queue_priority := hk.ordered.level
  busy_highest c hc i q hq p hp := by
    obtain ⟨a, ha, -, -, hle⟩ := hk.ordered.busy c hc
    obtain ⟨b, hb, hba⟩ := hle p (List.mem_flatten.mpr ⟨q, List.mem_of_getElem? hq, hp⟩)
    exact ⟨a, b, ha, hb, hba⟩
  idle_empty hc i q hq :=
    List.flatten_eq_nil_iff.mp (hk.ordered.idle hc) q (List.mem_of_getElem? hq)
  defined _ hc := hk.progress hc
  create_defined priority _ _ hp hkeep := hk.create_defined priority hp hkeep

theorem run_inv {disks printers : ℕ} (hd : 1 ≤ disks) (hp : 1 ≤ printers) {tr : List Command}
    {k : Kernel} (hr : Run Step (start disks printers) tr k) : k.Inv :=
  hr.invariant Inv (inv_start hd hp) fun _ _ _ hk hs => hs.inv hk

/-- The scheduler invariant, after every run of commands. -/
theorem run_sound {disks printers : ℕ} (hd : 1 ≤ disks) (hp : 1 ≤ printers) {tr : List Command}
    {k : Kernel} (hr : Run Step (start disks printers) tr k) : k.Sound :=
  (run_inv hd hp hr).sound

/-- Three processes, the second of priority 4 and the others of priority 2. -/
def threeMixed (current : ℕ) (ready created finished : List ℕ) : Kernel :=
  { start 1 1 with
    prio := fun p => if p = 1 then some 4 else some 2
    sched := ⟨some current, [[], [], ready, [], []]⟩
    created := created
    finished := finished }

/-- The second process takes the CPU from the first; when it has ended, the first goes on. -/
theorem run_sound_three : (threeMixed 0 [2] [0, 1, 2] [1]).Sound := by
  have hone : Step (start 1 1) (.A 2 1) { threeMixed 0 [] [0] [] with prio := fun _ => some 2 } :=
    .create (start 1 1) 2 1 0 (fun _ => some 2) _ (by decide) rfl (fun q hq => by cases hq.1) rfl
  have htwo : Step { threeMixed 0 [] [0] [] with prio := fun _ => some 2 } (.A 4 1)
      (threeMixed 1 [0] [0, 1] []) := by
    refine .create _ 4 1 1 _ _ (by decide) rfl (fun q hq => ?_) rfl
    obtain rfl : q = 0 := by simpa [threeMixed] using hq.1
    rfl
  have hthree : Step (threeMixed 1 [0] [0, 1] []) (.A 2 1) (threeMixed 1 [0, 2] [0, 1, 2] []) :=
    .create _ 2 1 2 _ _ (by decide) rfl (fun _ _ => rfl) rfl
  have hend : Step (threeMixed 1 [0, 2] [0, 1, 2] []) .t (threeMixed 0 [2] [0, 1, 2] [1]) :=
    .finish (threeMixed 1 [0, 2] [0, 1, 2] []) 1 _ rfl fun _ _ _ => rfl
  exact @run_sound 1 1 le_rfl le_rfl _ _ ((((Run.nil.snoc hone).snoc htwo).snoc hthree).snoc hend)

end Kernel

end SchoolProjects.OSProject
