import SchoolProjects.OSProject.SchedulerInvariant

/-! Nobody overtakes a ready process. A process that waits in a ready queue is passed
only by processes of a higher priority; those of its own priority that came before it
get the CPU in the order of the queue, each once, and whoever comes later, a process
that has run and come back among them, stays behind it. -/

namespace SchoolProjects.OSProject

open Transition

/-- What a command may do to the CPU and the ready queues. -/
inductive Sched.Shift (prio : ℕ → Option ℤ) (s : Sched) : Sched → Prop
  | same : Shift prio s s
  | start {p : ℕ} (hempty : s.rQ.flatten = []) : Shift prio s ⟨some p, s.rQ⟩
  | join {p : ℕ} {a : ℤ} {rQ : QueueBank ℕ} (hpush : s.rQ.push a p = some rQ) :
      Shift prio s ⟨s.currentProcess, rQ⟩
  | preempt {p c : ℕ} {a b : ℤ} {rQ : QueueBank ℕ} (hc : s.currentProcess = some c)
      (hp : prio p = some a) (hpc : prio c = some b) (hlt : b < a)
      (hle : ∀ q ∈ s.rQ.flatten, ∃ e, prio q = some e ∧ e ≤ b)
      (hpush : s.rQ.push b c = some rQ) : Shift prio s ⟨some p, rQ⟩
  | leave {c : ℕ} (hc : s.currentProcess = some c) : Shift prio s (CPU.loadNewProcess s)

/-- The process that has got the CPU between the two states, with its priority. -/
def Sched.dispatched (prio : ℕ → Option ℤ) (s s' : Sched) : Option (ℕ × ℤ) :=
  if s'.currentProcess = s.currentProcess then none
  else s'.currentProcess.bind fun p => (prio p).map fun a => (p, a)

section Shift

variable {prio : ℕ → Option ℤ} {s s' : Sched}

theorem addProcess_shift (ho : s.Ordered prio) {p : ℕ} {pr : ℤ} (hp : prio p = some pr)
    (h0 : 0 ≤ pr) (hadd : ReadyQueue.addProcess prio s p = some s') : Sched.Shift prio s s' := by
  cases hc : s.currentProcess with
  | none =>
    rw [addProcess_idle hc hp h0] at hadd
    obtain rfl := Option.some.inj hadd
    exact .start (ho.idle hc)
  | some c =>
    obtain ⟨pc, hpc, -, -, hle⟩ := ho.busy c hc
    rcases lt_or_ge pc pr with hlt | hge
    · rw [addProcess_preempt hc hpc hp hlt] at hadd
      obtain ⟨rQ, hpush, rfl⟩ := Option.map_eq_some_iff.mp hadd
      exact .preempt hc hp hpc hlt hle hpush
    · rw [addProcess_wait hc hpc hp hge] at hadd
      obtain ⟨rQ, hpush, rfl⟩ := Option.map_eq_some_iff.mp hadd
      exact .join hpush

theorem sendToDevice_shift {dev dev' : IODevice} {i : ℤ}
    (h : CPU.sendToDevice i dev s = some (dev', s')) : Sched.Shift prio s s' := by
  unfold CPU.sendToDevice at h
  cases hc : s.currentProcess with
  | none =>
    simp only [hc] at h
    obtain ⟨-, rfl⟩ := Prod.mk.inj (Option.some.inj h)
    exact .same
  | some p =>
    simp only [hc] at h
    obtain ⟨_, -, h⟩ := Option.map_eq_some_iff.mp h
    obtain ⟨-, rfl⟩ := Prod.mk.inj h
    exact .leave hc

theorem releaseProcess_shift (ho : s.Ordered prio) {dev dev' : IODevice} {i : ℤ}
    (hrange : ∀ p ∈ dev.waiting, ∃ a, prio p = some a ∧ 0 ≤ a ∧ a ≤ 4)
    (h : dev.releaseProcess prio i s = some (dev', s')) : Sched.Shift prio s s' := by
  obtain ⟨q, hq⟩ := IODevice.releaseProcess_queue h
  cases q with
  | nil =>
    rw [IODevice.releaseProcess_empty hq] at h
    obtain ⟨-, rfl⟩ := Prod.mk.inj (Option.some.inj h)
    exact .same
  | cons p q =>
    rw [IODevice.releaseProcess_eq (QueueBank.pop_eq_some.mpr ⟨q, hq, rfl⟩)] at h
    obtain ⟨_, hadd, h⟩ := Option.map_eq_some_iff.mp h
    obtain ⟨-, rfl⟩ := Prod.mk.inj h
    obtain ⟨a, ha, h0, -⟩ := hrange p (QueueBank.mem_of_queue hq (by simp))
    exact addProcess_shift ho ha h0 hadd

/-- A push leaves what waits in a queue where it is. -/
theorem push_extends {rQ rQ' : QueueBank ℕ} {i : ℤ} {x : ℕ} (h : rQ.push i x = some rQ')
    {lvl : ℕ} {q : List ℕ} (hq : rQ[lvl]? = some q) : ∃ new, rQ'[lvl]? = some (q ++ new) := by
  obtain ⟨q₀, hq₀, rfl⟩ := QueueBank.push_eq_some.mp h
  obtain ⟨-, hi⟩ := QueueBank.queue_eq_some.mp hq₀
  by_cases hlvl : i.toNat = lvl
  · subst hlvl
    obtain rfl : q = q₀ := Option.some.inj (hq.symm.trans hi)
    exact ⟨[x], by rw [List.getElem?_set_self (List.getElem?_eq_some_iff.mp hi).1]⟩
  · exact ⟨[], by rw [List.getElem?_set_ne hlvl, hq, List.append_nil]⟩

/-- One command, seen from a queue that is not empty. Either the queue keeps its
processes, perhaps with one more behind them, and whoever gets the CPU has a higher
priority than the level of the queue; or the front process gets it. -/
theorem Sched.Shift.queue (hs : Sched.Shift prio s s') (hnd : s.places.Nodup)
    (hlevel : ∀ (k : ℕ) q, s.rQ[k]? = some q → ∀ p ∈ q, prio p = some k)
    {lvl x : ℕ} {q : List ℕ} (hq : s.rQ[lvl]? = some (x :: q)) (hlvl : lvl < 5) :
    (∃ new, s'.rQ[lvl]? = some (x :: q ++ new) ∧
      ∀ d, Sched.dispatched prio s s' = some d → (lvl : ℤ) < d.2) ∨
    s'.rQ[lvl]? = some q ∧ Sched.dispatched prio s s' = some (x, (lvl : ℤ)) := by
  have hx : x ∈ s.rQ.flatten :=
    List.mem_flatten.mpr ⟨_, List.mem_of_getElem? hq, List.mem_cons_self⟩
  have hxp : prio x = some (lvl : ℤ) := hlevel lvl _ hq x List.mem_cons_self
  cases hs with
  | same => exact Or.inl ⟨[], by simpa using hq, fun d hd => by simp [Sched.dispatched] at hd⟩
  | start hempty =>
    rw [hempty] at hx
    cases hx
  | join hpush =>
    obtain ⟨new, hnew⟩ := push_extends hpush hq
    exact Or.inl ⟨new, hnew, fun d hd => by simp [Sched.dispatched] at hd⟩
  | @preempt p c a b rQ hc hp hpc hlt hle hpush =>
    obtain ⟨new, hnew⟩ := push_extends hpush hq
    refine Or.inl ⟨new, hnew, fun d hd => ?_⟩
    obtain ⟨a', ha', hle'⟩ := hle x hx
    obtain rfl : (lvl : ℤ) = a' := Option.some.inj (hxp.symm.trans ha')
    have hne : (⟨some p, rQ⟩ : Sched).currentProcess ≠ s.currentProcess := fun he => by
      obtain rfl : p = c := by simpa [hc] using he
      rw [hp] at hpc
      exact absurd (Option.some.inj hpc) (ne_of_gt hlt)
    rw [Sched.dispatched, if_neg hne] at hd
    obtain rfl : (p, a) = d := by simpa [hp] using hd
    exact lt_of_le_of_lt hle' hlt
  | @leave c hc =>
    have hload : CPU.loadNewProcess s =
        ⟨(ReadyQueue.chooseNewProcess s.rQ).1, (ReadyQueue.chooseNewProcess s.rQ).2⟩ := rfl
    rcases chooseBelow_cases 5 s.rQ with ⟨-, hk⟩ | ⟨i, hi, p, rQ', hpop, he, hk⟩
    · have hnil := pop_eq_none (hk lvl hlvl) hq
      cases hnil
    · have hchoose : ReadyQueue.chooseNewProcess s.rQ = (some p, rQ') := he
      rw [hchoose] at hload
      obtain ⟨q₀, hq₀, rfl⟩ := QueueBank.pop_eq_some.mp hpop
      rw [QueueBank.queue_natCast] at hq₀
      rw [Int.toNat_natCast] at hload
      have hpi : prio p = some (i : ℤ) := hlevel i _ hq₀ p List.mem_cons_self
      -- the process chosen was not the one that ran
      have hne : (CPU.loadNewProcess s).currentProcess ≠ s.currentProcess := fun heq => by
        rw [hload, hc] at heq
        obtain rfl : p = c := Option.some.inj heq
        have hnd' := hnd
        simp only [Sched.places, hc, Option.toList_some, List.singleton_append,
          List.nodup_cons] at hnd'
        exact hnd'.1 (List.mem_flatten.mpr ⟨_, List.mem_of_getElem? hq₀, List.mem_cons_self⟩)
      have hdis : Sched.dispatched prio s (CPU.loadNewProcess s) = some (p, (i : ℤ)) := by
        rw [Sched.dispatched, if_neg hne, hload]
        simp [hpi]
      by_cases hil : i = lvl
      · subst hil
        obtain ⟨rfl, rfl⟩ : p = x ∧ q₀ = q := by simpa [hq] using hq₀.symm
        right
        refine ⟨?_, hdis⟩
        rw [hload, List.getElem?_set_self (List.getElem?_eq_some_iff.mp hq).1]
      · left
        have hlt : lvl < i := by
          by_contra hge
          have hnil := pop_eq_none (hk lvl (by omega) hlvl) hq
          cases hnil
        refine ⟨[], by rw [hload, List.getElem?_set_ne hil, hq, List.append_nil], fun d hd => ?_⟩
        obtain rfl := Option.some.inj (hdis.symm.trans hd)
        change (lvl : ℤ) < (i : ℤ)
        exact_mod_cast hlt

end Shift

namespace Kernel

section Steps

variable {k k' : Kernel} {c : Command}

/-- A command shifts the scheduler, and the ready processes keep their priorities. -/
theorem Step.shift (hk : k.Inv) (hs : Step k c k') :
    Sched.Shift k'.prio k.sched k'.sched ∧
      ∀ p ∈ k.sched.rQ.flatten, k'.prio p = k.prio p := by
  have hready : ∀ p ∈ k.sched.rQ.flatten, k.Live p := fun p hp =>
    (hk.mem_places p).mp (List.mem_append_left _ (List.mem_append_right _ hp))
  cases hs with
  | reject => exact ⟨.same, fun _ _ => rfl⟩
  | create priority size p prio' s hnew hp hkeep hadd =>
    obtain ⟨h0, -⟩ := clampPriority_range priority
    exact ⟨addProcess_shift (hk.prio_congr hkeep) hp h0 hadd, fun q hq => hkeep q (hready q hq)⟩
  | idle => exact ⟨.same, fun _ _ => rfl⟩
  | finish p prio' hc hkeep =>
    refine ⟨.leave hc, fun q hq => hkeep q (hready q hq) ?_⟩
    rintro rfl
    have hnd := (List.nodup_append.mp hk.nodup).1
    simp only [Sched.places, hc, Option.toList_some, List.singleton_append,
      List.nodup_cons] at hnd
    exact hnd.1 hq
  | toDisk i dev s h => exact ⟨sendToDevice_shift h, fun _ _ => rfl⟩
  | toPrinter i dev s h => exact ⟨sendToDevice_shift h, fun _ _ => rfl⟩
  | fromDisk i dev s h => exact ⟨releaseProcess_shift hk.ordered hk.disk_range h, fun _ _ => rfl⟩
  | fromPrinter i dev s h =>
    exact ⟨releaseProcess_shift hk.ordered hk.printer_range h, fun _ _ => rfl⟩

/-- `p` waits in ready queue `lvl`. -/
def Waits (lvl p : ℕ) (k : Kernel) : Prop := ∃ q, k.sched.rQ[lvl]? = some q ∧ p ∈ q

/-- The process that gets the CPU in a step, with its priority. -/
def dispatched (k k' : Kernel) : Option (ℕ × ℤ) := Sched.dispatched k'.prio k.sched k'.sched

/-- Steps after which `p` still waits in queue `lvl`, with the process that got the CPU. -/
def Passing (lvl p : ℕ) (k : Kernel) (l : Command × Option (ℕ × ℤ)) (k' : Kernel) : Prop :=
  Step k l.1 k' ∧ l.2 = dispatched k k' ∧ Waits lvl p k'

/-- One step, seen from a queue in which somebody waits. -/
theorem Step.queue (hk : k.Inv) (hs : Step k c k') {lvl x : ℕ} {q : List ℕ}
    (hq : k.sched.rQ[lvl]? = some (x :: q)) :
    (∃ new, k'.sched.rQ[lvl]? = some (x :: q ++ new) ∧
      ∀ d, dispatched k k' = some d → (lvl : ℤ) < d.2) ∨
    k'.sched.rQ[lvl]? = some q ∧ dispatched k k' = some (x, (lvl : ℤ)) := by
  obtain ⟨hshift, hkeep⟩ := hs.shift hk
  refine hshift.queue (List.nodup_append.mp hk.nodup).1 (fun i r hr p hp => ?_) hq ?_
  · rw [hkeep p (List.mem_flatten.mpr ⟨r, List.mem_of_getElem? hr, hp⟩)]
    exact hk.ordered.level i r hr p hp
  · have hlt := (List.getElem?_eq_some_iff.mp hq).1
    have hfive := hk.ordered.five
    omega

theorem Inv.queue_nodup (hk : k.Inv) {lvl : ℕ} {q : List ℕ} (hq : k.sched.rQ[lvl]? = some q) :
    q.Nodup := by
  have hnd := (List.nodup_append.mp (List.nodup_append.mp hk.nodup).1).2.1
  exact (List.nodup_flatten.mp hnd).1 q (List.mem_of_getElem? hq)

/-- The processes that got the CPU in a run, in order. -/
def dispatches (tr : List (Command × Option (ℕ × ℤ))) : List (ℕ × ℤ) := tr.filterMap Prod.snd

/-- Those among them that came from queue `lvl`. -/
def fromLevel (lvl : ℕ) (ds : List (ℕ × ℤ)) : List ℕ :=
  (ds.filter fun d => d.2 = (lvl : ℤ)).map Prod.fst

/-- While `p` waits, the processes ahead of it leave one by one from the front, and
whoever comes is behind it. -/
theorem run_passing (hk : k.Inv) {lvl p : ℕ} {ahead behind : List ℕ}
    (hq : k.sched.rQ[lvl]? = some (ahead ++ p :: behind))
    {tr : List (Command × Option (ℕ × ℤ))} (hr : Run (Passing lvl p) k tr k') :
    k'.Inv ∧ ∃ stay new, k'.sched.rQ[lvl]? = some (stay ++ p :: (behind ++ new)) ∧
      ahead = fromLevel lvl (dispatches tr) ++ stay ∧ ∀ d ∈ dispatches tr, (lvl : ℤ) ≤ d.2 := by
  refine hr.history (fun tr k' => k'.Inv ∧ ∃ stay new,
    k'.sched.rQ[lvl]? = some (stay ++ p :: (behind ++ new)) ∧
      ahead = fromLevel lvl (dispatches tr) ++ stay ∧ ∀ d ∈ dispatches tr, (lvl : ℤ) ≤ d.2)
    ⟨hk, ahead, [], by simpa using hq, rfl, by simp [dispatches]⟩ ?_
  rintro tr k₁ ⟨c, out⟩ k₂ - ⟨hk₁, stay, new, hq₁, hahead, hhigh⟩ ⟨hstep, hout, r, hr₂, hpr⟩
  have hk₂ : k₂.Inv := hstep.inv hk₁
  refine ⟨hk₂, ?_⟩
  obtain rfl : out = dispatched k₁ k₂ := hout
  have happ : dispatches (tr ++ [(c, dispatched k₁ k₂)]) =
      dispatches tr ++ (dispatched k₁ k₂).toList := by
    simp only [dispatches, List.filterMap_append]
    cases dispatched k₁ k₂ <;> rfl
  obtain ⟨x, q, hxq⟩ : ∃ x q, stay ++ p :: (behind ++ new) = x :: q :=
    List.exists_cons_of_ne_nil (by simp)
  rw [hxq] at hq₁
  rcases hstep.queue hk₁ hq₁ with ⟨more, hmore, hgt⟩ | ⟨hrest, hdis⟩
  · -- the queue keeps its processes
    refine ⟨stay, new ++ more, ?_, ?_, fun d hd => ?_⟩
    · rw [hmore, ← hxq]
      simp
    · have hnone : fromLevel lvl (dispatched k₁ k₂).toList = [] := by
        cases hd : dispatched k₁ k₂ with
        | none => rfl
        | some d =>
          have hne := ne_of_gt (hgt d hd)
          simp [fromLevel, hne]
      rw [happ, fromLevel, List.filter_append, List.map_append]
      change ahead = fromLevel lvl (dispatches tr) ++ fromLevel lvl _ ++ stay
      rw [hnone, List.append_nil, hahead]
    · rw [happ, List.mem_append] at hd
      rcases hd with hd | hd
      · exact hhigh d hd
      · exact (hgt d (by simpa using hd)).le
  · -- the front process gets the CPU; it is not `p`, which still waits
    rw [happ, hdis]
    cases stay with
    | nil =>
      obtain ⟨rfl, rfl⟩ : p = x ∧ behind ++ new = q := by simpa using hxq
      obtain rfl := Option.some.inj (hr₂.symm.trans hrest)
      exact absurd hpr (List.nodup_cons.mp (hk₁.queue_nodup hq₁)).1
    | cons y stay =>
      obtain ⟨rfl, rfl⟩ : y = x ∧ stay ++ p :: (behind ++ new) = q := by simpa using hxq
      refine ⟨stay, new, hrest, ?_, fun d hd => ?_⟩
      · rw [hahead]
        simp [fromLevel]
      · rw [List.mem_append] at hd
        rcases hd with hd | hd
        · exact hhigh d hd
        · obtain rfl : d = (y, (lvl : ℤ)) := by simpa using hd
          exact le_rfl

end Steps

/-- Nobody overtakes a ready process. Let `p` wait in queue `lvl` of a reachable state,
behind `ahead` and before `behind`. As long as it waits, every process that gets the CPU
has at least its priority, those of its own priority are those of `ahead`, in order, and
`behind` stays behind `p`. It leaves the queue only to the CPU, when all of `ahead` have. -/
theorem run_fair {disks printers : ℕ} (hd : 1 ≤ disks) (hp : 1 ≤ printers) {pre : List Command}
    {k k' : Kernel} (hr₀ : Run Step (start disks printers) pre k) {lvl p : ℕ}
    {ahead behind : List ℕ} (hq : k.sched.rQ[lvl]? = some (ahead ++ p :: behind))
    {tr : List (Command × Option (ℕ × ℤ))} (hr : Run (Passing lvl p) k tr k') :
    (∀ d ∈ dispatches tr, (lvl : ℤ) ≤ d.2) ∧
      ∃ stay new, ahead = fromLevel lvl (dispatches tr) ++ stay ∧
        k'.sched.rQ[lvl]? = some (stay ++ p :: (behind ++ new)) ∧
        ∀ c k'', Step k' c k'' → ¬ Waits lvl p k'' →
          stay = [] ∧ dispatched k' k'' = some (p, (lvl : ℤ)) := by
  obtain ⟨hk', stay, new, hq', hahead, hhigh⟩ := run_passing (run_inv hd hp hr₀) hq hr
  refine ⟨hhigh, stay, new, hahead, hq', fun c k'' hstep hgone => ?_⟩
  cases stay with
  | nil =>
    rcases hstep.queue hk' hq' with ⟨more, hmore, -⟩ | ⟨-, hdis⟩
    · exact absurd ⟨_, hmore, by simp⟩ hgone
    · exact ⟨rfl, hdis⟩
  | cons y stay =>
    rcases hstep.queue hk' hq' with ⟨more, hmore, -⟩ | ⟨hrest, -⟩
    · exact absurd ⟨_, hmore, by simp⟩ hgone
    · exact absurd ⟨_, hrest, by simp⟩ hgone

/-- Three processes of priority 4; the first runs, the third waits behind the second. -/
def threeReady (current : ℕ) (ready created finished : List ℕ) : Kernel :=
  { start 1 1 with
    prio := fun _ => some 4
    sched := ⟨some current, [[], [], [], [], ready]⟩
    created := created
    finished := finished }

/-- The running process ends, and the second one is next. -/
theorem run_fair_three : ∃ stay new, [1] = [1] ++ stay ∧ [[], [], [], [], [2]][4]? =
    some (stay ++ 2 :: ([] ++ new)) ∧ ∀ c k'', Step (threeReady 1 [2] [0, 1, 2] [0]) c k'' →
      ¬ Waits 4 2 k'' → stay = [] ∧ dispatched (threeReady 1 [2] [0, 1, 2] [0]) k'' =
        some (2, 4) := by
  have hone : Step (start 1 1) (.A 4 1) (threeReady 0 [] [0] []) :=
    .create (start 1 1) 4 1 0 (fun _ => some 4) _ (by decide) rfl (fun q hq => by cases hq.1) rfl
  have htwo : Step (threeReady 0 [] [0] []) (.A 4 1) (threeReady 0 [1] [0, 1] []) :=
    .create (threeReady 0 [] [0] []) 4 1 1 (fun _ => some 4) _ (by decide) rfl (fun _ _ => rfl) rfl
  have hthree : Step (threeReady 0 [1] [0, 1] []) (.A 4 1) (threeReady 0 [1, 2] [0, 1, 2] []) :=
    .create (threeReady 0 [1] [0, 1] []) 4 1 2 (fun _ => some 4) _ (by decide) rfl
      (fun _ _ => rfl) rfl
  have hend : Step (threeReady 0 [1, 2] [0, 1, 2] []) .t (threeReady 1 [2] [0, 1, 2] [0]) :=
    .finish (threeReady 0 [1, 2] [0, 1, 2] []) 0 (fun _ => some 4) rfl fun _ _ _ => rfl
  exact (@run_fair 1 1 le_rfl le_rfl _ _ (threeReady 1 [2] [0, 1, 2] [0])
    (((Run.nil.snoc hone).snoc htwo).snoc hthree) 4 2 [1] [] rfl
    [(.t, some (1, 4))] (Run.nil.snoc ⟨hend, rfl, [2], rfl, by simp⟩)).2

end Kernel

end SchoolProjects.OSProject
