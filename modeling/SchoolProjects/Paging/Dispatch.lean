import SchoolProjects.Paging.System

/-! Which processes the CPU runs. A process returned from a disk waits in a ready
queue even when the CPU is idle, unlike a new process; and a terminated process
keeps the CPU. Both are properties of every state of a run, and each holds exactly
in the runs that avoid the step at fault. -/

namespace SchoolProjects.Paging

open Transition

namespace System

/-- The runs of the commands from `s₀`, as far as they are defined. -/
abbrev Runs (s₀ : System) : List Command → System → Prop := Run (ofOption step) s₀

variable {s s' : System}

/-! ### Work conservation -/

/-- An idle CPU has nothing to run. -/
def WorkConserving (s : System) : Prop := s.c.currentProcess = none → ∀ l, s.q.q l = []

instance : DecidablePred WorkConserving := fun s =>
  inferInstanceAs (Decidable (s.c.currentProcess = none → ∀ l, s.q.q l = []))

theorem start_q {memSize : ℕ} {pgfrSize hardDisks : ℤ}
    (h : start memSize pgfrSize hardDisks = some s) :
    s.c = .new ∧ s.q = .new ∧ s.hd = List.replicate hardDisks.toNat ⟨[]⟩ := by
  unfold start at h
  split_ifs at h
  obtain ⟨mem, -, rfl⟩ := Option.map_eq_some_iff.mp h
  exact ⟨rfl, rfl, rfl⟩

theorem start_workConserving {memSize : ℕ} {pgfrSize hardDisks : ℤ}
    (h : start memSize pgfrSize hardDisks = some s) : s.WorkConserving := by
  intro _ l
  rw [(start_q h).2.1]
  rfl

/-- `getNextProcess` leaves the CPU idle only when the queues are empty. -/
theorem getNextProcess_none {q : Schedule} (h : q.getNextProcess.1 = none) (l : Fin 3) :
    q.getNextProcess.2.q l = [] := by
  rcases q.getNextProcess_cases with ⟨hq, hr⟩ | ⟨k, p, rest, -, -, hr⟩
  · rw [hr]
    exact hq l
  · rw [hr] at h
    cases h

/-- The one step that breaks work conservation: a disk returns a process while the
CPU is idle. -/
def IdleReturn (s : System) : Command → Prop
  | .D n => uint32 n < s.hd.length ∧ s.c.currentProcess = none
  | _ => False

theorem workConserving_step {c : Command} (hs : s.WorkConserving) (h : s.step c = some s') :
    s'.WorkConserving ↔ ¬ s.IdleReturn c := by
  cases step_effect h with
  | load mem hc => simp [WorkConserving, IdleReturn]
  | wait mem p hc => simp [WorkConserving, IdleReturn, hc]
  | pass =>
    have hnone : s.c.passQuantum.currentProcess = none ↔ s.c.currentProcess = none := by
      simp [CPU.passQuantum]
    simpa [WorkConserving, IdleReturn, hnone] using hs
  | finish p hc => simp [WorkConserving, IdleReturn, hc]
  | send n filename p disk hc hdisk =>
    simpa [WorkConserving, IdleReturn, withDisk] using getNextProcess_none
  | back n e rest hdisk =>
    obtain ⟨hlt, -⟩ := List.getElem?_eq_some_iff.mp hdisk
    have hpush : (s.q.push (level e.p.quantum) e.p).q (level e.p.quantum) ≠ [] := by
      simp [Schedule.push]
    constructor
    · rintro hs' ⟨-, hc⟩
      exact hpush (hs' hc _)
    · intro hidle hc
      exact absurd ⟨hlt, hc⟩ hidle
  | access n mem p hc => simp [WorkConserving, IdleReturn, hc]
  | idle c hidle =>
    have hnot : ¬ s.IdleReturn c := by
      cases c with
      | D n =>
        rintro ⟨hlt, -⟩
        have hgt : s.hd.length < uint32 n := hidle
        omega
      | _ => exact id
    simp [hs, hnot]

/-- Every state of a run is work conserving exactly when no disk returns a process
to an idle CPU. -/
theorem workConserving_run_iff {memSize : ℕ} {pgfrSize hardDisks : ℤ} {s₀ : System}
    (hstart : start memSize pgfrSize hardDisks = some s₀) {cmds : List Command}
    (hr : s₀.Runs cmds s) :
    (∀ pre post s', cmds = pre ++ post → s₀.Runs pre s' → s'.WorkConserving) ↔
      ∀ pre n post s', cmds = pre ++ .D n :: post → s₀.Runs pre s' →
        uint32 n < s'.hd.length → s'.c.currentProcess ≠ none := by
  rw [hr.invariant_iff WorkConserving (fun s c => ¬ s.IdleReturn c) (start_workConserving hstart)
    fun _ _ _ => workConserving_step]
  constructor
  · intro h pre n post s' hc hpre hlt hnone
    exact h pre (.D n) post s' hc hpre ⟨hlt, hnone⟩
  · intro h pre c post s' hc hpre hidle
    cases c with
    | D n => exact h pre n post s' hc hpre hidle.1 hidle.2
    | _ => exact hidle

/-- The state after `cmds` on a machine of 16 bytes, pages of 4 and one disk. -/
def sample (cmds : List Command) : Option System :=
  (start 16 4 1).bind fun s₀ => cmds.foldlM step s₀

theorem sample_run (cmds : List Command) (h : (sample cmds).isSome) :
    ∃ s₀ s, start 16 4 1 = some s₀ ∧ s₀.Runs cmds s ∧ sample cmds = some s := by
  obtain ⟨s, hs⟩ := Option.isSome_iff_exists.mp h
  obtain ⟨s₀, h0, hr⟩ := Option.bind_eq_some_iff.mp hs
  exact ⟨s₀, s, h0, (run_iff_foldlM step s₀ cmds s).mpr hr, hs⟩

theorem workConserving_run_sample : ∃ s₀, start 16 4 1 = some s₀ ∧
    ((∀ pre post s', [.A, .d 0 [102], .D 0] = pre ++ post → s₀.Runs pre s' → s'.WorkConserving) ↔
      ∀ pre n post s', [.A, .d 0 [102], .D 0] = pre ++ .D n :: post → s₀.Runs pre s' →
        uint32 n < s'.hd.length → s'.c.currentProcess ≠ none) := by
  obtain ⟨s₀, s, h0, hr, -⟩ := sample_run [.A, .d 0 [102], .D 0] (by decide +kernel)
  exact ⟨s₀, h0, workConserving_run_iff h0 hr⟩

/-- A creation, a disk request and the return from the disk leave the process
waiting for an idle CPU. -/
theorem return_leaves_cpu_idle : ∃ s₀ s, start 16 4 1 = some s₀ ∧
    s₀.Runs [.A, .d 0 [102], .D 0] s ∧ ¬ s.WorkConserving := by
  obtain ⟨s₀, s, h0, hr, hs⟩ := sample_run [.A, .d 0 [102], .D 0] (by decide +kernel)
  have hidle : ((sample [.A, .d 0 [102], .D 0]).any fun s => decide (¬ s.WorkConserving)) = true := by
    decide +kernel
  rw [hs] at hidle
  exact ⟨s₀, s, h0, hr, by simpa using hidle⟩

/-! ### Termination -/

/-- No process with this pid is left, and no frame is held for it. -/
structure Gone (s : System) (pid : ℤ) : Prop where
  cpu : ∀ p, s.c.currentProcess = some p → p.pid ≠ pid
  queues : ∀ l, ∀ p ∈ s.q.q l, p.pid ≠ pid
  disks : ∀ d ∈ s.hd, ∀ e ∈ d.hd, e.p.pid ≠ pid
  frames : ∀ e, some e ∈ s.mem.pageTable → e.pid ≠ pid

/-- Whatever is terminated in the run stays gone to its end. -/
def TerminationFinal (s₀ : System) (cmds : List Command) : Prop :=
  ∀ pre post s p, cmds = pre ++ .t :: post → s₀.Runs pre s → s.c.currentProcess = some p →
    ∀ mid rest s', post = mid ++ rest → s₀.Runs (pre ++ .t :: mid) s' → s'.Gone p.pid

/-- The terminated process still runs after the step. -/
theorem finish_current (h : s.step .t = some s') :
    ∃ p, s.c.currentProcess = some p ∧ s'.c.currentProcess = some p := by
  cases step_effect h with
  | finish p hc => exact ⟨p, hc, hc⟩
  | idle c hidle => cases hidle

theorem not_terminationFinal {s₀ : System} {cmds : List Command} (hr : s₀.Runs cmds s)
    (ht : .t ∈ cmds) : ¬ s₀.TerminationFinal cmds := by
  intro hfinal
  obtain ⟨pre, post, rfl⟩ := List.append_of_mem ht
  obtain ⟨s₁, s₂, h1, hs, h2⟩ := hr.step_at
  obtain ⟨p, hp, hp'⟩ := finish_current hs
  have hgone := hfinal pre post s₁ p rfl h1 hp [] post s₂ rfl h2
  exact hgone.cpu p hp' rfl

/-- A run is final about its terminations exactly when it has none. -/
theorem terminationFinal_iff {s₀ : System} {cmds : List Command} (hr : s₀.Runs cmds s) :
    s₀.TerminationFinal cmds ↔ .t ∉ cmds := by
  constructor
  · intro hfinal ht
    exact not_terminationFinal hr ht hfinal
  · rintro ht pre post s₁ p rfl
    exact absurd (by simp) ht

theorem terminationFinal_sample : ∃ s₀, start 16 4 1 = some s₀ ∧
    s₀.TerminationFinal [.A, .m 3, .d 0 [102], .D 0] := by
  obtain ⟨s₀, s, h0, hr, -⟩ := sample_run [.A, .m 3, .d 0 [102], .D 0] (by decide +kernel)
  exact ⟨s₀, h0, (terminationFinal_iff hr).mpr (by simp)⟩

theorem finish_not_final : ∃ s₀ s, start 16 4 1 = some s₀ ∧ s₀.Runs [.A, .t] s ∧
    ¬ s₀.TerminationFinal [.A, .t] := by
  obtain ⟨s₀, s, h0, hr, -⟩ := sample_run [.A, .t] (by decide +kernel)
  exact ⟨s₀, s, h0, hr, not_terminationFinal hr (by simp)⟩

end System

end SchoolProjects.Paging
