import SchoolProjects.Paging.Dispatch

/-! The command loop of `main`, line by line. The word of the command is kept in a
variable declared before the loop, which a line without words leaves as it was: a
blank line runs the last command again, without its arguments. On every other line
the effect depends on the line and the simulated state alone. `none` as a result
stands for an exception that is not caught, or for undefined behaviour. -/

namespace SchoolProjects.Paging

open Transition Text

/-- The command of the words on a line, `none` when it is invalid. -/
def Command.ofWords (command number filename : Text) : Except Thrown (Option Command) :=
  if command = ascii "A" then .ok (some .A)
  else if command = ascii "Q" then .ok (some .Q)
  else if command = ascii "t" then .ok (some .t)
  else if command = ascii "d" then (stoi number).map fun n => some (.d n filename)
  else if command = ascii "D" then (stoi number).map fun n => some (.D n)
  else if command = ascii "m" then (stoi number).map fun n => some (.m n)
  else if command = ascii "S" then .ok (some (.S number))
  else .ok none

/-- The state of the loop: the simulated system and the variable `command`. -/
structure Shell where
  sys : System
  command : Text

namespace Shell

/-- `main` before its loop. -/
def start (s : System) : Shell := ⟨s, []⟩

/-- The loop body, for the line `input`. -/
def line (sh : Shell) (input : Text) : Option Shell :=
  let (command, ss) := extract (some input) sh.command
  let (number, ss) := extract ss []
  let (filename, _) := extract ss []
  match Command.ofWords command number filename with
  | .error _ => none
  | .ok none => some ⟨sh.sys, command⟩
  | .ok (some c) => (sh.sys.step c).map fun sys => ⟨sys, command⟩

/-- The loop from its start over some lines. -/
abbrev Session (s₀ : System) : List Text → Shell → Prop := Run (ofOption line) (start s₀)

/-- The effect of `input` on the simulated state is the same after any two histories
that lead to the same state, from any start; if it is blank, it has none. -/
def HistoryFree (input : Text) : Prop :=
  ∀ (memSize : ℕ) (pgfrSize hardDisks : ℤ) (s₀ s : System) (past past' : List Text)
    (command command' : Text), System.start memSize pgfrSize hardDisks = some s₀ →
    Session s₀ past ⟨s, command⟩ → Session s₀ past' ⟨s, command'⟩ →
    (line ⟨s, command⟩ input).map sys = (line ⟨s, command'⟩ input).map sys ∧
      (input.all isspace = true → (line ⟨s, command⟩ input).map sys = some s)

/-- A line with a word overwrites `command` before it is used. -/
theorem line_of_word {input : Text} (h : ¬ input.all isspace = true) (s : System)
    (command command' : Text) : line ⟨s, command⟩ input = line ⟨s, command'⟩ input := by
  unfold line
  rw [extract_word h command command']

/-- A blank line runs what is in `command`, with empty arguments. -/
theorem line_blank {input : Text} (h : input.all isspace = true) (sh : Shell) :
    sh.line input =
      match Command.ofWords sh.command [] [] with
      | .error _ => none
      | .ok none => some sh
      | .ok (some c) => (sh.sys.step c).map fun sys => ⟨sys, sh.command⟩ := by
  unfold line
  rw [extract_blank h]
  rfl

/-- `m 5` on an idle CPU is refused, and leaves its word in `command`. -/
theorem line_m_refused {s : System} (hc : s.c.currentProcess = none) (command : Text) :
    line ⟨s, command⟩ (ascii "m 5") = some ⟨s, ascii "m"⟩ := by
  have h1 : extract (some (ascii "m 5")) command = (ascii "m", some (ascii " 5")) :=
    (extract_word (by decide) command []).trans (by decide)
  have h2 : extract (some (ascii " 5")) [] = (ascii "5", some []) := by decide
  have hm : Command.ofWords (ascii "m") (ascii "5") [] = .ok (some (.m 5)) := by decide +kernel
  unfold line
  simp only [h1, h2, extract_blank (t := []) rfl, hm]
  simp [System.step, CPU.accessAddress, hc]

/-- From the start `m 5` changes nothing, and a blank line after it throws. -/
theorem blank_line_throws {input : Text} (h : input.all isspace = true) :
    ∃ s₀, System.start 16 4 1 = some s₀ ∧ Session s₀ [] ⟨s₀, []⟩ ∧
      Session s₀ [ascii "m 5"] ⟨s₀, ascii "m"⟩ ∧ line ⟨s₀, []⟩ input = some ⟨s₀, []⟩ ∧
      line ⟨s₀, ascii "m"⟩ input = none := by
  obtain ⟨s₀, hstart⟩ : ∃ s₀, System.start 16 4 1 = some s₀ :=
    Option.isSome_iff_exists.mp (by decide +kernel)
  have hc : s₀.c.currentProcess = none := by
    rw [(System.start_q hstart).1]
    rfl
  have hm : Run (ofOption line) (start s₀) ([] ++ [ascii "m 5"]) ⟨s₀, ascii "m"⟩ :=
    Run.nil.snoc (line_m_refused hc [])
  refine ⟨s₀, hstart, .nil, hm, ?_, ?_⟩
  · rw [line_blank h]
    rfl
  · rw [line_blank h]
    rfl

theorem not_historyFree_of_blank {input : Text} (h : input.all isspace = true) :
    ¬ HistoryFree input := by
  intro hfree
  obtain ⟨s₀, hstart, hpast, hpast', h1, h2⟩ := blank_line_throws h
  have hsame := (hfree 16 4 1 s₀ s₀ _ _ _ _ hstart hpast hpast').1
  rw [h1, h2] at hsame
  cases hsame

/-- The lines whose effect is free of the history are those that are not blank. -/
theorem historyFree_iff (input : Text) : HistoryFree input ↔ ∃ c ∈ input, isspace c = false := by
  have hword : (∃ c ∈ input, isspace c = false) ↔ ¬ input.all isspace = true := by
    simp [List.all_eq_true]
  rw [hword]
  constructor
  · intro hfree hblank
    exact not_historyFree_of_blank hblank hfree
  · intro h memSize pgfrSize hardDisks s₀ s past past' command command' _ _ _
    rw [line_of_word h s command command']
    exact ⟨rfl, fun hblank => absurd hblank h⟩

theorem empty_line_not_historyFree : ¬ HistoryFree [] := not_historyFree_of_blank rfl

end Shell

end SchoolProjects.Paging
