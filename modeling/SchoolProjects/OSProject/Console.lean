import SchoolProjects.Lib.Text
import SchoolProjects.OSProject.Machine

/-! The prompts of `main`: the sizes it asks for at the start, and its command loop.
`validateNumber` rejects letters and punctuation only, so that an empty line, blanks,
control characters and long runs of digits reach `stoi` and `stoll`, which throw; and
the index of `D` and `P` is used as it is, while `d` and `p` bring it into the range of
the device. For every reachable prompt it is shown which lines are handled. -/

namespace SchoolProjects.OSProject

open Transition Text

/-- No letter and no punctuation; a byte from 128 on is neither. -/
def validateNumber (x : Text) : Bool := x.all fun c => !(isalpha c || ispunct c)

/-- One round of `getInput`: the size, or 0 to ask again. -/
def getInput (temp : Text) : Except Thrown ℕ :=
  if validateNumber temp then (stoll temp).map uint32 else .ok 0

/-- The argument of a command that takes an index; without one it is `"x"`. -/
def readIndex (tok1 : Text) (command : ℤ → Command) : Except Thrown (Option Command) :=
  if validateNumber tok1 then (stoi tok1).map fun i => some (command (int32 (uint32 i))) else .ok none

/-- The command of the words on a line, `none` when they ask for nothing or are
invalid. -/
def Command.ofWords (command tok1 tok2 : Text) : Except Thrown (Option Command) :=
  if command = ascii "A" then
    if validateNumber tok1 && validateNumber tok2 then do
      let priority ← stoi tok1
      let size ← stoll tok2
      return some (.A priority (uint32 size))
    else .ok none
  else if command = ascii "t" then .ok (some .t)
  else if command = ascii "d" then readIndex tok1 .d
  else if command = ascii "p" then readIndex tok1 .p
  else if command = ascii "D" then readIndex tok1 .D
  else if command = ascii "P" then readIndex tok1 .P
  else .ok none

/-- The words on a line: the command and two arguments, `"x"` where there is none. -/
def lineWords (input : Text) : Text × Text × Text :=
  let (command, ss) := extract (some input) []
  let (tok1, ss) := extract ss (ascii "x")
  let (tok2, _) := extract ss (ascii "x")
  (command, tok1, tok2)

def readCommand (input : Text) : Except Thrown (Option Command) :=
  let (command, tok1, tok2) := lineWords input
  Command.ofWords command tok1 tok2

/-- The index that `sendToDevice` uses. -/
def IODevice.clamp (dev : IODevice) (i : ℤ) : ℤ :=
  if i < 0 then 0 else if dev.size - 1 < i then dev.size - 1 else i

/-- `sendToDevice` passes the clamped index to `addProcess`, if a process runs. -/
theorem sendToDevice_eq (i : ℤ) (dev : IODevice) (s : Sched) :
    CPU.sendToDevice i dev s =
      match s.currentProcess with
      | none => some (dev, s)
      | some p => (dev.addProcess (dev.clamp i) p).map fun dev => (dev, CPU.loadNewProcess s) := rfl

/-- The indices a command passes to `addProcess` or `releaseProcess`, with the device. -/
def Machine.indices (s : Machine) : Command → List (ℤ × IODevice)
  | .d i => if s.sched.currentProcess = none then [] else [(s.harddisks.clamp i, s.harddisks)]
  | .p i => if s.sched.currentProcess = none then [] else [(s.printers.clamp i, s.printers)]
  | .D i => [(i, s.harddisks)]
  | .P i => [(i, s.printers)]
  | _ => []

/-- Where `main` waits for a line. -/
inductive Prompt where
  | memory
  | harddisks (m : ℕ)
  | printers (m disks : ℕ)
  | command (s : Machine)

namespace Prompt

/-- The number of devices as an `int`; a negative one throws in `new`. -/
def devices (n : ℕ) : Option ℕ := if n < 2 ^ 31 then some n else none

/-- What `main` does with a line; `none` when it ends in an exception or undefined
behaviour. -/
def step (p : Prompt) (input : Text) : Option Prompt :=
  match p with
  | memory =>
    (getInput input).toOption.map fun n => if n = 0 then memory else harddisks n
  | harddisks m =>
    (getInput input).toOption.bind fun n =>
      if n = 0 then some (harddisks m) else (devices n).map (printers m)
  | printers m disks =>
    (getInput input).toOption.bind fun n =>
      if n = 0 then some (printers m disks)
      else (devices n).map fun n => command (.start m disks n)
  | command s =>
    (readCommand input).toOption.bind fun c =>
      match c with
      | none => some (command s)
      | some c => (s.step c).map command

/-- The line is handled: nothing is thrown by `stoi` and `stoll`, and every index is in
the range of its device. -/
def Handles (p : Prompt) (input : Text) : Prop :=
  match p with
  | command s => ∃ c, readCommand input = .ok c ∧
      ∀ c' ∈ c, ∀ x ∈ s.indices c', 0 ≤ x.1 ∧ x.1 < x.2.size
  | _ => ∃ n, getInput input = .ok n

/-- A letter or a punctuation character, which `validateNumber` looks for. -/
def Rejected (t : Text) : Prop := ∃ c ∈ t, isalpha c = true ∨ ispunct c = true

/-- The text starts, after white space, with a number below `bound`. -/
def Numeric (bound : ℕ) (t : Text) : Prop := ∃ v < bound, LeadsWith t v

/-- The arguments that a command can be given when there are `disks` and `printers`. -/
def WordsOk (disks printers : ℤ) (command tok1 tok2 : Text) : Prop :=
  if command = ascii "A" then
    Rejected tok1 ∨ Rejected tok2 ∨ (Numeric (2 ^ 31) tok1 ∧ Numeric (2 ^ 63) tok2)
  else if command = ascii "d" ∨ command = ascii "p" then Rejected tok1 ∨ Numeric (2 ^ 31) tok1
  else if command = ascii "D" then Rejected tok1 ∨ Numeric (min (2 ^ 31) disks.toNat) tok1
  else if command = ascii "P" then Rejected tok1 ∨ Numeric (min (2 ^ 31) printers.toNat) tok1
  else True

/-- The condition on a line under which it is handled. -/
def Ok (p : Prompt) (input : Text) : Prop :=
  match p with
  | command s =>
    let (word, tok1, tok2) := lineWords input
    WordsOk s.harddisks.size s.printers.size word tok1 tok2
  | _ => Rejected input ∨ Numeric (2 ^ 63) input

/-! ### The conversions -/

theorem validateNumber_iff (t : Text) : validateNumber t = true ↔ ¬ Rejected t := by
  simp [validateNumber, Rejected, not_or]

theorem unsigned_of_valid {t : Text} (h : validateNumber t = true) : ∀ c ∈ t, c ≠ 45 ∧ c ≠ 43 := by
  intro c hc
  have hp : ispunct c = false := by
    have := List.all_eq_true.mp h c hc
    simp_all
  constructor
  · rintro rfl
    exact absurd hp (by decide)
  · rintro rfl
    exact absurd hp (by decide)

/-- What a conversion behind `validateNumber` gives. -/
theorem sto_valid {t : Text} (h : ¬ Rejected t) (bits : ℕ) (z : ℤ) :
    sto bits t = .ok z ↔ ∃ v : ℕ, z = v ∧ LeadsWith t v ∧ v < 2 ^ bits :=
  sto_unsigned (unsigned_of_valid ((validateNumber_iff t).mpr h)) bits z

theorem exists_sto_valid {t : Text} (h : ¬ Rejected t) (bits : ℕ) :
    (∃ z, sto bits t = .ok z) ↔ Numeric (2 ^ bits) t := by
  simp only [sto_valid h, Numeric]
  constructor
  · rintro ⟨z, v, -, hv, hlt⟩
    exact ⟨v, hlt, hv⟩
  · rintro ⟨v, hlt, hv⟩
    exact ⟨v, v, rfl, hv, hlt⟩

theorem exists_map_ok {ε α β : Type*} (f : α → β) (x : Except ε α) :
    (∃ b, x.map f = .ok b) ↔ ∃ a, x = .ok a := by
  cases x <;> simp [Except.map]

theorem getInput_ok (input : Text) :
    (∃ n, getInput input = .ok n) ↔ Rejected input ∨ Numeric (2 ^ 63) input := by
  unfold getInput
  split_ifs with hv
  · have hr := (validateNumber_iff input).mp hv
    rw [exists_map_ok]
    simp only [hr, false_or]
    exact exists_sto_valid hr 63
  · have hr : Rejected input := not_not.mp (mt (validateNumber_iff input).mpr hv)
    simp [hr]

theorem index_cast {v : ℕ} (hlt : v < 2 ^ 31) : int32 (uint32 (v : ℤ)) = v := by
  rw [uint32_natCast (by omega), int32_of_range (by omega) (by exact_mod_cast hlt)]

/-- The index that is read is the number at the front of the argument. -/
theorem readIndex_ok (tok1 : Text) (f : ℤ → Command) (r : Option Command) :
    readIndex tok1 f = .ok r ↔ (Rejected tok1 ∧ r = none) ∨
      (¬ Rejected tok1 ∧ ∃ v < 2 ^ 31, LeadsWith tok1 v ∧ r = some (f v)) := by
  unfold readIndex
  split_ifs with hv
  · have hr := (validateNumber_iff tok1).mp hv
    have hsto := sto_valid hr 31
    constructor
    · intro h
      cases hi : stoi tok1 with
      | error e =>
        rw [hi] at h
        cases h
      | ok i =>
        rw [hi] at h
        obtain ⟨v, rfl, hlead, hlt⟩ := (hsto i).mp hi
        have hval : some (f (int32 (uint32 (v : ℤ)))) = r := Except.ok.inj h
        rw [index_cast hlt] at hval
        exact Or.inr ⟨hr, v, hlt, hlead, hval.symm⟩
    · rintro (⟨hrej, -⟩ | ⟨-, v, hlt, hlead, rfl⟩)
      · exact absurd hrej hr
      · have hi : stoi tok1 = .ok (v : ℤ) := (hsto v).mpr ⟨v, rfl, hlead, hlt⟩
        rw [hi]
        simp [Except.map, index_cast hlt]
  · have hr : Rejected tok1 := not_not.mp (mt (validateNumber_iff tok1).mpr hv)
    simp [hr, eq_comm]

/-! ### Which lines are handled -/

/-- All indices that a command passes are in range. -/
def InRange (s : Machine) (c : Command) : Prop := ∀ x ∈ s.indices c, 0 ≤ x.1 ∧ x.1 < x.2.size

/-- A command with an index is handled when its argument is rejected, or converts to an
index in range. -/
theorem readIndex_handled (s : Machine) (tok1 : Text) (f : ℤ → Command) :
    (∃ c, readIndex tok1 f = .ok c ∧ ∀ c' ∈ c, InRange s c') ↔
      Rejected tok1 ∨ ∃ v < 2 ^ 31, LeadsWith tok1 v ∧ InRange s (f v) := by
  simp only [readIndex_ok]
  constructor
  · rintro ⟨c, ⟨hr, -⟩ | ⟨-, v, hlt, hlead, rfl⟩, hc⟩
    · exact Or.inl hr
    · exact Or.inr ⟨v, hlt, hlead, hc _ rfl⟩
  · intro h
    by_cases hr : Rejected tok1
    · exact ⟨none, Or.inl ⟨hr, rfl⟩, by simp⟩
    · obtain ⟨v, hlt, hlead, hv⟩ := h.resolve_left hr
      exact ⟨some (f v), Or.inr ⟨hr, v, hlt, hlead, rfl⟩, by simpa using hv⟩

/-- `clamp` brings any index into the range of a device. -/
theorem clamp_range {dev : IODevice} (h : 1 ≤ dev.size) (i : ℤ) :
    0 ≤ dev.clamp i ∧ dev.clamp i < dev.size := by
  unfold IODevice.clamp
  split_ifs <;> omega

/-- The commands that clamp their index. -/
theorem clamped_handled {s : Machine} {dev : IODevice} (hdev : 1 ≤ dev.size) {f : ℤ → Command}
    (hf : ∀ i, s.indices (f i) =
      if s.sched.currentProcess = none then [] else [(dev.clamp i, dev)]) (tok1 : Text) :
    (∃ c, readIndex tok1 f = .ok c ∧ ∀ c' ∈ c, InRange s c') ↔
      Rejected tok1 ∨ Numeric (2 ^ 31) tok1 := by
  have hrange : ∀ i, InRange s (f i) := fun i x hx => by
    rw [hf] at hx
    split_ifs at hx
    · cases hx
    · obtain rfl := List.mem_singleton.mp hx
      exact clamp_range hdev i
  rw [readIndex_handled]
  simp [Numeric, hrange]

/-- The commands that use their index as it is. -/
theorem indexed_handled {s : Machine} {f : ℤ → Command} {size : ℤ}
    (hf : ∀ i, InRange s (f i) ↔ 0 ≤ i ∧ i < size) (tok1 : Text) :
    (∃ c, readIndex tok1 f = .ok c ∧ ∀ c' ∈ c, InRange s c') ↔
      Rejected tok1 ∨ Numeric (min (2 ^ 31) size.toNat) tok1 := by
  rw [readIndex_handled]
  apply or_congr Iff.rfl
  apply exists_congr
  intro v
  rw [hf, lt_min_iff, Int.lt_toNat]
  constructor
  · rintro ⟨hlt, hlead, -, hsize⟩
    exact ⟨⟨hlt, hsize⟩, hlead⟩
  · rintro ⟨⟨hlt, hsize⟩, hlead⟩
    exact ⟨hlt, hlead, by omega, hsize⟩

/-- `A` needs both arguments to convert; no index is passed. -/
theorem create_handled (s : Machine) (tok1 tok2 : Text) :
    (∃ c, Command.ofWords (ascii "A") tok1 tok2 = .ok c ∧ ∀ c' ∈ c, InRange s c') ↔
      Rejected tok1 ∨ Rejected tok2 ∨ (Numeric (2 ^ 31) tok1 ∧ Numeric (2 ^ 63) tok2) := by
  unfold Command.ofWords
  rw [if_pos rfl]
  by_cases hv : (validateNumber tok1 && validateNumber tok2) = true
  · rw [if_pos hv]
    obtain ⟨hv1, hv2⟩ := Bool.and_eq_true_iff.mp hv
    have hr1 := (validateNumber_iff tok1).mp hv1
    have hr2 := (validateNumber_iff tok2).mp hv2
    simp only [hr1, hr2, false_or, ← exists_sto_valid hr1, ← exists_sto_valid hr2]
    constructor
    · rintro ⟨c, h, -⟩
      cases h1 : stoi tok1 with
      | error e =>
        rw [h1] at h
        cases h
      | ok priority =>
        cases h2 : stoll tok2 with
        | error e =>
          rw [h1, h2] at h
          cases h
        | ok size => exact ⟨⟨priority, h1⟩, ⟨size, h2⟩⟩
    · rintro ⟨⟨priority, h1⟩, ⟨size, h2⟩⟩
      have h1 : stoi tok1 = .ok priority := h1
      have h2 : stoll tok2 = .ok size := h2
      rw [h1, h2]
      exact ⟨some (.A priority (uint32 size)), rfl, by simp [InRange, Machine.indices]⟩
  · rw [if_neg hv]
    have hr : Rejected tok1 ∨ Rejected tok2 := by
      by_contra hn
      rw [not_or, ← validateNumber_iff, ← validateNumber_iff] at hn
      exact hv (Bool.and_eq_true_iff.mpr hn)
    exact iff_of_true ⟨none, rfl, by simp⟩ (hr.imp_right Or.inl)

/-- The words of a line are handled under the condition on them. -/
theorem ofWords_handled {s : Machine} (hd : 1 ≤ s.harddisks.size) (hp : 1 ≤ s.printers.size)
    (command tok1 tok2 : Text) :
    (∃ c, Command.ofWords command tok1 tok2 = .ok c ∧ ∀ c' ∈ c, InRange s c') ↔
      WordsOk s.harddisks.size s.printers.size command tok1 tok2 := by
  by_cases hA : command = ascii "A"
  · subst hA
    exact create_handled s tok1 tok2
  by_cases ht : command = ascii "t"
  · subst ht
    exact iff_of_true ⟨some .t, rfl, by simp [InRange, Machine.indices]⟩ trivial
  by_cases hd' : command = ascii "d"
  · subst hd'
    exact clamped_handled hd (fun _ => rfl) tok1
  by_cases hp' : command = ascii "p"
  · subst hp'
    exact clamped_handled hp (fun _ => rfl) tok1
  by_cases hD : command = ascii "D"
  · subst hD
    exact indexed_handled (fun i => by simp [InRange, Machine.indices]) tok1
  by_cases hP : command = ascii "P"
  · subst hP
    exact indexed_handled (fun i => by simp [InRange, Machine.indices]) tok1
  simp [Command.ofWords, WordsOk, hA, ht, hd', hp', hD, hP]

/-- The devices are there once the sizes are read. -/
def HasDevices : Prompt → Prop
  | printers _ disks => 1 ≤ disks
  | command s => 1 ≤ s.harddisks.size ∧ 1 ≤ s.printers.size
  | _ => True

theorem addProcess_size {dev dev' : IODevice} {i : ℤ} {p : ℕ}
    (h : dev.addProcess i p = some dev') : dev'.size = dev.size := by
  unfold IODevice.addProcess at h
  split at h
  · obtain rfl := Option.some.inj h
    rfl
  · cases h

theorem sendToDevice_size {i : ℤ} {dev dev' : IODevice} {sched sched' : Sched}
    (h : CPU.sendToDevice i dev sched = some (dev', sched')) : dev'.size = dev.size := by
  rw [sendToDevice_eq] at h
  split at h
  · obtain ⟨rfl, -⟩ := Prod.mk.inj (Option.some.inj h)
    rfl
  · obtain ⟨dev₁, hadd, heq⟩ := Option.map_eq_some_iff.mp h
    obtain ⟨rfl, -⟩ := Prod.mk.inj heq
    exact addProcess_size hadd

theorem releaseProcess_size {prio : ℕ → Option ℤ} {i : ℤ} {dev dev' : IODevice}
    {sched sched' : Sched} (h : dev.releaseProcess prio i sched = some (dev', sched')) :
    dev'.size = dev.size := by
  unfold IODevice.releaseProcess at h
  split at h
  · cases h
  · obtain ⟨rfl, -⟩ := Prod.mk.inj (Option.some.inj h)
    rfl
  · split at h
    · cases h
    · obtain ⟨sched₁, -, heq⟩ := Option.map_eq_some_iff.mp h
      obtain ⟨rfl, -⟩ := Prod.mk.inj heq
      rfl

/-- No command changes the number of devices. -/
theorem machine_step_sizes {s s' : Machine} {c : Command} (h : s.step c = some s') :
    s'.harddisks.size = s.harddisks.size ∧ s'.printers.size = s.printers.size := by
  cases c with
  | A priority size =>
    simp only [Machine.step, Machine.insert] at h
    split at h
    · cases h
    · obtain rfl := Option.some.inj h
      exact ⟨rfl, rfl⟩
    · obtain ⟨sched, -, rfl⟩ := Option.map_eq_some_iff.mp h
      exact ⟨rfl, rfl⟩
  | t =>
    simp only [Machine.step, Machine.finishProcess] at h
    split at h
    · obtain rfl := Option.some.inj h
      exact ⟨rfl, rfl⟩
    · obtain ⟨mem, -, rfl⟩ := Option.map_eq_some_iff.mp h
      exact ⟨rfl, rfl⟩
  | d i =>
    obtain ⟨⟨dev, sched⟩, hsend, rfl⟩ := Option.map_eq_some_iff.mp h
    exact ⟨sendToDevice_size hsend, rfl⟩
  | p i =>
    obtain ⟨⟨dev, sched⟩, hsend, rfl⟩ := Option.map_eq_some_iff.mp h
    exact ⟨rfl, sendToDevice_size hsend⟩
  | D i =>
    obtain ⟨⟨dev, sched⟩, hrel, rfl⟩ := Option.map_eq_some_iff.mp h
    exact ⟨releaseProcess_size hrel, rfl⟩
  | P i =>
    obtain ⟨⟨dev, sched⟩, hrel, rfl⟩ := Option.map_eq_some_iff.mp h
    exact ⟨rfl, releaseProcess_size hrel⟩

theorem hasDevices_step {p p' : Prompt} {input : Text} (hp : p.HasDevices)
    (h : p.step input = some p') : p'.HasDevices := by
  cases p with
  | memory =>
    obtain ⟨n, -, rfl⟩ := Option.map_eq_some_iff.mp h
    split_ifs <;> trivial
  | harddisks m =>
    obtain ⟨n, -, h⟩ := Option.bind_eq_some_iff.mp h
    split_ifs at h with hn
    · obtain rfl := Option.some.inj h
      trivial
    · obtain ⟨disks, hdev, rfl⟩ := Option.map_eq_some_iff.mp h
      unfold devices at hdev
      split_ifs at hdev
      obtain rfl := Option.some.inj hdev
      exact Nat.one_le_iff_ne_zero.mpr hn
  | printers m disks =>
    obtain ⟨n, -, h⟩ := Option.bind_eq_some_iff.mp h
    split_ifs at h with hn
    · obtain rfl := Option.some.inj h
      exact hp
    · obtain ⟨prts, hdev, rfl⟩ := Option.map_eq_some_iff.mp h
      unfold devices at hdev
      split_ifs at hdev
      obtain rfl := Option.some.inj hdev
      have hdisks : 1 ≤ disks := hp
      constructor
      · simpa [Machine.start, IODevice.new] using hdisks
      · simpa [Machine.start, IODevice.new] using Nat.one_le_iff_ne_zero.mpr hn
  | command s =>
    obtain ⟨c, -, h⟩ := Option.bind_eq_some_iff.mp h
    cases c with
    | none =>
      obtain rfl := Option.some.inj h
      exact hp
    | some c =>
      obtain ⟨s', hs, rfl⟩ := Option.map_eq_some_iff.mp h
      obtain ⟨h1, h2⟩ := machine_step_sizes hs
      exact ⟨h1 ▸ hp.1, h2 ▸ hp.2⟩

/-- At every prompt that is reached, a line is handled exactly under the condition. -/
theorem handles_iff {lines : List Text} {p : Prompt} (hr : Run (ofOption step) memory lines p)
    (input : Text) : p.Handles input ↔ p.Ok input := by
  have hp : p.HasDevices := hr.invariant HasDevices (show HasDevices memory from trivial)
    fun _ _ _ => hasDevices_step
  cases p with
  | memory => exact getInput_ok input
  | harddisks m => exact getInput_ok input
  | printers m disks => exact getInput_ok input
  | command s => exact ofWords_handled hp.1 hp.2 _ _ _

/-- Ten bytes, one disk and one printer. -/
theorem run_small_machine :
    Run (ofOption step) memory [ascii "10", ascii "1", ascii "1"] (command (.start 10 1 1)) := by
  have hten : getInput (ascii "10") = .ok 10 := rfl
  have hone : getInput (ascii "1") = .ok 1 := rfl
  have h10 : step memory (ascii "10") = some (harddisks 10) := by
    simp [step, hten, Except.toOption]
  have h1 : step (harddisks 10) (ascii "1") = some (printers 10 1) := by
    simp [step, hone, Except.toOption, devices]
  have h1' : step (printers 10 1) (ascii "1") = some (command (.start 10 1 1)) := by
    simp [step, hone, Except.toOption, devices]
  exact ((Run.nil.snoc h10).snoc h1).snoc h1'

theorem handles_D_in_range : (command (.start 10 1 1)).Handles (ascii "D 0") := by
  have hdigit : ∀ c ∈ ascii "0", isdigit c = true := fun c hc => by
    rw [List.mem_singleton.mp hc]
    rfl
  have hlead : Numeric (min (2 ^ 31) (1 : ℤ).toNat) (ascii "0") :=
    ⟨0, by norm_num, [], ascii "0", [], rfl, by simp, by simp [ascii], hdigit, by simp [Stops],
      rfl⟩
  exact (handles_iff run_small_machine (ascii "D 0")).mpr (Or.inr hlead)

/-- An empty line makes `stoll` throw at the first prompt, and with one disk `D 5` is
out of range. -/
theorem not_handled : ¬ memory.Handles [] ∧
    Run (ofOption step) memory [ascii "10", ascii "1", ascii "1"] (command (.start 10 1 1)) ∧
      ¬ (command (.start 10 1 1)).Handles (ascii "D 5") := by
  refine ⟨?_, run_small_machine, ?_⟩
  · rintro ⟨n, h⟩
    cases h
  · rintro ⟨c, h, hc⟩
    have hread : readCommand (ascii "D 5") = .ok (some (.D 5)) := by decide +kernel
    obtain rfl := Except.ok.inj (h.symm.trans hread)
    have hlt := (hc (.D 5) rfl (5, (Machine.start 10 1 1).harddisks) (by simp [Machine.indices])).2
    exact absurd hlt (by decide)

end Prompt

end SchoolProjects.OSProject
