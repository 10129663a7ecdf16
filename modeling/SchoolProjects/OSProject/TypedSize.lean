import SchoolProjects.OSProject.BackLinks
import SchoolProjects.OSProject.Console

/-! The size typed after command `A`. `main` parses it as a `long long` and stores it in
an `unsigned int`, and `insert` takes any size: a request of 0 bytes creates an empty
process, and one of `2 ^ 32` bytes or more creates a process of the size modulo
`2 ^ 32`. The prompts for the sizes of the machine ask again for a 0. -/

namespace SchoolProjects.OSProject

open LinkedChain Text

namespace Memory

/-- A process that `A` creates from the size word `tok2` has exactly `n` bytes, at least
one, and `root` still leads to every block, except perhaps to the hole it was taken
from. -/
def AllocatesTyped (m : Memory) (bs : List (ℕ × Block)) (tok2 : Text) (n : ℕ) : Prop :=
  ∀ tok1 priority size m' temp,
    Command.ofWords (ascii "A") tok1 tok2 = .ok (some (.A priority size)) →
      m.insert priority size = some (m', some temp) →
        1 ≤ n ∧ ∃ p c x, m'.heap.read temp = some p ∧ p.size = n ∧ (c, x) ∈ bs ∧
          x.empty = true ∧ p.start = x.start ∧
          ∀ b ∈ bs, b.1 ≠ c → Machine.Along m'.heap m'.root b.1

section Words

variable {tok2 : Text}

theorem validateNumber_digits (hdigits : ∀ c ∈ tok2, isdigit c = true) :
    validateNumber tok2 = true := by
  apply List.all_eq_true.mpr
  intro c hc
  have hd := hdigits c hc
  simp only [isdigit, Bool.and_eq_true, decide_eq_true_eq, UInt8.le_iff_toNat_le] at hd
  simp only [isalpha, ispunct, isdigit, Bool.not_eq_true', Bool.or_eq_false_iff,
    Bool.and_eq_false_iff, decide_eq_false_iff_not, UInt8.le_iff_toNat_le, Bool.not_eq_false',
    Bool.and_eq_true, decide_eq_true_eq]
  simp at hd ⊢
  omega

/-- `stoll` gives the number a run of digits stands for. -/
theorem stoll_digits (hne : tok2 ≠ []) (hdigits : ∀ c ∈ tok2, isdigit c = true)
    (hn : value tok2 < 2 ^ 63) : stoll tok2 = .ok (value tok2 : ℤ) := by
  have hsign : ∀ c ∈ tok2, c ≠ 45 ∧ c ≠ 43 := fun c hc =>
    (not_isspace_of_isdigit (hdigits c hc)).2
  refine (sto_unsigned hsign 63 _).mpr ⟨_, rfl, ?_, hn⟩
  exact ⟨[], tok2, [], by simp, by simp, hne, hdigits, by simp [Stops], rfl⟩

/-- The command of `A` with a size word of digits. -/
theorem ofWords_A (hne : tok2 ≠ []) (hdigits : ∀ c ∈ tok2, isdigit c = true)
    (hn : value tok2 < 2 ^ 63) (tok1 : Text) :
    Command.ofWords (ascii "A") tok1 tok2 =
      if validateNumber tok1 then
        (stoi tok1).map fun priority => some (.A priority (value tok2 % 2 ^ 32))
      else .ok none := by
  have hsize : uint32 (value tok2 : ℤ) = value tok2 % 2 ^ 32 := by unfold uint32; omega
  unfold Command.ofWords
  rw [if_pos rfl, validateNumber_digits hdigits, Bool.and_true, stoll_digits hne hdigits hn]
  split_ifs
  · cases stoi tok1 with
    | error e => rfl
    | ok priority => rw [← hsize]; rfl
  · rfl

end Words

section Creation

variable {m : Memory} {bs : List (ℕ × Block)} {size : ℕ}

/-- The first hole that fits, if any fits. -/
theorem exists_first_fit {b : ℕ × Block} (hb : b ∈ bs) (hfit : b.2.Fits size) :
    ∃ l c x r, bs = l ++ ([(c, x)] ++ r) ∧ (∀ b ∈ l, ¬ b.2.Fits size) ∧ x.Fits size := by
  obtain ⟨⟨c, x⟩, l, r, hl, hx, rfl, -⟩ :=
    List.exists_of_eraseP (p := fun b : ℕ × Block => decide (b.2.Fits size)) hb
      (decide_eq_true hfit)
  exact ⟨l, c, x, r, rfl, fun b hb => by simpa using hl b hb, of_decide_eq_true hx⟩

/-- A process is created wherever a hole fits, also for a size of 0. -/
theorem insert_creates (hm : m.WellFormed bs) (priority : ℤ) {b : ℕ × Block} (hb : b ∈ bs)
    (hfit : b.2.Fits size) :
    ∃ m' p, m.insert priority size = some (m', some m.heap.fresh) ∧
      m'.heap.read m.heap.fresh = some p ∧ p.size = size := by
  obtain ⟨l, c, x, r, rfl, hl, hx⟩ := exists_first_fit hb hfit
  have hbound := hm.bound
  have hin : x.start + x.size ≤ m.maxVal := (hm.tiles.mem (by simp)).2.2.2
  have hc : m.heap.read c = some (x.node (last none l) (first r none)) := hm.links.read_mid
  have hroot : int32 (x.node (last none l) (first r none)).start = 0 ↔
      (x.node (last none l) (first r none)).prev = none :=
    (int32_natCast_eq_zero (by simp only [Block.node]; omega)).trans
      (hm.linked.start_eq_zero.trans last_eq_none.symm)
  have hnd := hm.linked.nodup
  simp only [locs_append, locs_cons, locs_nil, List.nodup_append] at hnd
  obtain ⟨m', htake, -, -, -, -, hreads⟩ := takeSpot_reads (clampPriority priority) size hc hroot
    fun q hq => ⟨hnd.2.2 q (mem_of_last hq) c (by simp),
      Option.isSome_iff_exists.mp (hm.links.read_isSome (by simp [mem_of_last hq]))⟩
  have hnew := hreads m.heap.fresh
  rw [if_pos rfl] at hnew
  refine ⟨m', _, ?_, hnew, rfl⟩
  rw [insert_of_firstFit priority hm hl hx, htake]
  rfl

/-- A process of at least one byte has the size asked for, and the blocks other than
the hole it was taken from are still on the way from `root`. -/
theorem insert_keeps (hm : m.WellFormed bs) (priority : ℤ) (hs : 1 ≤ size) {m' : Memory} {temp : ℕ}
    (hins : m.insert priority size = some (m', some temp)) :
    ∃ p c x, m'.heap.read temp = some p ∧ p.size = size ∧ (c, x) ∈ bs ∧ x.empty = true ∧
      p.start = x.start ∧ ∀ b ∈ bs, b.1 ≠ c → Machine.Along m'.heap m'.root b.1 := by
  by_cases hno : ∀ b ∈ bs, ¬ b.2.Fits size
  · rw [insert_of_none priority hm hno] at hins
    cases hins
  push Not at hno
  obtain ⟨b, hb, hfit⟩ := hno
  obtain ⟨l, c, x, r, rfl, hl, hx⟩ := exists_first_fit hb hfit
  obtain ⟨m₁, htake, -, -, hshot⟩ := takeSpot_screenshot (clampPriority priority) hm hs hx
  rw [insert_of_firstFit priority hm hl hx, htake] at hins
  obtain ⟨rfl, rfl⟩ : m₁ = m' ∧ m.heap.fresh = temp := by simpa using hins
  obtain ⟨-, p, hp, hblock⟩ := along_of_screenshotFrom hshot
    (b := (m.heap.fresh, x.taken m.numOfProcesses (clampPriority priority) size)) (by simp)
  refine ⟨p, c, x, hp, congrArg Block.size hblock, by simp, hx.1, congrArg Block.start hblock,
    fun d hd hdc => ?_⟩
  have hmem : d ∈ l ∨ d ∈ r := by
    simp only [List.mem_append, List.mem_singleton] at hd
    rcases hd with hd | rfl | hd
    · exact Or.inl hd
    · exact absurd rfl hdc
    · exact Or.inr hd
  exact (along_of_screenshotFrom hshot (b := d) (by simp only [List.mem_append]; tauto)).1

end Creation

/-- `A` allocates what was typed if and only if the size is at least 1 and below
`2 ^ 32`, or no hole has the size modulo `2 ^ 32`. -/
theorem allocatesTyped_iff (m : Memory) (bs : List (ℕ × Block)) (hm : m.WellFormed bs)
    (tok2 : Text) (hne : tok2 ≠ []) (hdigits : ∀ c ∈ tok2, isdigit c = true)
    (hn : value tok2 < 2 ^ 63) :
    m.AllocatesTyped bs tok2 (value tok2) ↔
      (1 ≤ value tok2 ∧ value tok2 < 2 ^ 32) ∨
        ∀ b ∈ bs, ¬ b.2.Fits (value tok2 % 2 ^ 32) := by
  constructor
  · intro h
    by_contra hcon
    push Not at hcon
    obtain ⟨hsize, b, hb, hfit⟩ := hcon
    obtain ⟨m', p, hins, hp, hpsize⟩ := insert_creates hm 0 hb hfit
    have hcommand : Command.ofWords (ascii "A") (ascii "0") tok2 =
        .ok (some (.A 0 (value tok2 % 2 ^ 32))) := by
      rw [ofWords_A hne hdigits hn]
      rfl
    obtain ⟨hpos, p', c, x, hp', hpsize', -⟩ := h _ _ _ _ _ hcommand hins
    obtain rfl := Option.some.inj (hp.symm.trans hp')
    have := hsize hpos
    omega
  · intro h tok1 priority size m' temp hcommand hins
    rw [ofWords_A hne hdigits hn] at hcommand
    split_ifs at hcommand with hv
    · cases hi : stoi tok1 with
      | error e =>
        rw [hi] at hcommand
        cases hcommand
      | ok i =>
        rw [hi] at hcommand
        obtain ⟨rfl, rfl⟩ : i = priority ∧ value tok2 % 2 ^ 32 = size := by
          simpa [Except.map] using hcommand
        rcases h with ⟨hpos, hlt⟩ | hno
        · rw [Nat.mod_eq_of_lt hlt] at hins
          exact ⟨hpos, insert_keeps hm i hpos hins⟩
        · rw [insert_of_none i hm hno] at hins
          cases hins
    · cases hcommand

theorem allocatesTyped_forty : (Memory.new 100).AllocatesTyped [(0, ⟨-1, 0, 0, 99, 100, true⟩)]
    (ascii "40") 40 :=
  (allocatesTyped_iff (Memory.new 100) _ new_wellFormed (ascii "40") (by decide +kernel)
    (List.all_eq_true.mp (by decide +kernel)) (by decide +kernel)).mpr
      (Or.inl ⟨by decide +kernel, by decide +kernel⟩)

/-- `A 0 0` creates a process of no bytes. -/
theorem allocates_nothing : ¬ ∀ (m : Memory) (bs : List (ℕ × Block)), m.WellFormed bs →
    ∀ tok2 : Text, tok2 ≠ [] → (∀ c ∈ tok2, isdigit c = true) → value tok2 < 2 ^ 63 →
      m.AllocatesTyped bs tok2 (value tok2) := by
  intro h
  have hfit : Block.Fits 0 ⟨-1, 0, 0, 99, 100, true⟩ := ⟨rfl, by decide⟩
  obtain ⟨m', p, hins, -⟩ := insert_creates new_wellFormed 0
    (b := (0, ⟨-1, 0, 0, 99, 100, true⟩)) (by simp) hfit
  have hcommand : Command.ofWords (ascii "A") (ascii "0") (ascii "0") = .ok (some (.A 0 0)) := by
    decide +kernel
  have hpos := (h _ _ new_wellFormed (ascii "0") (by decide +kernel)
    (List.all_eq_true.mp (by decide +kernel)) (by decide +kernel) _ _ _ _ _ hcommand hins).1
  exact absurd hpos (by decide +kernel)

end Memory

end SchoolProjects.OSProject
