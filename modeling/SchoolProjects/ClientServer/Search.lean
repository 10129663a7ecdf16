import SchoolProjects.Lib.CString
import SchoolProjects.Lib.FileDesc
import SchoolProjects.Lib.Loop

/-! The search of the client/server program (`search` in `main.c`). The file is read into a
buffer of 1000 bytes without an end, so the tokens go on in what the buffer held before. A
result `none` is a read outside the buffer or a write past its end. -/

namespace SchoolProjects.ClientServer

open CString Loop

/-- The characters of `" \n"`. -/
def delim (c : UInt8) : Bool := c == 32 || c == 10

def tokenExists : String := "Token exists in DB!\n"

def tokenDoesNotExist : String := "Token does not exist in DB!\n"

/-- The variables of the loop of `search`, and what is printed so far; `save` is where the
next `strtok(NULL, " \n")` starts. -/
structure SearchState where
  buf : Text
  toks : Option ℕ
  save : ℕ
  printed : List String

/-- A call of `strtok` in `search`. -/
def strtokFrom (buf : Text) (save : ℕ) (printed : List String) : Option SearchState :=
  (strtok delim buf save).map fun r => ⟨r.2.1, r.1, r.2.2, printed⟩

/-- A round of the loop, or what follows the loop. -/
def searchBody (name : Text) (s : SearchState) : SearchState ⊕ Option (List String) :=
  match s.toks with
  | none => .inr (some (s.printed ++ [tokenDoesNotExist]))
  | some toks =>
    match stringAt s.buf toks with
    | none => .inr none
    | some t =>
      let printed := if name = t then s.printed ++ [tokenExists] else s.printed
      match strtokFrom s.buf s.save printed with
      | none => .inr none
      | some s => .inl s

/-- The rest of `search` from a call of `strtok`, with its result. -/
def SearchFrom (name buf : Text) (save : ℕ) (printed : List String)
    (r : Option (List String)) : Prop :=
  match strtokFrom buf save printed with
  | none => r = none
  | some s => Ends (searchBody name) s r

/-- `search(name, fd)` prints `r`; the buffer held `memory` before. -/
def Search (name : Text) (fd : FileDesc) (memory : Text) (r : Option (List String)) : Prop :=
  match (fd.seekEnd.seek 0).read memory fd.seekEnd.offset with
  | none => r = none
  | some (buf, _) => SearchFrom name buf 0 [] r

/-- What the rounds of the loop print for some tokens. -/
def report (name : Text) (ws : List Text) : List String :=
  (ws.filter (name = ·)).map fun _ => tokenExists

/-- A round compares one token and goes on. -/
theorem ends_token {name buf t : Text} {toks save : ℕ} (h : stringAt buf toks = some t)
    (printed : List String) (r : Option (List String)) :
    Ends (searchBody name) ⟨buf, some toks, save, printed⟩ r ↔
      SearchFrom name buf save (if name = t then printed ++ [tokenExists] else printed) r := by
  unfold SearchFrom
  split
  · next hs => exact ends_exit_iff (by simp [searchBody, h, hs])
  · next s hs => exact ends_again_iff (by simp [searchBody, h, hs])

theorem report_cons (name w : Text) (ws : List Text) : report name (w :: ws) =
    (if name = w then [tokenExists] else []) ++ report name ws := by
  by_cases h : name = w <;> simp [report, h]

theorem tokenExists_mem_report (name : Text) (ws : List Text) :
    tokenExists ∈ report name ws ↔ name ∈ ws := by
  simp [report]

/-- The loop goes over the tokens of the string at `save`, if the string has an end. -/
theorem searchFrom_iff (name buf : Text) (save : ℕ) (printed : List String)
    (r : Option (List String)) : SearchFrom name buf save printed r ↔
      r = if 0 ∈ buf.drop save then
        some (printed ++ report name (tokens delim (cut (buf.drop save))) ++ [tokenDoesNotExist])
      else none := by
  induction hn : (buf.drop save).length using Nat.strong_induction_on
    generalizing buf save printed with
  | h n ih =>
    have hspec := strtok_spec delim buf save
    obtain ⟨hnext, h0⟩ | ⟨u, hnext, h0, htok⟩ | ⟨w, u, hnext, hlt, h0, htok⟩ :=
      nextToken_cases (show delim 0 = false from rfl) (buf.drop save)
    · -- the buffer has no end
      rw [hnext] at hspec
      rw [SearchFrom, strtokFrom, hspec, if_neg h0]
      rfl
    · -- the last call
      rw [hnext] at hspec
      obtain ⟨save', hspec⟩ := hspec
      rw [SearchFrom, strtokFrom, hspec, if_pos h0, htok]
      have hbody : searchBody name ⟨buf, none, save', printed⟩ =
          .inr (some (printed ++ [tokenDoesNotExist])) := rfl
      show Ends (searchBody name) ⟨buf, none, save', printed⟩ r ↔ _
      rw [ends_exit_iff hbody, report, List.filter_nil, List.map_nil, List.append_nil]
    · rw [hnext] at hspec
      obtain ⟨toks, buf', save', hspec, hw, hu⟩ := hspec
      rw [SearchFrom, strtokFrom, hspec]
      refine (ends_token hw printed r).trans ?_
      rw [ih _ (by rw [hu, ← hn]; exact hlt) buf' save' _ rfl, hu]
      simp only [h0, htok, report_cons]
      by_cases hname : name = w <;> simp [hname]

/-- What `search` prints for a file without NUL. -/
theorem search_iff_report {name memory : Text} {fd : FileDesc} (hmem : memory.length = 1000)
    (hlen : fd.content.length ≤ 999) (hnul : 0 ∉ fd.content) (r : Option (List String)) :
    Search name fd memory r ↔ r = if 0 ∈ memory.drop fd.content.length then
      some (report name (tokens delim (fd.content ++ cut (memory.drop fd.content.length))) ++
        [tokenDoesNotExist]) else none := by
  rw [Search, FileDesc.read_all fd memory (by omega)]
  simp only [searchFrom_iff, List.drop_zero, List.mem_append, hnul, false_or, cut_append hnul,
    List.nil_append]

/-- Both messages are right if and only if the name is no token of the file, and what the
buffer held behind the file has an end and does not make the name a token. -/
theorem search_reports_iff (name memory : Text) (fd : FileDesc) (hmem : memory.length = 1000)
    (hlen : fd.content.length ≤ 999) (hnul : 0 ∉ fd.content) :
    (∃ printed, Search name fd memory (some printed) ∧
      (tokenExists ∈ printed ↔ name ∈ tokens delim fd.content) ∧
      (tokenDoesNotExist ∈ printed ↔ name ∉ tokens delim fd.content)) ↔
    name ∉ tokens delim fd.content ∧ 0 ∈ memory.drop fd.content.length ∧
      name ∉ tokens delim (fd.content ++ cut (memory.drop fd.content.length)) := by
  have hne : tokenExists ≠ tokenDoesNotExist := by decide
  simp only [search_iff_report hmem hlen hnul]
  constructor
  · rintro ⟨printed, hp, hexists, hnot⟩
    split_ifs at hp with hend
    obtain rfl := Option.some.inj hp
    have hfile : name ∉ tokens delim fd.content := hnot.1 (by simp)
    refine ⟨hfile, hend, fun hbuf => hfile (hexists.1 ?_)⟩
    exact List.mem_append_left _ ((tokenExists_mem_report name _).2 hbuf)
  · rintro ⟨hfile, hend, hbuf⟩
    refine ⟨_, (if_pos hend).symm, ?_, ?_⟩
    · simp [tokenExists_mem_report, hfile, hbuf, hne]
    · simp [hfile]

theorem search_reports_iff_absent :
    (∃ printed, Search [98] ⟨[97, 10], 0⟩ (List.replicate 1000 0) (some printed) ∧
      (tokenExists ∈ printed ↔ [98] ∈ tokens delim [97, 10]) ∧
      (tokenDoesNotExist ∈ printed ↔ [98] ∉ tokens delim [97, 10])) ↔
    [98] ∉ tokens delim [97, 10] ∧ 0 ∈ (List.replicate 1000 0 : Text).drop 2 ∧
      [98] ∉ tokens delim ([97, 10] ++ cut ((List.replicate 1000 0).drop 2)) :=
  search_reports_iff [98] (List.replicate 1000 0) ⟨[97, 10], 0⟩ List.length_replicate (by simp)
    (by simp)

/-- A name that is found is reported absent as well. -/
theorem both_messages : ¬ ∀ (name memory : Text) (fd : FileDesc), (∀ c ∈ name, c ≠ 32) →
    memory.length = 1000 → fd.content.length ≤ 999 → 0 ∉ fd.content →
    ∃ printed, Search name fd memory (some printed) ∧
      (tokenExists ∈ printed ↔ name ∈ tokens delim fd.content) ∧
      (tokenDoesNotExist ∈ printed ↔ name ∉ tokens delim fd.content) := by
  intro hall
  obtain ⟨memory, hmem⟩ : ∃ memory : Text, memory.length = 1000 :=
    ⟨List.replicate 1000 0, List.length_replicate⟩
  obtain ⟨printed, hp, -, hnot⟩ :=
    hall [97] memory ⟨[97, 10], 0⟩ (by simp) hmem (by simp) (by simp)
  rw [search_iff_report hmem (by simp) (by simp)] at hp
  split_ifs at hp
  obtain rfl := Option.some.inj hp
  exact hnot.1 (List.mem_append_right _ (List.mem_singleton_self _)) (by decide)

end SchoolProjects.ClientServer
