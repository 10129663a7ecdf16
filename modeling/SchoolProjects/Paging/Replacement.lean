import SchoolProjects.Lib.Lru
import SchoolProjects.Lib.Transition
import SchoolProjects.Paging.Memory

/-! Page replacement is least-recently-used. The table of frames with the log of
creations and accesses is an `Lru` table; the timestamp of an occupied frame is the
time of the last use of its page, and every call is a step of the `Lru` rule. -/

namespace SchoolProjects.Paging

open Transition

/-- A page of a process: `(pid, page)`. -/
abbrev Key := ℤ × ℤ

def PageEntry.key (e : PageEntry) : Key := (e.pid, e.page)

namespace Memory

/-- Frame `i` holds the entry `e`, and its timestamp says that it is in use. -/
def Occupied (m : Memory) (i : ℕ) (e : PageEntry) : Prop :=
  m.pageTable[i]? = some (some e) ∧ e.timeSlice ≠ -1

def frameKey : Option PageEntry → Option Key
  | none => none
  | some e => if e.timeSlice = -1 then none else some e.key

/-- The table seen as an `Lru` table; `uses` are the creations and accesses so far. -/
def lru (m : Memory) (uses : List Key) : Lru Key := ⟨m.pageTable.map frameKey, uses⟩

def Resident (m : Memory) (k : Key) : Prop := ∃ i e, m.Occupied i e ∧ e.key = k

theorem frameKey_eq_some {x : Option PageEntry} {k : Key} :
    frameKey x = some k ↔ ∃ e, x = some e ∧ e.timeSlice ≠ -1 ∧ e.key = k := by
  cases x with
  | none => simp [frameKey]
  | some e => simp [frameKey]

theorem lru_frame {m : Memory} {uses : List Key} {i : ℕ} {k : Key} :
    (m.lru uses).frames[i]? = some (some k) ↔ ∃ e, m.Occupied i e ∧ e.key = k := by
  simp only [lru, List.getElem?_map, Option.map_eq_some_iff, Occupied, frameKey_eq_some]
  constructor
  · rintro ⟨_, hx, e, rfl, ht, hk⟩
    exact ⟨e, ⟨hx, ht⟩, hk⟩
  · rintro ⟨e, ⟨hx, ht⟩, hk⟩
    exact ⟨some e, hx, e, rfl, ht, hk⟩

theorem mem_lru_frames {m : Memory} {uses : List Key} {k : Key} :
    some k ∈ (m.lru uses).frames ↔ m.Resident k := by
  rw [List.mem_iff_getElem?]
  simp only [lru_frame, Resident]

/-! ### The two loops -/

/-- The loop returns the first of the frames with the least timestamp below `min`,
and `index` when there is none. -/
theorem leastUsedFrom_spec {rest : List (Option PageEntry)} (hn : none ∉ rest)
    (i : ℕ) (min index : ℤ) :
    (leastUsedFrom rest i min index = index ∧ ∀ e, some e ∈ rest → min ≤ e.timeSlice) ∨
    ∃ j e, rest[j]? = some (some e) ∧ leastUsedFrom rest i min index = (i + j : ℕ) ∧
      e.timeSlice < min ∧ ∀ j' e', rest[j']? = some (some e') →
        e.timeSlice ≤ e'.timeSlice ∧ (j' < j → e.timeSlice < e'.timeSlice) := by
  induction rest generalizing i min index with
  | nil => exact Or.inl ⟨rfl, by simp⟩
  | cons x rest ih =>
    cases x with
    | none => simp at hn
    | some e =>
      have hn' : none ∉ rest := fun h => hn (List.mem_cons_of_mem _ h)
      unfold leastUsedFrom
      split_ifs with hmin
      · rcases ih hn' (i + 1) e.timeSlice i with ⟨hr, hall⟩ | ⟨j, e₁, hj, hr, hlt, hall⟩
        · refine Or.inr ⟨0, e, rfl, hr, hmin, fun j' e' hj' => ⟨?_, by omega⟩⟩
          cases j' with
          | zero =>
            obtain rfl : e = e' := by simpa using hj'
            exact le_rfl
          | succ j' => exact hall e' (List.mem_of_getElem? (by simpa using hj'))
        · refine Or.inr ⟨j + 1, e₁, by simpa using hj, by rw [hr]; congr 1; omega,
            hlt.trans hmin, fun j' e' hj' => ?_⟩
          cases j' with
          | zero =>
            obtain rfl : e = e' := by simpa using hj'
            exact ⟨hlt.le, fun _ => hlt⟩
          | succ j' =>
            have := hall j' e' (by simpa using hj')
            exact ⟨this.1, fun h => this.2 (by omega)⟩
      · have hge : min ≤ e.timeSlice := by omega
        rcases ih hn' (i + 1) min index with ⟨hr, hall⟩ | ⟨j, e₁, hj, hr, hlt, hall⟩
        · refine Or.inl ⟨hr, fun e' he' => ?_⟩
          rcases List.mem_cons.mp he' with h | h
          · obtain rfl : e' = e := Option.some.inj h
            exact hge
          · exact hall e' h
        · refine Or.inr ⟨j + 1, e₁, by simpa using hj, by rw [hr]; congr 1; omega,
            hlt, fun j' e' hj' => ?_⟩
          cases j' with
          | zero =>
            obtain rfl : e = e' := by simpa using hj'
            exact ⟨by omega, fun _ => by omega⟩
          | succ j' =>
            have := hall j' e' (by simpa using hj')
            exact ⟨this.1, fun h => this.2 (by omega)⟩

/-- Started with `index = -1` the loop never changes `index`: it finds the page or
ends with `-1`, whatever frames are free. -/
theorem findPage_spec (pid page : ℤ) (rest : List (Option PageEntry)) (i : ℕ) :
    (∃ j e, rest[j]? = some (some e) ∧ e.key = (pid, page) ∧
      findPage pid page rest i (-1) = .inl (i + j)) ∨
    ((∀ e, some e ∈ rest → e.key ≠ (pid, page)) ∧ findPage pid page rest i (-1) = .inr (-1)) := by
  induction rest generalizing i with
  | nil => exact Or.inr ⟨by simp, rfl⟩
  | cons x rest ih =>
    have hindex : (if isFree x = true ∧ (-1 : ℤ) ≠ -1 then (i : ℤ) else -1) = -1 := by simp
    unfold findPage
    simp only [hindex]
    split_ifs with hx
    · cases x with
      | none => cases hx
      | some e =>
        obtain ⟨h1, h2⟩ : pid = e.pid ∧ page = e.page := by simpa [holds] using hx
        exact Or.inl ⟨0, e, rfl, by simp [PageEntry.key, h1, h2], rfl⟩
    · rcases ih (i + 1) with ⟨j, e, hj, hk, hr⟩ | ⟨hall, hr⟩
      · exact Or.inl ⟨j + 1, e, by simpa using hj, hk, by rw [hr]; congr 1; omega⟩
      · refine Or.inr ⟨fun e he hk => ?_, hr⟩
        rcases List.mem_cons.mp he with rfl | he
        · simp [holds, ← (Prod.mk.inj hk).1, ← (Prod.mk.inj hk).2] at hx
        · exact hall e he hk

/-! ### The invariant -/

/-- The state of the table after the creations and accesses `uses`. -/
structure Tracks (m : Memory) (uses : List Key) : Prop where
  entries : none ∉ m.pageTable
  frames : m.pageTable ≠ []
  pageSize : m.pageSize ≠ 0
  wf : (m.lru uses).Wf
  stamp : ∀ i e, m.Occupied i e → e.timeSlice = Lru.lastUse uses e.key
  free : ∀ e, some e ∈ m.pageTable → e.timeSlice = -1 → e.pid = -1
  clock : m.timeSlice = uses.length
  pids : ∀ k ∈ uses, 1 ≤ k.1 ∧ k.1 ≤ m.processCounter

section Tracks

variable {m : Memory} {uses : List Key}

theorem Tracks.entry (h : m.Tracks uses) {i : ℕ} (hi : i < m.pageTable.length) :
    ∃ e, m.pageTable[i]? = some (some e) := by
  cases hx : m.pageTable[i] with
  | none => exact absurd (hx ▸ List.getElem_mem hi) h.entries
  | some e => exact ⟨e, by rw [List.getElem?_eq_getElem hi, hx]⟩

theorem Tracks.stamp_range (h : m.Tracks uses) {i : ℕ} {e : PageEntry} (he : m.Occupied i e) :
    0 < e.timeSlice ∧ e.timeSlice ≤ uses.length := by
  have hk : e.key ∈ uses := h.wf.used _ (mem_lru_frames.mpr ⟨i, e, he, rfl⟩)
  have h0 := Lru.lastUse_pos hk
  have h1 := Lru.lastUse_le uses e.key
  rw [h.stamp i e he]
  omega

theorem Tracks.free_frame (h : m.Tracks uses) {i : ℕ} :
    (m.lru uses).frames[i]? = some none ↔
      ∃ e, m.pageTable[i]? = some (some e) ∧ e.timeSlice = -1 := by
  simp only [lru, List.getElem?_map, Option.map_eq_some_iff]
  constructor
  · rintro ⟨x, hx, hk⟩
    cases x with
    | none => exact absurd (List.mem_of_getElem? hx) h.entries
    | some e => exact ⟨e, hx, by simpa [frameKey] using hk⟩
  · rintro ⟨e, hx, ht⟩
    exact ⟨some e, hx, by simp [frameKey, ht]⟩

/-- `leastUsedFrame` is the victim. -/
theorem Tracks.leastUsedFrame (h : m.Tracks uses) (hn : uses.length < 2 ^ 31 - 1) :
    ∃ (i : ℕ) (e : PageEntry), m.leastUsedFrame = i ∧ m.pageTable[i]? = some (some e) ∧
      (m.lru uses).Victim i := by
  have hrange : ∀ (j : ℕ) (e : PageEntry), m.pageTable[j]? = some (some e) →
      e.timeSlice = -1 ∨ (0 < e.timeSlice ∧ e.timeSlice ≤ uses.length) := by
    intro j e he
    by_cases ht : e.timeSlice = -1
    · exact Or.inl ht
    · exact Or.inr (h.stamp_range ⟨he, ht⟩)
  obtain ⟨e₀, he₀⟩ := h.entry (List.length_pos_iff.mpr h.frames)
  rcases leastUsedFrom_spec h.entries 0 (2 ^ 31 - 1) (-1) with ⟨-, hall⟩ | ⟨i, e, hi, hr, -, hall⟩
  · have h1 := hall e₀ (List.mem_of_getElem? he₀)
    rcases hrange 0 e₀ he₀ with ht | ht <;> omega
  · refine ⟨i, e, by simpa [Memory.leastUsedFrame] using hr, hi, ?_⟩
    by_cases ht : e.timeSlice = -1
    · -- a free frame, and the ones before it have a larger timestamp
      refine Or.inl ⟨h.free_frame.mpr ⟨e, hi, ht⟩, fun j hj hfree => ?_⟩
      obtain ⟨e', he', ht'⟩ := h.free_frame.mp hfree
      have hlt := (hall j e' he').2 hj
      omega
    · -- every frame is occupied, and its timestamp is the time of its last use
      refine Or.inr ⟨fun hfree => ?_, e.key, lru_frame.mpr ⟨e, ⟨hi, ht⟩, rfl⟩, fun k' hk' hne => ?_⟩
      · obtain ⟨j, hj⟩ := List.mem_iff_getElem?.mp hfree
        obtain ⟨e', he', ht'⟩ := h.free_frame.mp hj
        have hle := (hall j e' he').1
        rcases hrange i e hi with h1 | h1 <;> omega
      · obtain ⟨j, e', he', rfl⟩ := mem_lru_frames.mp hk'
        have hle := (hall j e' he'.1).1
        rw [h.stamp i e ⟨hi, ht⟩, h.stamp j e' he'] at hle
        have hused := h.wf.used _ (mem_lru_frames.mpr ⟨i, e, ⟨hi, ht⟩, rfl⟩)
        exact Lru.lastUse_lt hused hne (by exact_mod_cast hle)

end Tracks

end Memory

end SchoolProjects.Paging
