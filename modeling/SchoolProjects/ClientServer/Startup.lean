import SchoolProjects.Lib.Transition

/-! The start-up and shutdown of the clients (`main` and the end of
`client_routine` in `main.c`). The creation loop reads `client_threads`, the number
the finished clients decrement, so how many clients it creates depends on how the
threads interleave. Requests are left out: a client may finish at any time. -/

namespace SchoolProjects.ClientServer

open Transition

def CLIENT_THREADS : ℤ := 4

inductive Client
  | running
  | finished
deriving DecidableEq, Repr

/-- Where `main` is: at the test of the creation loop, past it and about to create
client `count`, in the wait loop, or past it. -/
inductive MainThread
  | test
  | create
  | wait
  | quit
deriving DecidableEq, Repr

/-- `clients` are the clients created so far. -/
structure Startup where
  client_threads : ℤ
  count : ℕ
  main : MainThread
  clients : List Client
deriving DecidableEq, Repr

namespace Startup

def start : Startup := ⟨CLIENT_THREADS, 0, .test, []⟩

/-- `read` and `create` are steps of the creation loop, `decrement i` is the locked
section at the end of client `i`, and `quit` leaves the wait loop. -/
inductive Event
  | read
  | create
  | decrement (i : ℕ)
  | quit
deriving DecidableEq, Repr

def step (s : Startup) : Event → Option Startup
  | .read =>
    if s.main = .test then
      some { s with main := if s.count < s.client_threads then .create else .wait }
    else none
  | .create =>
    if s.main = .create then
      some { s with
        main := .test
        count := s.count + 1
        clients := s.clients ++ [.running] }
    else none
  | .decrement i =>
    if s.clients[i]? = some .running then
      some { s with
        client_threads := s.client_threads - 1
        clients := s.clients.set i .finished }
    else none
  | .quit =>
    if s.main = .wait ∧ s.client_threads ≤ 0 then some { s with main := .quit } else none

/-- The creation loop has ended, and so has every client it created. -/
def Ended (s : Startup) : Prop :=
  (s.main = .wait ∨ s.main = .quit) ∧ ∀ c ∈ s.clients, c = .finished

/-- Some client finished before the loop had read `client_threads` as often as there
are clients to create. -/
def Early (tr : List Event) : Prop :=
  ∃ l₁ i l₂, tr = l₁ ++ .decrement i :: l₂ ∧ (l₁.count .read : ℤ) < CLIENT_THREADS

def decrements (tr : List Event) : ℕ :=
  tr.countP fun
    | .decrement _ => true
    | _ => false

theorem early_concat {tr : List Event} {e : Event} :
    Early (tr ++ [e]) ↔
      Early tr ∨ (∃ i, e = .decrement i) ∧ (tr.count .read : ℤ) < CLIENT_THREADS := by
  constructor
  · rintro ⟨l₁, i, l₂, h, hlt⟩
    rcases List.eq_nil_or_concat l₂ with rfl | ⟨l₂, e', rfl⟩
    · obtain ⟨rfl, he⟩ := List.append_inj' h rfl
      exact Or.inr ⟨⟨i, by simpa using he⟩, hlt⟩
    · have h' : tr ++ [e] = (l₁ ++ .decrement i :: l₂) ++ [e'] := by simpa using h
      exact Or.inl ⟨l₁, i, l₂, (List.append_inj' h' rfl).1, hlt⟩
  · rintro (⟨l₁, i, l₂, rfl, hlt⟩ | ⟨⟨i, rfl⟩, hlt⟩)
    · exact ⟨l₁, i, l₂ ++ [e], by simp, hlt⟩
    · exact ⟨tr, i, [], rfl, hlt⟩

/-- A decrement in a trace with few reads came early. -/
theorem early_of_decrements {tr : List Event} (h : 0 < decrements tr)
    (hlt : (tr.count .read : ℤ) < CLIENT_THREADS) : Early tr := by
  obtain ⟨e, he, hd⟩ := List.countP_pos_iff.mp h
  obtain ⟨l₁, l₂, rfl⟩ := List.append_of_mem he
  cases e with
  | decrement i =>
    refine ⟨l₁, i, l₂, rfl, ?_⟩
    simp only [List.count_append] at hlt
    omega
  | _ => cases hd

theorem Early.decrements_pos {tr : List Event} (h : Early tr) : 0 < decrements tr := by
  obtain ⟨l₁, i, l₂, rfl, -⟩ := h
  exact List.countP_pos_iff.mpr ⟨.decrement i, by simp, rfl⟩

/-- `main` has read `client_threads` once more than it has created clients, unless
it is about to read it. -/
structure Inv (tr : List Event) (s : Startup) : Prop where
  created : s.clients.length = s.count
  finished : s.clients.count .finished = decrements tr
  threads : s.client_threads = CLIENT_THREADS - decrements tr
  reads : tr.count .read = s.count + if s.main = .test then 0 else 1
  bound : (s.count : ℤ) + (if s.main = .create then 1 else 0) ≤ CLIENT_THREADS
  early : Early tr → (s.count : ℤ) + (if s.main = .create then 1 else 0) < CLIENT_THREADS
  ended : s.main = .wait ∨ s.main = .quit → ¬ Early tr → CLIENT_THREADS ≤ s.count

theorem start_inv : Inv [] start := by
  refine ⟨rfl, rfl, rfl, rfl, by decide, ?_, by simp [start]⟩
  rintro ⟨l₁, i, l₂, h, -⟩
  simp at h

section Step

variable {tr : List Event} {s s' : Startup}

theorem Inv.read (h : Inv tr s) (hs : s.step .read = some s') : Inv (tr ++ [Event.read]) s' := by
  have hearly : Early (tr ++ [Event.read]) ↔ Early tr := by simp [early_concat]
  have hdec : decrements (tr ++ [Event.read]) = decrements tr := by simp [decrements]
  obtain ⟨hm, hs⟩ : s.main = .test ∧
      some { s with main := if s.count < s.client_threads then .create else .wait } = some s' := by
    simpa [step] using hs
  obtain rfl := Option.some.inj hs
  have hreads := h.reads
  have hthreads := h.threads
  have hbound := h.bound
  simp only [hm, ↓reduceIte, add_zero, reduceCtorEq] at hreads hbound
  by_cases hlt : (s.count : ℤ) < s.client_threads
  · simp only [if_pos hlt]
    refine ⟨h.created, by rw [hdec]; exact h.finished, by rw [hdec]; exact hthreads,
      by simp [hreads], ?_, fun he => ?_, by simp⟩
    · simp only [↓reduceIte]; omega
    · have := (hearly.mp he).decrements_pos
      simp only [↓reduceIte]; omega
  · simp only [if_neg hlt]
    refine ⟨h.created, by rw [hdec]; exact h.finished, by rw [hdec]; exact hthreads,
      by simp [hreads], by simpa using hbound, fun he => ?_, fun _ hne => ?_⟩
    · simpa [hm] using h.early (hearly.mp he)
    · -- the loop ends before its time only after a decrement
      by_contra hcount
      dsimp only at hcount
      exact hne (hearly.mpr (early_of_decrements (by omega) (by omega)))

theorem Inv.create (h : Inv tr s) (hs : s.step .create = some s') :
    Inv (tr ++ [Event.create]) s' := by
  have hearly : Early (tr ++ [Event.create]) ↔ Early tr := by simp [early_concat]
  have hdec : decrements (tr ++ [Event.create]) = decrements tr := by simp [decrements]
  obtain ⟨hm, hs⟩ : s.main = .create ∧ some (⟨s.client_threads, s.count + 1, .test,
      s.clients ++ [.running]⟩ : Startup) = some s' := by
    simpa [step] using hs
  obtain rfl := Option.some.inj hs
  refine ⟨by simp [h.created], by simpa [hdec] using h.finished, by rw [hdec]; exact h.threads,
    by simpa [hm] using h.reads, by simpa [hm] using h.bound, fun he => ?_, by simp⟩
  simpa [hm] using h.early (hearly.mp he)

theorem Inv.decrement (h : Inv tr s) {i : ℕ} (hs : s.step (.decrement i) = some s') :
    Inv (tr ++ [Event.decrement i]) s' := by
  have hdec : decrements (tr ++ [Event.decrement i]) = decrements tr + 1 := by simp [decrements]
  obtain ⟨hi, hs⟩ : s.clients[i]? = some .running ∧
      some (⟨s.client_threads - 1, s.count, s.main, s.clients.set i .finished⟩ : Startup) =
        some s' := by
    simpa [step] using hs
  obtain rfl := Option.some.inj hs
  obtain ⟨hlt, hget⟩ := List.getElem?_eq_some_iff.mp hi
  refine ⟨by simp [h.created], ?_, ?_, by simpa using h.reads, h.bound, fun he => ?_,
    fun hm hne => h.ended hm fun he => hne (early_concat.mpr (Or.inl he))⟩
  · rw [List.count_set hlt, hdec, ← h.finished, hget]
    simp
  · rw [hdec, h.threads]; push_cast; ring
  · rcases early_concat.mp he with he | ⟨-, hlt⟩
    · exact h.early he
    · have hreads := h.reads
      dsimp only
      cases hm : s.main <;> simp [hm] at hreads ⊢ <;> omega

theorem Inv.quit (h : Inv tr s) (hs : s.step .quit = some s') : Inv (tr ++ [Event.quit]) s' := by
  have hearly : Early (tr ++ [Event.quit]) ↔ Early tr := by simp [early_concat]
  have hdec : decrements (tr ++ [Event.quit]) = decrements tr := by simp [decrements]
  obtain ⟨⟨hm, -⟩, hs⟩ : (s.main = .wait ∧ s.client_threads ≤ 0) ∧
      some { s with main := .quit } = some s' := by
    simpa [step] using hs
  obtain rfl := Option.some.inj hs
  refine ⟨h.created, by rw [hdec]; exact h.finished, by rw [hdec]; exact h.threads,
    by simpa [hm] using h.reads, by simpa [hm] using h.bound, fun he => ?_,
    fun _ hne => h.ended (Or.inl hm) fun he => hne (hearly.mpr he)⟩
  simpa [hm] using h.early (hearly.mp he)

theorem Inv.step (h : Inv tr s) {e : Event} (hs : s.step e = some s') : Inv (tr ++ [e]) s' := by
  cases e with
  | read => exact h.read hs
  | create => exact h.create hs
  | decrement i => exact h.decrement hs
  | quit => exact h.quit hs

end Step

/-- Once the loop and all clients it created have ended, `client_threads` is `0`
exactly when no client finished before the loop's last read. -/
theorem run_ended_iff {tr : List Event} {s : Startup} (hr : Run (ofOption step) start tr s)
    (he : s.Ended) : s.client_threads = 0 ↔ ¬ Early tr := by
  have h := hr.history Inv start_inv fun _ _ _ _ _ hi hs => hi.step hs
  obtain ⟨hm, hall⟩ := he
  have hfin : s.clients.count .finished = s.clients.length :=
    List.count_eq_length.mpr fun c hc => (hall c hc).symm
  have hcount : (decrements tr : ℤ) = s.count := by
    rw [← h.finished, hfin, h.created]
  have hthreads := h.threads
  have hbound := h.bound
  constructor
  · intro h0 hearly
    have := h.early hearly
    rcases hm with hm | hm <;> simp [hm] at this <;> omega
  · intro hne
    have := h.ended hm hne
    rcases hm with hm | hm <;> simp [hm] at hbound <;> omega

/-- Four clients are created before the first of them finishes. -/
theorem run_ended_iff_all :
    ¬ Early [.read, .create, .read, .create, .read, .create, .read, .create, .decrement 2, .read,
      .decrement 0, .decrement 3, .decrement 1] := by
  have hr : Run (ofOption step) start _
      ⟨0, 4, .wait, [.finished, .finished, .finished, .finished]⟩ :=
    (run_iff_foldlM step start [.read, .create, .read, .create, .read, .create, .read, .create,
      .decrement 2, .read, .decrement 0, .decrement 3, .decrement 1] _).mpr (by decide +kernel)
  exact (run_ended_iff hr ⟨Or.inl rfl, by decide⟩).mp rfl

/-- Client `0` finishes while the loop has created two clients: only three are
created, and `client_threads` stays at `1`. -/
theorem early_client_blocks :
    ¬ ∀ tr s, Run (ofOption step) start tr s → s.Ended → s.client_threads = 0 := by
  intro hall
  have hr : Run (ofOption step) start _ ⟨1, 3, .wait, [.finished, .finished, .finished]⟩ :=
    (run_iff_foldlM step start [.read, .create, .read, .create, .decrement 0, .read, .create,
      .read, .decrement 1, .decrement 2] _).mpr (by decide +kernel)
  have := hall _ _ hr ⟨Or.inl rfl, by decide⟩
  cases this

end Startup

end SchoolProjects.ClientServer
