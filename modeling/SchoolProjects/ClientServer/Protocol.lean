import SchoolProjects.Lib.LinkedQueue
import SchoolProjects.Lib.Transition
import SchoolProjects.ClientServer.Requests

/-! Safety of the request queue over every interleaving. The trace of a run says
which requests were enqueued, dequeued, processed and done, in order; `Inv` ties it
to the chain of waiting requests, the server thread and the waiting callers. -/

namespace SchoolProjects.ClientServer

open Transition LinkedQueue

namespace Event

def enqueued : List Event → List ℕ :=
  List.filterMap fun
    | .enqueue _ r _ => some r
    | _ => none

def dequeued : List Event → List ℕ :=
  List.filterMap fun
    | .dequeue r => some r
    | _ => none

def processed : List Event → List ℕ :=
  List.filterMap fun
    | .process r _ => some r
    | _ => none

def completed : List Event → List ℕ :=
  List.filterMap fun
    | .done r => some r
    | _ => none

@[simp] theorem enqueued_append (l l' : List Event) :
    enqueued (l ++ l') = enqueued l ++ enqueued l' := List.filterMap_append

@[simp] theorem dequeued_append (l l' : List Event) :
    dequeued (l ++ l') = dequeued l ++ dequeued l' := List.filterMap_append

@[simp] theorem processed_append (l l' : List Event) :
    processed (l ++ l') = processed l ++ processed l' := List.filterMap_append

@[simp] theorem completed_append (l l' : List Event) :
    completed (l ++ l') = completed l ++ completed l' := List.filterMap_append

theorem mem_processed {tr : List Event} {r : ℕ} :
    r ∈ processed tr ↔ ∃ text, .process r text ∈ tr := by
  unfold processed
  rw [List.mem_filterMap]
  constructor
  · rintro ⟨e, he, hr⟩
    split at hr
    · obtain rfl := Option.some.inj hr
      exact ⟨_, he⟩
    · cases hr
  · rintro ⟨text, h⟩
    exact ⟨_, h, rfl⟩

end Event

open Event

/-- The request the server has taken and not yet processed. -/
def ServerThread.taken : ServerThread → List ℕ
  | .absent => []
  | .fetch => []
  | .serve r => [r]
  | .finish _ _ => []
  | .exited => []

@[simp] theorem ServerThread.taken_fetch : ServerThread.fetch.taken = [] := rfl

@[simp] theorem ServerThread.taken_serve (r : ℕ) : (ServerThread.serve r).taken = [r] := rfl

@[simp] theorem ServerThread.taken_finish (r : ℕ) (operation : ℤ) :
    (ServerThread.finish r operation).taken = [] := rfl

@[simp] theorem State.nextRequest_taken (operation : ℤ) :
    (State.nextRequest operation).taken = [] := by
  unfold State.nextRequest
  split_ifs <;> rfl

namespace State

/-- What callers and the server share of a request. -/
def view (s : State) (r : ℕ) : Option (Option ℤ × List Char) :=
  (s.heap.read r).map fun q => (q.done_flag, q.text)

/-- The queue and the server thread after the trace `tr`. -/
structure Inv (tr : List Event) (s : State) : Prop where
  nodup : (enqueued tr).Nodup
  queue : ∃ q, Chain Request.next s.heap s.server.first q ∧ s.server.last = q.getLast? ∧
    enqueued tr = dequeued tr ++ q
  alloc : ∀ r ∈ enqueued tr, (s.view r).isSome
  taken : dequeued tr = processed tr ++ s.thread.taken
  finishing : ∀ r operation, s.thread = .finish r operation →
    r ∈ processed tr ∧ r ∉ completed tr
  once : (completed tr).Nodup
  after : ∀ r ∈ completed tr, r ∈ processed tr
  absent : s.server.running = 0 → s.thread = .absent
  flag : ∀ r v text, s.view r = some (some v, text) → v ≠ 0 → r ∈ completed tr
  text : ∀ r text, .process r text ∈ tr → ∃ f, s.view r = some (f, text)

/-- A caller waits for a request of its own, whose `done_flag` has been set up. -/
def Waits (tr : List Event) (s : State) : Prop :=
  ∀ t r operation, s.caller t = .waiting r operation →
    .enqueue t r operation ∈ tr ∧ ∃ v text, s.view r = some (some v, text)

theorem start_inv : Inv [] start where
  nodup := List.nodup_nil
  queue := ⟨[], rfl, rfl, rfl⟩
  alloc := by simp [enqueued]
  taken := rfl
  finishing := by simp [start]
  once := List.nodup_nil
  after := by simp [completed]
  absent := fun _ => rfl
  flag := by simp [view, start, Heap.empty]
  text := by simp

theorem start_waits : Waits [] start := by simp [Waits, start]

/-! ### The steps of a caller -/

theorem enqueue_spec {s : State} {r : ℕ} {q : List ℕ}
    (hc : Chain Request.next s.heap s.server.first q) (hl : s.server.last = q.getLast?)
    (hn : q.Nodup) (hr : (s.heap.read r).map Request.next = some none) (hrq : r ∉ q) :
    ∃ s' : State, s.enqueue r = some s' ∧ Chain Request.next s'.heap s'.server.first (q ++ [r]) ∧
      s'.server.last = some r ∧ (∀ a, s'.view a = s.view a) ∧
      s'.thread = s.thread ∧ s'.caller = s.caller ∧ s'.server.running = s.server.running := by
  unfold enqueue
  rcases List.eq_nil_or_concat q with rfl | ⟨q, l, rfl⟩
  · rw [show s.server.first = none from hc]
    exact ⟨_, rfl, ⟨rfl, none, hr, rfl⟩, rfl, fun _ => rfl, rfl, rfl, rfl⟩
  · rw [List.concat_eq_append] at *
    obtain ⟨f, hf⟩ : ∃ f, s.server.first = some f := by
      rw [hc.first_eq]
      cases q <;> simp
    obtain ⟨x, hx⟩ := Option.isSome_iff_exists.mp (hc.read_isSome (a := l) (by simp))
    have hlq : l ∉ q := fun h => by
      simpa using (List.nodup_append.mp hn).2.2 l h l
    have hrl : r ≠ l := fun h => hrq (by simp [h])
    rw [hf, hl, List.getLast?_concat]
    simp only [Heap.modify_of_read _ hx, Option.map_some]
    refine ⟨_, rfl, hc.snoc (fun b hb => ?_) ?_ ?_, rfl, fun a => ?_, rfl, rfl, rfl⟩
    · rw [Heap.read_put, if_neg (by rintro rfl; exact hlq hb)]
    · rw [Heap.read_put, if_pos rfl]; rfl
    · rw [Heap.read_put, if_neg hrl]; exact hr
    · simp only [view, Heap.read_put]
      split_ifs with ha
      · rw [ha, hx]; rfl
      · rfl

variable {tr : List Event} {s s' : State}

theorem Inv.createServer (h : Inv tr s) : Inv tr s.createServer := by
  unfold State.createServer
  split_ifs with hr
  · have htaken : dequeued tr = processed tr ++ ServerThread.fetch.taken := by
      have := h.taken
      rw [h.absent hr] at this
      exact this
    exact ⟨h.nodup, h.queue, h.alloc, htaken, by simp, h.once, h.after, by simp, h.flag, h.text⟩
  · exact h

theorem createServer_caller (s : State) : s.createServer.caller = s.caller := by
  unfold State.createServer
  split_ifs <;> rfl

theorem Inv.view_ne_fresh {r : ℕ} (hr : (s.view r).isSome) : r ≠ s.heap.fresh := by
  obtain ⟨x, hx⟩ := Option.isSome_iff_exists.mp (Option.isSome_map.symm.trans hr)
  exact Heap.ne_fresh hx

/-- A new request goes to the tail of the queue and changes no other request. -/
theorem Inv.enqueue (h : Inv tr s) (t : ℕ) (operation : ℤ) {request : Request}
    (hnext : request.next = none) (hflag : ∀ v, request.done_flag = some v → v = 0) :
    ∃ s' : State, State.enqueue { s with heap := s.heap.alloc request } s.heap.fresh = some s' ∧
      Inv (tr ++ [Event.enqueue t s.heap.fresh operation]) s' ∧ s'.caller = s.caller ∧
      (∀ a, (s.view a).isSome → s'.view a = s.view a) ∧
      s'.view s.heap.fresh = some (request.done_flag, request.text) := by
  obtain ⟨q, hc, hl, hq⟩ := h.queue
  have hqr : ∀ a ∈ q, a ≠ s.heap.fresh := fun a ha =>
    Inv.view_ne_fresh (h.alloc a (by rw [hq]; simp [ha]))
  have hc' : Chain Request.next (s.heap.alloc request) s.server.first q := by
    apply hc.frame
    intro a ha
    rw [Heap.read_alloc_of_ne (hqr a ha)]
  obtain ⟨s', hs', hc'', hl', hview, hthread, hcaller, hrun⟩ :=
    enqueue_spec (s := { s with heap := s.heap.alloc request })
      hc' hl (List.nodup_append.mp (hq ▸ h.nodup)).2.1
      (by simp [hnext]) (fun hm => hqr _ hm rfl)
  have hfresh : s'.view s.heap.fresh = some (request.done_flag, request.text) := by
    rw [hview]; simp [view]
  have hold : ∀ a, (s.view a).isSome → s'.view a = s.view a := by
    intro a ha
    rw [hview]
    simp [view, Inv.view_ne_fresh ha]
  -- a location read after the step is the new one or was there before
  have hcases : ∀ a x, s'.view a = some x → a = s.heap.fresh ∨ s.view a = some x := by
    intro a x hx
    by_cases ha : a = s.heap.fresh
    · exact Or.inl ha
    · rw [hview] at hx
      exact Or.inr (by simpa [view, ha] using hx)
  refine ⟨s', hs', ?_, hcaller, hold, hfresh⟩
  constructor
  case nodup =>
    have hr : s.heap.fresh ∉ enqueued tr := fun hm => Inv.view_ne_fresh (h.alloc _ hm) rfl
    rw [enqueued_append,
      show enqueued [.enqueue t s.heap.fresh operation] = [s.heap.fresh] from rfl,
      ← List.concat_eq_append, List.nodup_concat]
    exact ⟨hr, h.nodup⟩
  case queue =>
    refine ⟨q ++ [s.heap.fresh], hc'', by simp [hl'], ?_⟩
    rw [enqueued_append, dequeued_append, hq]
    simp [enqueued, dequeued]
  case alloc =>
    intro a ha
    rcases List.mem_append.mp (enqueued_append tr _ ▸ ha) with ha | ha
    · rw [hold a (h.alloc a ha)]; exact h.alloc a ha
    · obtain rfl : a = s.heap.fresh := by simpa [enqueued] using ha
      simp [hfresh]
  case taken => simpa [dequeued, processed, hthread] using h.taken
  case finishing => simpa [processed, completed, hthread] using h.finishing
  case once => simpa [completed] using h.once
  case after => simpa [processed, completed] using h.after
  case absent => simpa [hthread, hrun] using h.absent
  case flag =>
    intro a v text ha hv
    rcases hcases a _ ha with rfl | ha
    · rw [hfresh] at ha
      exact absurd (hflag v (Prod.mk.inj (Option.some.inj ha)).1) hv
    · simpa [completed] using h.flag a v text ha hv
  case text =>
    intro a text ha
    obtain ⟨f, hf⟩ := h.text a text (by simpa using ha)
    exact ⟨f, by rw [hold a (by simp [hf]), hf]⟩

theorem Inv.setCaller (h : Inv tr s) (caller : ℕ → Caller) : Inv tr { s with caller := caller } :=
  ⟨h.nodup, h.queue, h.alloc, h.taken, h.finishing, h.once, h.after, h.absent, h.flag, h.text⟩

theorem Waits.mono (h : Waits tr s) (e : Event) (hc : s'.caller = s.caller)
    (hview : ∀ r v text, s.view r = some (some v, text) →
      ∃ v text, s'.view r = some (some v, text)) : Waits (tr ++ [e]) s' := by
  intro t r operation ht
  obtain ⟨he, v, text, hv⟩ := h t r operation (hc ▸ ht)
  exact ⟨List.mem_append_left _ he, hview r v text hv⟩

/-- `server_request` up to its return or first wait. -/
theorem Inv.serverRequest (h : Inv tr s) (hw : Waits tr s) {t : ℕ} (ht : s.caller t = .outside)
    {operation sync : ℤ} {prompt string : Option (List Char)}
    (hfits : s.Fits (.serverRequest t operation sync prompt string)) :
    ∃ (r : ℕ) (s' : State), s.serverRequest t operation sync prompt string =
        some (Event.enqueue t r operation, s') ∧
      Inv (tr ++ [Event.enqueue t r operation]) s' ∧
      Waits (tr ++ [Event.enqueue t r operation]) s' := by
  have hrequest := newRequest_eq operation sync prompt string
  rw [if_neg hfits] at hrequest
  generalize hnew : (⟨none, operation, sync, if sync ≠ 0 then some 0 else none,
    (prompt.map fun p => p.take 32).getD [], []⟩ : Request) = request at hrequest
  have hflag : request.done_flag = if sync ≠ 0 then some 0 else none := by rw [← hnew]
  have hnext : request.next = none := by rw [← hnew]
  have hzero : ∀ v, request.done_flag = some v → v = 0 := by
    intro v hv
    rw [hflag] at hv
    split_ifs at hv
    exact (Option.some.inj hv).symm
  obtain ⟨s', hs', hinv, hcaller, hold, hfresh⟩ := h.createServer.enqueue t operation hnext hzero
  rw [createServer_caller] at hcaller
  have hview : ∀ r v text, s.view r = some (some v, text) →
      ∃ v text, s'.view r = some (some v, text) := by
    intro r v text hv
    have hv' : s.createServer.view r = some (some v, text) := by
      rw [← hv]
      unfold State.createServer
      split_ifs <;> rfl
    exact ⟨v, text, by rw [hold r (by simp [hv']), hv']⟩
  have hw' := hw.mono (.enqueue t s.createServer.heap.fresh operation) hcaller hview
  simp only [State.serverRequest, ht, hrequest, Option.bind_some, hs', Option.map_some]
  refine ⟨_, _, rfl, ?_⟩
  split_ifs with hsync
  · refine ⟨hinv.setCaller _, fun t' r op hwait => ?_⟩
    by_cases htt : t' = t
    · subst htt
      obtain ⟨rfl, rfl⟩ : s.createServer.heap.fresh = r ∧ operation = op := by simpa using hwait
      rw [hflag, if_pos hsync] at hfresh
      exact ⟨by simp, 0, request.text, hfresh⟩
    · exact hw' t' r op (by simpa [Function.update_of_ne htt] using hwait)
  · exact ⟨hinv, hw'⟩

/-- An event that is none of the four leaves the queue as it is. -/
theorem Inv.quiet (h : Inv tr s) {e : Event} (h1 : enqueued [e] = []) (h2 : dequeued [e] = [])
    (h3 : processed [e] = []) (h4 : completed [e] = []) : Inv (tr ++ [e]) s := by
  constructor
  case nodup => simpa [h1] using h.nodup
  case queue => simpa [h1, h2] using h.queue
  case alloc => simpa [h1] using h.alloc
  case taken => simpa [h2, h3] using h.taken
  case finishing => simpa [h3, h4] using h.finishing
  case once => simpa [h4] using h.once
  case after => simpa [h3, h4] using h.after
  case absent => exact h.absent
  case flag => simpa [h4] using h.flag
  case text =>
    intro r text hr
    rcases List.mem_append.mp hr with hr | hr
    · exact h.text r text hr
    · obtain rfl := List.mem_singleton.mp hr
      cases h3

/-- A caller that wakes waits again or returns. -/
theorem Inv.wake (h : Inv tr s) (hw : Waits tr s) {t r : ℕ} {operation : ℤ}
    (ht : s.caller t = .waiting r operation) :
    ∃ (e : Event) (s' : State), s.wake t = some (e, s') ∧ Inv (tr ++ [e]) s' ∧
      Waits (tr ++ [e]) s' := by
  obtain ⟨-, v, text, hv⟩ := hw t r operation ht
  obtain ⟨req, hreq, hflag⟩ := Option.map_eq_some_iff.mp hv
  obtain ⟨hflag, -⟩ := Prod.mk.inj hflag
  simp only [State.wake, ht, hreq, Option.bind_some, hflag, Option.map_some]
  by_cases hv0 : v = 0
  · rw [if_pos hv0]
    exact ⟨_, _, rfl, h.quiet rfl rfl rfl rfl, hw.mono _ rfl fun r v text hv => ⟨v, text, hv⟩⟩
  · rw [if_neg hv0]
    refine ⟨_, _, rfl, (h.quiet rfl rfl rfl rfl).setCaller _, fun t' r op hwait => ?_⟩
    by_cases htt : t' = t
    · subst htt
      simp at hwait
    · obtain ⟨he, hv⟩ := hw t' r op (by simpa [Function.update_of_ne htt] using hwait)
      exact ⟨List.mem_append_left _ he, hv⟩

/-! ### The steps of the server -/

theorem Inv.running (h : Inv tr s) (ht : s.thread ≠ .absent) : s.server.running ≠ 0 :=
  fun hrun => ht (h.absent hrun)

theorem Inv.dequeued_nodup (h : Inv tr s) : (dequeued tr).Nodup := by
  obtain ⟨q, -, -, hq⟩ := h.queue
  exact (List.nodup_append.mp (hq ▸ h.nodup)).1

/-- The server waits on an empty queue and takes the first request otherwise. -/
theorem Inv.fetch (h : Inv tr s) (hw : Waits tr s) (ht : s.thread = .fetch) :
    ∃ (e : Event) (s' : State), s.fetch = some (e, s') ∧ Inv (tr ++ [e]) s' ∧
      Waits (tr ++ [e]) s' := by
  obtain ⟨q, hc, hl, hq⟩ := h.queue
  cases q with
  | nil =>
    simp only [State.fetch, ht, show s.server.first = none from hc]
    exact ⟨_, _, rfl, h.quiet rfl rfl rfl rfl, hw.mono _ rfl fun r v text hv => ⟨v, text, hv⟩⟩
  | cons r rest =>
    obtain ⟨hf, n, hn, hrest⟩ := hc
    obtain ⟨req, hreq, rfl⟩ := Option.map_eq_some_iff.mp hn
    simp only [State.fetch, ht, hf, hreq, Option.map_some]
    refine ⟨_, _, rfl, ?_, hw.mono _ rfl fun r v text hv => ⟨v, text, hv⟩⟩
    have hlast : (if req.next = none then none else s.server.last) = rest.getLast? := by
      rw [hrest.first_eq, hl]
      cases rest <;> simp
    have htaken : dequeued tr = processed tr := by simpa [ht] using h.taken
    constructor
    case nodup => simpa [enqueued] using h.nodup
    case queue =>
      refine ⟨rest, hrest, hlast, ?_⟩
      rw [enqueued_append, dequeued_append, hq]
      simp [enqueued, dequeued]
    case alloc => simpa [enqueued, view] using h.alloc
    case taken =>
      rw [dequeued_append, processed_append, htaken]
      simp [dequeued, processed]
    case finishing => simp
    case once => simpa [completed] using h.once
    case after => simpa [completed, processed] using h.after
    case absent => exact fun hrun => absurd hrun (h.running (by simp [ht]))
    case flag => simpa [completed, view] using h.flag
    case text => simpa [view] using h.text

section Put

variable {r : ℕ} {req req' : Request}

/-- Writing a request back with its link unchanged keeps the chain. -/
theorem chain_put (hreq : s.heap.read r = some req) (hnext : req'.next = req.next)
    {f : Option ℕ} {q : List ℕ} (hc : Chain Request.next s.heap f q) :
    Chain Request.next (s.heap.put r (some req') (Heap.lt_fresh hreq)) f q := by
  apply hc.frame
  intro a _
  rw [Heap.read_put]
  split_ifs with ha
  · rw [ha, hreq]; simp [hnext]
  · rfl

theorem view_put (hreq : s.heap.read r = some req) (server : Server) (thread : ServerThread)
    (caller : ℕ → Caller) (a : ℕ) :
    view ⟨s.heap.put r (some req') (Heap.lt_fresh hreq), server, thread, caller⟩ a =
      if a = r then some (req'.done_flag, req'.text) else s.view a := by
  unfold view
  rw [Heap.read_put]
  split_ifs <;> rfl

/-- Writing a request back leaves the queue as it is. -/
theorem Inv.put (h : Inv tr s) (req' : Request) (hreq : s.heap.read r = some req)
    (hnext : req'.next = req.next) (thread : ServerThread) {e : Event} (h1 : enqueued [e] = [])
    (h2 : dequeued [e] = []) :
    (enqueued (tr ++ [e])).Nodup ∧
    (∃ q, Chain Request.next (s.heap.put r (some req') (Heap.lt_fresh hreq)) s.server.first q ∧
      s.server.last = q.getLast? ∧ enqueued (tr ++ [e]) = dequeued (tr ++ [e]) ++ q) ∧
    ∀ a ∈ enqueued (tr ++ [e]), (view ⟨s.heap.put r (some req') (Heap.lt_fresh hreq), s.server,
      thread, s.caller⟩ a).isSome := by
  obtain ⟨q, hc, hl, hq⟩ := h.queue
  rw [enqueued_append, dequeued_append, h1, h2, List.append_nil, List.append_nil]
  refine ⟨h.nodup, ⟨q, chain_put hreq hnext hc, hl, hq⟩, fun a ha => ?_⟩
  rw [view_put hreq]
  split_ifs
  · rfl
  · exact h.alloc a ha

/-- Callers go on waiting when a `done_flag` that is set up stays set up. -/
theorem Waits.put (hw : Waits tr s) (hreq : s.heap.read r = some req)
    (hflag : ∀ v, req.done_flag = some v → ∃ v', req'.done_flag = some v')
    (thread : ServerThread) (e : Event) :
    Waits (tr ++ [e])
      ⟨s.heap.put r (some req') (Heap.lt_fresh hreq), s.server, thread, s.caller⟩ := by
  apply hw.mono e (by rfl)
  intro a v text hv
  rw [view_put hreq]
  split_ifs with har
  · rw [view, har, hreq] at hv
    obtain ⟨hv, -⟩ := Prod.mk.inj (Option.some.inj hv)
    obtain ⟨v', hv'⟩ := hflag v hv
    exact ⟨v', req'.text, by rw [hv']⟩
  · exact ⟨v, text, hv⟩

end Put

/-- The request the server works on has been dequeued and not been processed. -/
theorem Inv.taken_serve (h : Inv tr s) {r : ℕ} (ht : s.thread = .serve r) :
    dequeued tr = processed tr ++ [r] ∧ r ∉ processed tr := by
  have htaken : dequeued tr = processed tr ++ [r] := by simpa [ht] using h.taken
  have hn := h.dequeued_nodup
  rw [htaken, ← List.concat_eq_append, List.nodup_concat] at hn
  exact ⟨htaken, hn.1⟩

theorem Inv.read_taken (h : Inv tr s) {r : ℕ} (hr : r ∈ dequeued tr) :
    ∃ req, s.heap.read r = some req := by
  obtain ⟨q, -, -, hq⟩ := h.queue
  apply Option.isSome_iff_exists.mp
  have := h.alloc r (by rw [hq]; exact List.mem_append_left _ hr)
  simpa [view] using this

/-- The server processes the request it has taken. -/
theorem Inv.serve (h : Inv tr s) (hw : Waits tr s) {r : ℕ} (ht : s.thread = .serve r)
    {line : Option (List Char)} (hfits : s.Fits (.serve line)) :
    ∃ (text : List Char) (s' : State), s.serve line = some (Event.process r text, s') ∧
      Inv (tr ++ [Event.process r text]) s' ∧ Waits (tr ++ [Event.process r text]) s' := by
  obtain ⟨htaken, hnew⟩ := h.taken_serve ht
  obtain ⟨req, hreq⟩ := h.read_taken (r := r) (by rw [htaken]; simp)
  have hswitch : (switch req line).isSome := by
    rw [switch_isSome_iff]
    rintro hread w rfl
    exact hfits r req ht hreq hread
  obtain ⟨req', hreq'⟩ := Option.isSome_iff_exists.mp hswitch
  simp only [State.serve, ht, hreq, Option.bind_some, hreq', Heap.modify_of_read _ hreq,
    Option.map_some]
  obtain ⟨prompt, text, rfl⟩ := switch_cases hreq'
  refine ⟨text, _, rfl, ?_, hw.put hreq (by exact fun v hv => ⟨v, hv⟩) _ _⟩
  obtain ⟨hnodup, hqueue, halloc⟩ :=
    h.put { req with prompt := prompt, text := text } hreq rfl
      (if req.synchronous = 1 then .finish r req.operation else nextRequest req.operation)
      (e := .process r text) rfl rfl
  constructor
  case nodup => exact hnodup
  case queue => exact hqueue
  case alloc => exact halloc
  case taken =>
    rw [dequeued_append, processed_append, htaken]
    split_ifs <;> simp [dequeued, processed]
  case finishing =>
    intro a op ha
    obtain rfl : a = r := by
      split_ifs at ha with hs
      · exact (ServerThread.finish.inj ha).1.symm
      · unfold nextRequest at ha
        split_ifs at ha
    exact ⟨by simp [processed], fun hm => hnew (h.after a (by simpa [completed] using hm))⟩
  case once => simpa [completed] using h.once
  case after =>
    intro a ha
    rw [processed_append]
    exact List.mem_append_left _ (h.after a (by simpa [completed] using ha))
  case absent => exact fun hrun => absurd hrun (h.running (by simp [ht]))
  case flag =>
    intro a v text' ha hv
    rw [view_put hreq] at ha
    rw [completed_append]
    apply List.mem_append_left
    split_ifs at ha with har
    · obtain ⟨hf, -⟩ := Prod.mk.inj (Option.some.inj ha)
      rw [har]
      exact h.flag r v req.text (by simp [view, hreq, ← hf]) hv
    · exact h.flag a v text' ha hv
  case text =>
    intro a text' ha
    rw [view_put hreq]
    rcases List.mem_append.mp ha with ha | ha
    · have har : a ≠ r := fun har => hnew (har ▸ mem_processed.mpr ⟨text', ha⟩)
      rw [if_neg har]
      exact h.text a text' ha
    · obtain ⟨rfl, rfl⟩ : a = r ∧ text' = text := by simpa using ha
      exact ⟨_, if_pos rfl⟩

/-- The server sets the `done_flag` of the request it has processed. -/
theorem Inv.finish (h : Inv tr s) (hw : Waits tr s) {r : ℕ} {operation : ℤ}
    (ht : s.thread = .finish r operation) :
    ∃ s' : State, s.finish = some (Event.done r, s') ∧ Inv (tr ++ [Event.done r]) s' ∧
      Waits (tr ++ [Event.done r]) s' := by
  have htaken : dequeued tr = processed tr := by simpa [ht] using h.taken
  obtain ⟨hr, hnew⟩ := h.finishing r operation ht
  obtain ⟨req, hreq⟩ := h.read_taken (r := r) (by rw [htaken]; exact hr)
  simp only [State.finish, ht, Heap.modify_of_read _ hreq, Option.map_some]
  refine ⟨_, rfl, ?_, hw.put hreq (by exact fun _ _ => ⟨1, rfl⟩) _ _⟩
  obtain ⟨hnodup, hqueue, halloc⟩ :=
    h.put { req with done_flag := some 1 } hreq rfl (nextRequest operation)
      (e := .done r) rfl rfl
  constructor
  case nodup => exact hnodup
  case queue => exact hqueue
  case alloc => exact halloc
  case taken =>
    rw [dequeued_append, processed_append, htaken]
    simp [dequeued, processed]
  case finishing =>
    intro a op ha
    unfold nextRequest at ha
    split_ifs at ha
  case once =>
    rw [completed_append, show completed [.done r] = [r] from rfl, ← List.concat_eq_append,
      List.nodup_concat]
    exact ⟨hnew, h.once⟩
  case after =>
    intro a ha
    rw [processed_append]
    apply List.mem_append_left
    rcases List.mem_append.mp (completed_append tr _ ▸ ha) with ha | ha
    · exact h.after a ha
    · obtain rfl : a = r := by simpa [completed] using ha
      exact hr
  case absent => exact fun hrun => absurd hrun (h.running (by simp [ht]))
  case flag =>
    intro a v text' ha hv
    rw [view_put hreq] at ha
    rw [completed_append]
    split_ifs at ha with har
    · exact List.mem_append_right _ (by simp [completed, har])
    · exact List.mem_append_left _ (h.flag a v text' ha hv)
  case text =>
    intro a text' ha
    obtain ⟨f, hf⟩ := h.text a text' (by simpa using ha)
    rw [view_put hreq]
    split_ifs with har
    · rw [har, view, hreq] at hf
      obtain ⟨-, htext⟩ := Prod.mk.inj (Option.some.inj hf)
      exact ⟨some 1, by rw [htext]⟩
    · exact ⟨f, hf⟩

/-! ### Runs -/

/-- A step of any thread keeps the invariant. -/
theorem Inv.step (h : Inv tr s) (hw : Waits tr s) {e : Event} (hs : Step s e s') :
    Inv (tr ++ [e]) s' ∧ Waits (tr ++ [e]) s' := by
  obtain ⟨a, ha⟩ := hs
  -- the step that was taken is the one the lemma of its function describes
  have hdet : ∀ {e₁ s₁}, s.exec a = some (e₁, s₁) → Inv (tr ++ [e₁]) s₁ → Waits (tr ++ [e₁]) s₁ →
      Inv (tr ++ [e]) s' ∧ Waits (tr ++ [e]) s' := by
    intro e₁ s₁ h₁ hi hw
    obtain ⟨rfl, rfl⟩ := Prod.mk.inj (Option.some.inj (h₁.symm.trans ha))
    exact ⟨hi, hw⟩
  cases a with
  | serverRequest t operation sync prompt string =>
    cases ht : s.caller t with
    | outside =>
      obtain ⟨r, s₁, h₁, hi, hw₁⟩ := h.serverRequest hw ht (fits_of_exec ha)
      exact hdet h₁ hi hw₁
    | waiting r op => simp [exec, State.serverRequest, ht] at ha
  | wake t =>
    cases ht : s.caller t with
    | outside => simp [exec, State.wake, ht] at ha
    | waiting r op =>
      obtain ⟨e₁, s₁, h₁, hi, hw₁⟩ := h.wake hw ht
      exact hdet h₁ hi hw₁
  | fetch =>
    cases ht : s.thread with
    | fetch =>
      obtain ⟨e₁, s₁, h₁, hi, hw₁⟩ := h.fetch hw ht
      exact hdet h₁ hi hw₁
    | _ => simp [exec, State.fetch, ht] at ha
  | serve line =>
    cases ht : s.thread with
    | serve r =>
      obtain ⟨text, s₁, h₁, hi, hw₁⟩ := h.serve hw ht (fits_of_exec ha)
      exact hdet h₁ hi hw₁
    | _ => simp [exec, State.serve, ht] at ha
  | finish =>
    cases ht : s.thread with
    | finish r op =>
      obtain ⟨s₁, h₁, hi, hw₁⟩ := h.finish hw ht
      exact hdet h₁ hi hw₁
    | _ => simp [exec, State.finish, ht] at ha

theorem run_inv (hr : Run Step start tr s) : Inv tr s ∧ Waits tr s :=
  hr.history (fun tr s => Inv tr s ∧ Waits tr s) ⟨start_inv, start_waits⟩
    fun _ _ _ _ _ h hs => h.1.step h.2 hs

/-- What the event of a step says about the state before it. -/
inductive Emits (s : State) : Event → Prop
  | enqueue (t r : ℕ) (operation : ℤ) : Emits s (.enqueue t r operation)
  | wait : Emits s .wait
  | returns {t r : ℕ} {operation v : ℤ} {text : List Char} {string : Option (List Char)} :
      s.caller t = .waiting r operation → s.view r = some (some v, text) → v ≠ 0 →
      string = (if operation = READ_REQUEST then some text else none) →
      Emits s (.returns t r string)
  | dequeue (r : ℕ) : Emits s (.dequeue r)
  | process {r : ℕ} (text : List Char) : s.thread = .serve r → Emits s (.process r text)
  | done (r : ℕ) : Emits s (.done r)

theorem step_emits {e : Event} (hs : Step s e s') : Emits s e := by
  obtain ⟨a, ha⟩ := hs
  cases a with
  | serverRequest t operation sync prompt string =>
    simp only [exec, State.serverRequest] at ha
    split at ha
    · cases ha
    · obtain ⟨_, -, hmap⟩ := Option.bind_eq_some_iff.mp ha
      obtain ⟨_, -, he⟩ := Option.map_eq_some_iff.mp hmap
      cases (Prod.mk.inj he).1
      exact .enqueue t _ operation
  | wake t =>
    simp only [exec, State.wake] at ha
    split at ha
    · cases ha
    · next r operation ht =>
      obtain ⟨req, hreq, hmap⟩ := Option.bind_eq_some_iff.mp ha
      obtain ⟨v, hv, he⟩ := Option.map_eq_some_iff.mp hmap
      by_cases hv0 : v = 0
      · rw [if_pos hv0] at he
        cases (Prod.mk.inj he).1
        exact .wait
      · rw [if_neg hv0] at he
        cases (Prod.mk.inj he).1
        exact .returns ht (by simp [view, hreq, hv]) hv0 rfl
  | fetch =>
    simp only [exec, State.fetch] at ha
    split at ha
    · split at ha
      · cases ha
        exact .wait
      · obtain ⟨_, -, he⟩ := Option.map_eq_some_iff.mp ha
        cases (Prod.mk.inj he).1
        exact .dequeue _
    · cases ha
  | serve line =>
    simp only [exec, State.serve] at ha
    split at ha
    · next ht =>
      obtain ⟨_, -, hbind⟩ := Option.bind_eq_some_iff.mp ha
      obtain ⟨_, -, hmap⟩ := Option.bind_eq_some_iff.mp hbind
      obtain ⟨_, -, he⟩ := Option.map_eq_some_iff.mp hmap
      cases (Prod.mk.inj he).1
      exact .process _ ht
    · cases ha
  | finish =>
    simp only [exec, State.finish] at ha
    split at ha
    · obtain ⟨_, -, he⟩ := Option.map_eq_some_iff.mp ha
      cases (Prod.mk.inj he).1
      exact .done _
    · cases ha

/-- A caller that returns does so with its own request processed and done. -/
theorem Inv.returns (h : Inv tr s) (hw : Waits tr s) {t r : ℕ} {string : Option (List Char)}
    (hs : Step s (.returns t r string) s') :
    ∃ operation text, .enqueue t r operation ∈ tr ∧ .process r text ∈ tr ∧
      (completed tr).count r = 1 ∧
      string = if operation = READ_REQUEST then some text else none := by
  cases step_emits hs with
  | @returns _ _ operation v text _ ht hview hv hstring =>
    have hdone := h.flag r v text hview hv
    obtain ⟨text', hp⟩ := mem_processed.mp (h.after r hdone)
    obtain ⟨f, hf⟩ := h.text r text' hp
    have htext : text = text' := by
      rw [hview] at hf
      exact (Prod.mk.inj (Option.some.inj hf)).2
    exact ⟨operation, text, (hw t r operation ht).1, htext ▸ hp,
      List.count_eq_one_of_mem h.once hdone, hstring⟩

/-- When a request is processed, those enqueued before it are exactly the ones
processed before. -/
theorem Inv.process (h : Inv tr s) {r : ℕ} {text : List Char} (hs : Step s (.process r text) s')
    {l₁ l₂ : List ℕ} (hl : enqueued tr = l₁ ++ r :: l₂) : processed tr = l₁ := by
  cases step_emits hs with
  | process _ ht =>
    obtain ⟨q, -, -, hq⟩ := h.queue
    have htaken : dequeued tr = processed tr ++ [r] := by simpa [ht] using h.taken
    have heq : l₁ ++ r :: l₂ = processed tr ++ r :: q := by
      rw [← hl, hq, htaken]; simp
    obtain ⟨-, hn, hdisj⟩ := List.nodup_append.mp (hl ▸ h.nodup)
    have hr₁ : r ∉ l₁ := fun hm => hdisj r hm r (by simp) rfl
    have hr₂ : r ∉ l₂ := (List.nodup_cons.mp hn).1
    exact ((List.append_cons_inj_of_notMem hr₁ hr₂).mp heq).1.symm

/-- A thread that does not wait for the lock is never stuck: no step follows a null or
dangling pointer, and all are defined but those that write behind the end of a request. -/
theorem Inv.exec_isSome_iff (h : Inv tr s) (hw : Waits tr s) {a : Action} (ha : s.Enabled a) :
    (s.exec a).isSome ↔ s.Fits a := by
  constructor
  · intro hsome
    obtain ⟨⟨e, s'⟩, hs⟩ := Option.isSome_iff_exists.mp hsome
    exact fits_of_exec hs
  · intro hfits
    cases a with
    | serverRequest t operation sync prompt string =>
      obtain ⟨r, s', hs, -⟩ := h.serverRequest hw ha hfits
      simp [exec, hs]
    | wake t =>
      obtain ⟨r, operation, ht⟩ := ha
      obtain ⟨e, s', hs, -⟩ := h.wake hw ht
      simp [exec, hs]
    | fetch =>
      obtain ⟨e, s', hs, -⟩ := h.fetch hw ha
      simp [exec, hs]
    | serve line =>
      obtain ⟨r, ht⟩ := ha
      obtain ⟨text, s', hs, -⟩ := h.serve hw ht hfits
      simp [exec, hs]
    | finish =>
      obtain ⟨r, operation, ht⟩ := ha
      obtain ⟨s', hs, -⟩ := h.finish hw ht
      simp [exec, hs]

/-- Requests are dequeued in the order in which they were enqueued and are otherwise still
in the chain; `last` is the final node of the chain; a caller returns with its own request
processed, done once and read back; and a request, a `QUIT_REQUEST` in particular, is
processed when exactly those enqueued before it have been. -/
structure Protocol (tr : List Event) (s : State) : Prop where
  nodup : (enqueued tr).Nodup
  queue : ∃ q, Chain Request.next s.heap s.server.first q ∧ s.server.last = q.getLast? ∧
    enqueued tr = dequeued tr ++ q
  empty : s.server.first = none ↔ s.server.last = none
  once : ∀ r, (completed tr).count r ≤ 1
  returns : ∀ t r string s', Step s (.returns t r string) s' →
    ∃ operation text, .enqueue t r operation ∈ tr ∧ .process r text ∈ tr ∧
      (completed tr).count r = 1 ∧
      string = if operation = READ_REQUEST then some text else none
  process : ∀ r text s', Step s (.process r text) s' →
    ∀ l₁ l₂, enqueued tr = l₁ ++ r :: l₂ → processed tr = l₁

theorem Inv.protocol (h : Inv tr s) (hw : Waits tr s) : Protocol tr s where
  nodup := h.nodup
  queue := h.queue
  empty := by
    obtain ⟨q, hc, hl, -⟩ := h.queue
    rw [hc.first_eq, hl]
    cases q <;> simp
  once r := List.nodup_iff_count_le_one.mp h.once r
  returns _ _ _ _ hs := h.returns hw hs
  process _ _ _ hs _ _ hl := h.process hs hl

end State

end SchoolProjects.ClientServer
