import SchoolProjects.ClientServer.Protocol

/-! The condition variables of the client/server program. In `Requests` a waiting thread
may wake at any time; here it is blocked until it is signalled or wakes for no reason.
The two systems have the same traces, so the protocol holds of this one. No wake-up is
lost: no thread is blocked while the condition it waits for holds, and when the server
can do nothing more every caller that waits has its request done, unless the server has
left and the request is still queued. -/

namespace SchoolProjects.ClientServer

open Transition LinkedQueue Event

namespace State

/-! ### What the steps do to the flags of a request -/

/-- Whether a request is synchronous, and its `done_flag`. -/
def marks (s : State) (r : ℕ) : Option (ℤ × Option ℤ) :=
  (s.heap.read r).map fun q => (q.synchronous, q.done_flag)

section Cases

variable {s s' : State} {e : Event} {t : ℕ} {operation sync : ℤ} {q : List ℕ}

theorem marks_put {r : ℕ} {req req' : Request} (hreq : s.heap.read r = some req) (server : Server)
    (thread : ServerThread) (caller : ℕ → Caller) (a : ℕ) :
    marks ⟨s.heap.put r (some req') (Heap.lt_fresh hreq), server, thread, caller⟩ a =
      if a = r then some (req'.synchronous, req'.done_flag) else s.marks a := by
  unfold marks
  rw [Heap.read_put]
  split_ifs <;> rfl

/-- Appending a node changes the links only. -/
theorem enqueue_cases {r : ℕ} (h : s.enqueue r = some s') :
    s'.thread = s.thread ∧ s'.caller = s.caller ∧ ∀ a, s'.marks a = s.marks a := by
  unfold enqueue at h
  split at h
  · obtain rfl := Option.some.inj h
    exact ⟨rfl, rfl, fun _ => rfl⟩
  · split at h
    · cases h
    · next l _ =>
      obtain ⟨heap, hmod, rfl⟩ := Option.map_eq_some_iff.mp h
      cases hl : s.heap.read l with
      | none =>
        unfold Heap.modify at hmod
        split at hmod
        · cases hmod
        · next x hx => simp [hl] at hx
      | some x =>
        rw [Heap.modify_of_read _ hl] at hmod
        obtain rfl := Option.some.inj hmod
        refine ⟨rfl, rfl, fun a => ?_⟩
        rw [marks_put hl]
        split_ifs with ha
        · rw [ha, marks, hl]
          rfl
        · rfl

theorem serverRequest_cases {prompt string : Option (List Char)}
    (h : s.serverRequest t operation sync prompt string = some (e, s')) :
    s.caller t = .outside ∧ e = .enqueue t s.heap.fresh operation ∧
      s'.thread = s.createServer.thread ∧
      s'.caller = (if sync ≠ 0 then
        Function.update s.caller t (.waiting s.heap.fresh operation) else s.caller) ∧
      ∀ a, s'.marks a = if a = s.heap.fresh then some (sync, if sync ≠ 0 then some 0 else none)
        else s.marks a := by
  have h₀ := h
  unfold serverRequest at h
  split at h
  · cases h
  · next ht =>
    obtain ⟨request, hrequest, h⟩ := Option.bind_eq_some_iff.mp h
    have hfits := fits_of_exec (s := s) (a := .serverRequest t operation sync prompt string) h₀
    rw [newRequest_eq, if_neg hfits] at hrequest
    obtain rfl := Option.some.inj hrequest
    obtain ⟨s₁, hs₁, h⟩ := Option.map_eq_some_iff.mp h
    obtain ⟨rfl, rfl⟩ := Prod.mk.inj h
    obtain ⟨hthread, hcaller, hmarks⟩ := enqueue_cases hs₁
    have hheap : s.createServer.heap = s.heap := by
      unfold createServer
      split_ifs <;> rfl
    have hmarks' (a : ℕ) : s₁.marks a = if a = s.heap.fresh then
        some (sync, if sync ≠ 0 then some 0 else none) else s.marks a := by
      rw [hmarks, marks, Heap.read_alloc, hheap]
      by_cases ha : a = s.heap.fresh
      · rw [if_pos ha, if_pos ha]
        rfl
      · rw [if_neg ha, if_neg ha]
        rfl
    rw [createServer_caller] at hcaller
    refine ⟨ht, by rw [hheap], ?_, ?_, fun a => ?_⟩
    · split_ifs <;> exact hthread
    · rw [hheap, ← hcaller]
      split_ifs <;> rfl
    · rw [← hmarks']
      split_ifs <;> rfl

theorem wake_cases (h : s.wake t = some (e, s')) : ∃ r operation sync v,
    s.caller t = .waiting r operation ∧ s.marks r = some (sync, some v) ∧
      (v = 0 ∧ e = .wait ∧ s' = s ∨ v ≠ 0 ∧ (∃ string, e = .returns t r string) ∧
        s' = { s with caller := Function.update s.caller t .outside }) := by
  unfold wake at h
  split at h
  · cases h
  · next r operation ht =>
    obtain ⟨req, hreq, h⟩ := Option.bind_eq_some_iff.mp h
    obtain ⟨v, hv, h⟩ := Option.map_eq_some_iff.mp h
    refine ⟨r, operation, req.synchronous, v, ht, by rw [marks, hreq, ← hv]; rfl, ?_⟩
    by_cases hv0 : v = 0
    · rw [if_pos hv0] at h
      obtain ⟨rfl, rfl⟩ := Prod.mk.inj h
      exact Or.inl ⟨hv0, rfl, rfl⟩
    · rw [if_neg hv0] at h
      obtain ⟨rfl, rfl⟩ := Prod.mk.inj h
      exact Or.inr ⟨hv0, ⟨_, rfl⟩, rfl⟩

theorem fetch_cases (hc : Chain Request.next s.heap s.server.first q)
    (h : s.fetch = some (e, s')) : s.thread = .fetch ∧
      (q = [] ∧ e = .wait ∧ s' = s ∨ ∃ r rest, q = r :: rest ∧ e = .dequeue r ∧
        s'.thread = .serve r ∧ s'.heap = s.heap ∧ s'.caller = s.caller ∧
        Chain Request.next s'.heap s'.server.first rest) := by
  unfold fetch at h
  split at h
  · next ht =>
    refine ⟨ht, ?_⟩
    cases q with
    | nil =>
      rw [show s.server.first = none from hc] at h
      obtain ⟨rfl, rfl⟩ := Prod.mk.inj (Option.some.inj h)
      exact Or.inl ⟨rfl, rfl, rfl⟩
    | cons r rest =>
      obtain ⟨hf, n, hn, hrest⟩ := hc
      obtain ⟨req, hreq, rfl⟩ := Option.map_eq_some_iff.mp hn
      simp only [hf, hreq, Option.map_some] at h
      obtain ⟨rfl, rfl⟩ := Prod.mk.inj (Option.some.inj h)
      exact Or.inr ⟨r, rest, rfl, rfl, rfl, rfl, rfl, hrest⟩
  · cases h

theorem serve_cases {line : Option (List Char)}
    (hc : Chain Request.next s.heap s.server.first q) (h : s.serve line = some (e, s')) :
    ∃ r text operation sync flag, s.thread = .serve r ∧ e = .process r text ∧
      s.marks r = some (sync, flag) ∧ (∀ a, s'.marks a = s.marks a) ∧
      s'.thread = (if sync = 1 then .finish r operation else nextRequest operation) ∧
      s'.caller = s.caller ∧ Chain Request.next s'.heap s'.server.first q := by
  unfold serve at h
  split at h
  · next r ht =>
    obtain ⟨req, hreq, h⟩ := Option.bind_eq_some_iff.mp h
    obtain ⟨req', hreq', h⟩ := Option.bind_eq_some_iff.mp h
    obtain ⟨prompt, text, rfl⟩ := switch_cases hreq'
    simp only [Heap.modify_of_read _ hreq, Option.map_some] at h
    obtain ⟨rfl, rfl⟩ := Prod.mk.inj (Option.some.inj h)
    refine ⟨r, _, req.operation, req.synchronous, req.done_flag, ht, rfl, by rw [marks, hreq]; rfl,
      fun a => (marks_put hreq _ _ _ a).trans ?_, rfl, rfl, chain_put hreq (by rfl) hc⟩
    by_cases ha : a = r
    · rw [if_pos ha, ha, marks, hreq]
      rfl
    · rw [if_neg ha]
  · cases h

theorem finish_cases (hc : Chain Request.next s.heap s.server.first q)
    (h : s.finish = some (e, s')) : ∃ r operation sync flag, s.thread = .finish r operation ∧
      e = .done r ∧ s.marks r = some (sync, flag) ∧
      (∀ a, s'.marks a = if a = r then some (sync, some 1) else s.marks a) ∧
      s'.thread = nextRequest operation ∧ s'.caller = s.caller ∧
      Chain Request.next s'.heap s'.server.first q := by
  unfold finish at h
  split at h
  · next r operation ht =>
    obtain ⟨heap, hmod, h⟩ := Option.map_eq_some_iff.mp h
    cases hr : s.heap.read r with
    | none =>
      unfold Heap.modify at hmod
      split at hmod
      · cases hmod
      · next x hx => simp [hr] at hx
    | some req =>
      rw [Heap.modify_of_read _ hr] at hmod
      obtain rfl := Option.some.inj hmod
      obtain ⟨rfl, rfl⟩ := Prod.mk.inj h
      exact ⟨r, operation, req.synchronous, req.done_flag, ht, rfl, by rw [marks, hr]; rfl,
        fun a => marks_put hr _ _ _ a, rfl, rfl, chain_put hr (by rfl) hc⟩
  · cases h

end Cases

/-! ### Requests that are settled -/

/-- Callers wait for synchronous requests; a synchronous request that was processed is
done, or about to be; and a request that is done says so. -/
structure Settled (tr : List Event) (s : State) : Prop where
  sync : ∀ t r operation, s.caller t = .waiting r operation → ∃ flag, s.marks r = some (1, flag)
  processed : ∀ r ∈ processed tr, ∀ flag, s.marks r = some (1, flag) →
    r ∈ completed tr ∨ ∃ operation, s.thread = .finish r operation
  completed : ∀ r ∈ completed tr, ∃ sync, s.marks r = some (sync, some 1)
  absent : s.thread = .absent → s.server.running = 0 ∧ enqueued tr = []

/-- `server_request` is called with `sync` 0 or 1. -/
def SyncOk : Action → Prop
  | .serverRequest _ _ sync _ _ => sync = 0 ∨ sync = 1
  | _ => True

section Settled

variable {tr : List Event} {s s' : State} {e : Event}

theorem start_settled : Settled [] start where
  sync t r operation h := by cases h
  processed r h := by cases h
  completed r h := by cases h
  absent _ := ⟨rfl, rfl⟩

theorem Inv.marks_ne_fresh (h : Inv tr s) {r : ℕ} (hr : r ∈ enqueued tr) : r ≠ s.heap.fresh := by
  have hsome := h.alloc r hr
  exact Inv.view_ne_fresh hsome

theorem Inv.processed_mem (h : Inv tr s) {r : ℕ} (hr : r ∈ Event.processed tr) :
    r ∈ enqueued tr := by
  obtain ⟨q, -, -, hq⟩ := h.queue
  rw [hq, h.taken]
  simp [hr]

/-- A step that processes nothing and changes no flag. -/
theorem Settled.quiet (hset : Settled tr s) (hmarks : ∀ a, s'.marks a = s.marks a)
    (hcaller : ∀ t r operation, s'.caller t = .waiting r operation →
      s.caller t = .waiting r operation)
    (hthread : ∀ r operation, s.thread = .finish r operation → s'.thread = .finish r operation)
    (habsent : s'.thread = .absent → s.thread = .absent ∧ s'.server.running = s.server.running)
    (h0 : enqueued [e] = []) (h1 : Event.processed [e] = []) (h2 : Event.completed [e] = []) :
    Settled (tr ++ [e]) s' where
  sync t r operation hwait := by
    rw [hmarks]
    exact hset.sync t r operation (hcaller t r operation hwait)
  processed r hr flag hflag := by
    rw [processed_append, h1, List.append_nil] at hr
    rw [hmarks] at hflag
    rw [completed_append, h2, List.append_nil]
    exact (hset.processed r hr flag hflag).imp id fun ⟨op, hfin⟩ => ⟨op, hthread r op hfin⟩
  completed r hr := by
    rw [completed_append, h2, List.append_nil] at hr
    rw [hmarks]
    exact hset.completed r hr
  absent ht := by
    obtain ⟨ht', hrun⟩ := habsent ht
    obtain ⟨h3, h4⟩ := hset.absent ht'
    exact ⟨hrun.trans h3, by rw [enqueued_append, h0, h4]; rfl⟩

theorem nextRequest_ne_absent (operation : ℤ) : nextRequest operation ≠ .absent := by
  unfold nextRequest
  split_ifs <;> simp

/-- A new request is not processed, and a caller that waits for it made it synchronous. -/
theorem Settled.serverRequest (hset : Settled tr s) (h : Inv tr s) (hw : Waits tr s) {t : ℕ}
    {operation sync : ℤ} {prompt string : Option (List Char)} (hsync : sync = 0 ∨ sync = 1)
    (hs : s.serverRequest t operation sync prompt string = some (e, s')) :
    Settled (tr ++ [e]) s' := by
  obtain ⟨-, rfl, hthread, hcaller, hmarks⟩ := serverRequest_cases hs
  have hold : ∀ r ∈ enqueued tr, s'.marks r = s.marks r := fun r hr => by
    rw [hmarks, if_neg (h.marks_ne_fresh hr)]
  constructor
  case sync =>
    intro t' r op hwait
    have hwaits : s.caller t' = .waiting r op ∨ sync ≠ 0 ∧ r = s.heap.fresh := by
      rw [hcaller] at hwait
      split_ifs at hwait with hsync
      · rw [Function.update_apply] at hwait
        split_ifs at hwait
        · exact Or.inr ⟨hsync, (Caller.waiting.inj hwait).1.symm⟩
        · exact Or.inl hwait
      · exact Or.inl hwait
    rcases hwaits with hwaits | ⟨hne, rfl⟩
    · have hr : r ∈ enqueued tr := List.mem_filterMap.mpr ⟨_, (hw t' r op hwaits).1, rfl⟩
      rw [hold r hr]
      exact hset.sync t' r op hwaits
    · obtain rfl : sync = 1 := hsync.resolve_left hne
      exact ⟨some 0, by rw [hmarks, if_pos rfl, if_pos hne]⟩
  case processed =>
    intro r hr flag hflag
    have hr' : r ∈ Event.processed tr := by simpa [Event.processed] using hr
    rw [hold r (h.processed_mem hr')] at hflag
    rcases hset.processed r hr' flag hflag with hdone | ⟨op, hfin⟩
    · exact Or.inl (by simp [hdone])
    · have hrun : s.server.running ≠ 0 := h.running (by simp [hfin])
      refine Or.inr ⟨op, ?_⟩
      rw [hthread, createServer, if_neg hrun, hfin]
  case completed =>
    intro r hr
    have hr' : r ∈ Event.completed tr := by simpa [Event.completed] using hr
    rw [hold r (h.processed_mem (h.after r hr'))]
    exact hset.completed r hr'
  case absent =>
    intro habsent
    rw [hthread, createServer] at habsent
    split_ifs at habsent with hrun
    exact absurd (hset.absent habsent).1 hrun

theorem Settled.wake (hset : Settled tr s) {t : ℕ} (hs : s.wake t = some (e, s')) :
    Settled (tr ++ [e]) s' := by
  obtain ⟨r, operation, sync, v, ht, hflag, ⟨-, rfl, rfl⟩ | ⟨-, ⟨string, rfl⟩, rfl⟩⟩ := wake_cases hs
  · exact hset.quiet (fun _ => rfl) (fun _ _ _ h => h) (fun _ _ h => h) (fun h => ⟨h, rfl⟩)
      rfl rfl rfl
  · refine hset.quiet (fun _ => rfl) (fun t' r' op hwait => ?_) (fun _ _ h => h)
      (fun h => ⟨h, rfl⟩) rfl rfl rfl
    have hupdate : Function.update s.caller t .outside t' = .waiting r' op := hwait
    rw [Function.update_apply] at hupdate
    split_ifs at hupdate
    exact hupdate

theorem Settled.fetch (hset : Settled tr s) {q : List ℕ}
    (hc : Chain Request.next s.heap s.server.first q) (hs : s.fetch = some (e, s')) :
    Settled (tr ++ [e]) s' := by
  obtain ⟨ht, ⟨-, rfl, rfl⟩ | ⟨r, rest, -, rfl, hthread, hheap, hcaller, -⟩⟩ := fetch_cases hc hs
  · exact hset.quiet (fun _ => rfl) (fun _ _ _ h => h) (fun _ _ h => h) (fun h => ⟨h, rfl⟩)
      rfl rfl rfl
  · refine hset.quiet (fun a => by rw [marks, hheap, marks])
      (fun t' r' op hwait => hcaller ▸ hwait) (fun r' op hfin => ?_) (fun habsent => ?_) rfl rfl rfl
    · rw [ht] at hfin
      cases hfin
    · rw [hthread] at habsent
      cases habsent

/-- A synchronous request that was processed is about to be done. -/
theorem Settled.serve (hset : Settled tr s) {q : List ℕ} {line : Option (List Char)}
    (hc : Chain Request.next s.heap s.server.first q) (hs : s.serve line = some (e, s')) :
    Settled (tr ++ [e]) s' := by
  obtain ⟨r, text, operation, sync, flag, ht, rfl, hr, hmarks, hthread, hcaller, -⟩ :=
    serve_cases hc hs
  constructor
  case sync =>
    intro t' r' op hwait
    rw [hmarks]
    exact hset.sync t' r' op (hcaller ▸ hwait)
  case processed =>
    intro r' hr' flag' hflag
    rw [hmarks] at hflag
    rw [Event.processed_append, List.mem_append] at hr'
    rcases hr' with hr' | hr'
    · rcases hset.processed r' hr' flag' hflag with hdone | ⟨op, hfin⟩
      · exact Or.inl (by simp [hdone])
      · rw [ht] at hfin
        cases hfin
    · obtain rfl : r' = r := by simpa [Event.processed] using hr'
      obtain rfl : sync = 1 := (Prod.mk.inj (Option.some.inj (hr.symm.trans hflag))).1
      exact Or.inr ⟨operation, by rw [hthread, if_pos rfl]⟩
  case completed =>
    intro r' hr'
    rw [hmarks]
    exact hset.completed r' (by simpa [Event.completed] using hr')
  case absent =>
    intro habsent
    rw [hthread] at habsent
    split_ifs at habsent
    exact absurd habsent (nextRequest_ne_absent operation)

/-- The request that is done says so. -/
theorem Settled.finish (hset : Settled tr s) {q : List ℕ}
    (hc : Chain Request.next s.heap s.server.first q) (hs : s.finish = some (e, s')) :
    Settled (tr ++ [e]) s' := by
  obtain ⟨r, operation, sync, flag, ht, rfl, hr, hmarks, hthread, hcaller, -⟩ := finish_cases hc hs
  constructor
  case sync =>
    intro t' r' op hwait
    obtain ⟨flag', hflag'⟩ := hset.sync t' r' op (hcaller ▸ hwait)
    rw [hmarks]
    by_cases hrr : r' = r
    · subst hrr
      obtain rfl : sync = 1 := (Prod.mk.inj (Option.some.inj (hr.symm.trans hflag'))).1
      exact ⟨some 1, if_pos rfl⟩
    · exact ⟨flag', by rw [if_neg hrr, hflag']⟩
  case processed =>
    intro r' hr' flag' hflag
    by_cases hrr : r' = r
    · exact Or.inl (by simp [Event.completed, hrr])
    · rw [hmarks, if_neg hrr] at hflag
      rcases hset.processed r' (by simpa [Event.processed] using hr') flag' hflag with
        hdone | ⟨op, hfin⟩
      · exact Or.inl (by simp [hdone])
      · rw [ht] at hfin
        exact absurd (ServerThread.finish.inj hfin).1.symm hrr
  case completed =>
    intro r' hr'
    rw [hmarks]
    by_cases hrr : r' = r
    · exact ⟨sync, if_pos hrr⟩
    · rw [if_neg hrr]
      refine hset.completed r' ?_
      simpa [Event.completed, hrr] using hr'
  case absent =>
    intro habsent
    rw [hthread] at habsent
    exact absurd habsent (nextRequest_ne_absent operation)

/-- A step keeps the requests settled. -/
theorem Settled.step (hset : Settled tr s) (h : Inv tr s) (hw : Waits tr s) {a : Action}
    (ha : SyncOk a) (hs : s.exec a = some (e, s')) : Settled (tr ++ [e]) s' := by
  obtain ⟨q, hc, -, -⟩ := h.queue
  cases a with
  | serverRequest t operation sync prompt string => exact hset.serverRequest h hw ha hs
  | wake t => exact hset.wake hs
  | fetch => exact hset.fetch hc hs
  | serve line => exact hset.serve hc hs
  | finish => exact hset.finish hc hs

/-- No two callers wait for one request. -/
theorem waiting_unique (h : Inv tr s) (hw : Waits tr s) {t t' r : ℕ} {operation operation' : ℤ}
    (ht : s.caller t = .waiting r operation) (ht' : s.caller t' = .waiting r operation') :
    t = t' := by
  have hone : ∀ {tr : List Event}, (enqueued tr).Nodup → .enqueue t r operation ∈ tr →
      .enqueue t' r operation' ∈ tr → t = t' := by
    intro tr hnd hmem hmem'
    induction tr with
    | nil => cases hmem
    | cons e tr ih =>
      have hcons : enqueued (e :: tr) = enqueued [e] ++ enqueued tr := enqueued_append [e] tr
      rw [hcons, List.nodup_append] at hnd
      have hin {t : ℕ} {op : ℤ} (hm : .enqueue t r op ∈ tr) : r ∈ enqueued tr :=
        List.mem_filterMap.mpr ⟨_, hm, rfl⟩
      rcases List.mem_cons.mp hmem with rfl | hl <;> rcases List.mem_cons.mp hmem' with he | hl'
      · exact (Event.enqueue.inj he).1.symm
      · exact absurd rfl (hnd.2.2 r (by simp [enqueued]) r (hin hl'))
      · subst he
        exact absurd rfl (hnd.2.2 r (by simp [enqueued]) r (hin hl))
      · exact ih hnd.2.1 hl hl'
  exact hone h.nodup (hw t r operation ht).1 (hw t' r operation' ht').1

end Settled

end State

open State

/-- The protocol with the threads that are blocked: the server on `server.request`, a
caller on the `done` of its request. -/
structure Threads where
  state : State
  serverBlocked : Bool
  blocked : ℕ → Bool

namespace Threads

def start : Threads := ⟨State.start, false, fun _ => false⟩

/-- `pthread_cond_signal` on the `done` of the request `r`: of the callers blocked on it
at least one is woken, if there is one, and nobody else. -/
structure Signals (x : Threads) (r : ℕ) (blocked' : ℕ → Bool) : Prop where
  only : ∀ t, blocked' t = true → x.blocked t = true
  waiters : ∀ t, x.blocked t = true → blocked' t = false →
    ∃ operation, x.state.caller t = .waiting r operation
  one : (∃ t operation, x.blocked t = true ∧ x.state.caller t = .waiting r operation) →
    ∃ t, x.blocked t = true ∧ blocked' t = false

/-- The steps of all threads; `none` is a wake-up without a signal. A new request signals
`server.request`, and its caller blocks if it is synchronous. -/
inductive Step (x : Threads) : Option (Action × Event) → Threads → Prop
  | serverRequest {t : ℕ} {operation sync : ℤ} {prompt string : Option (List Char)} {e : Event}
      {s' : State} (h : x.state.serverRequest t operation sync prompt string = some (e, s')) :
      Step x (some (.serverRequest t operation sync prompt string, e))
        ⟨s', false, if sync ≠ 0 then Function.update x.blocked t true else x.blocked⟩
  | wake {t : ℕ} {e : Event} {s' : State} (hb : x.blocked t = false)
      (h : x.state.wake t = some (e, s')) :
      Step x (some (.wake t, e))
        ⟨s', x.serverBlocked, Function.update x.blocked t (decide (e = .wait))⟩
  | fetch {e : Event} {s' : State} (hb : x.serverBlocked = false)
      (h : x.state.fetch = some (e, s')) :
      Step x (some (.fetch, e)) ⟨s', decide (e = .wait), x.blocked⟩
  | serve {line : Option (List Char)} {e : Event} {s' : State}
      (h : x.state.serve line = some (e, s')) :
      Step x (some (.serve line, e)) ⟨s', x.serverBlocked, x.blocked⟩
  | finish {r : ℕ} {s' : State} {blocked' : ℕ → Bool} (h : x.state.finish = some (.done r, s'))
      (hs : x.Signals r blocked') :
      Step x (some (.finish, .done r)) ⟨s', x.serverBlocked, blocked'⟩
  | spuriousServer : Step x none ⟨x.state, false, x.blocked⟩
  | spurious (t : ℕ) : Step x none ⟨x.state, x.serverBlocked, Function.update x.blocked t false⟩

/-! ### The two levels have the same traces -/

/-- The event of a step, if it has one. -/
def event : Option (Action × Event) → Option Event := Option.map Prod.snd

theorem Step.exec {x y : Threads} {a : Action} {e : Event} (h : Step x (some (a, e)) y) :
    x.state.exec a = some (e, y.state) := by
  cases h <;> assumption

theorem Step.project {x y : Threads} {l : Option (Action × Event)} {e : Event} (h : Step x l y)
    (hl : event l = some e) : State.Step x.state e y.state := by
  obtain ⟨⟨a, e'⟩, rfl, rfl⟩ := Option.map_eq_some_iff.mp hl
  exact ⟨a, h.exec⟩

theorem Step.spurious_state {x y : Threads} {l : Option (Action × Event)} (h : Step x l y)
    (hl : event l = none) : y.state = x.state := by
  obtain rfl := Option.map_eq_none_iff.mp hl
  cases h <;> rfl

/-- A signal can be sent at any time, for instance to all callers that wait for it. -/
theorem exists_signals (x : Threads) (r : ℕ) : ∃ blocked', x.Signals r blocked' := by
  let waits (t : ℕ) : Prop := ∃ operation, x.state.caller t = .waiting r operation
  classical
  refine ⟨fun t => x.blocked t && !decide (waits t), fun t ht => ?_, fun t ht ht' => ?_, ?_⟩
  · simp only [Bool.and_eq_true] at ht
    exact ht.1
  · simpa [ht] using ht'
  · rintro ⟨t, operation, ht, hwait⟩
    exact ⟨t, ht, by simp [waits, hwait]⟩

/-- Every step of the protocol can be taken, after a wake-up without a signal if the
thread that takes it is blocked. -/
theorem exists_steps (x : Threads) {e : Event} {s' : State} (h : State.Step x.state e s') :
    ∃ tr y, Run Step x tr y ∧ y.state = s' ∧ tr.filterMap event = [e] := by
  obtain ⟨a, ha⟩ := h
  cases a with
  | serverRequest t operation sync prompt string =>
    exact ⟨_, _, Run.nil.snoc (.serverRequest ha), rfl, rfl⟩
  | wake t =>
    have hwake : Run Step x [none] ⟨x.state, x.serverBlocked, Function.update x.blocked t false⟩ :=
      Run.nil.snoc (.spurious t)
    exact ⟨_, _, hwake.snoc (.wake (Function.update_self t false x.blocked) ha), rfl, rfl⟩
  | fetch =>
    have hwake : Run Step x [none] ⟨x.state, false, x.blocked⟩ := Run.nil.snoc .spuriousServer
    exact ⟨_, _, hwake.snoc (.fetch rfl ha), rfl, rfl⟩
  | serve line => exact ⟨_, _, Run.nil.snoc (.serve ha), rfl, rfl⟩
  | finish =>
    obtain ⟨r, rfl⟩ : ∃ r, e = .done r := by
      have ha' : x.state.finish = some (e, s') := ha
      unfold State.finish at ha'
      split at ha'
      · obtain ⟨_, -, he⟩ := Option.map_eq_some_iff.mp ha'
        exact ⟨_, (Prod.mk.inj he).1.symm⟩
      · cases ha'
    obtain ⟨blocked', hsignal⟩ := exists_signals x r
    exact ⟨_, _, Run.nil.snoc (.finish ha hsignal), rfl, rfl⟩

/-- The runs with blocked threads and signals have the traces of the protocol. -/
theorem run_iff (evs : List Event) (s : State) :
    Run State.Step State.start evs s ↔
      ∃ tr x, Run Step start tr x ∧ x.state = s ∧ tr.filterMap event = evs := by
  constructor
  · intro hr
    have hstart : State.start = start.state := rfl
    rw [hstart] at hr
    exact hr.lift state event fun x e s' h => exists_steps x h
  · rintro ⟨tr, x, hr, rfl, rfl⟩
    exact hr.stutter state event (fun x l y h hl => h.spurious_state hl)
      fun x l y e h hl => h.project hl

/-! ### No wake-up is lost -/

/-- The threads after the events `tr`: nobody is blocked whose condition holds. -/
structure Inv (tr : List Event) (x : Threads) : Prop where
  state : State.Inv tr x.state
  waits : Waits tr x.state
  settled : Settled tr x.state
  server : x.serverBlocked = true → x.state.thread = .fetch ∧ x.state.server.first = none
  caller : ∀ t, x.blocked t = true → ∃ r operation, x.state.caller t = .waiting r operation ∧
    x.state.marks r = some (1, some 0)

/-- `server_request` is called with `sync` 0 or 1, as `main` and the clients do. -/
def LabelOk : Option (Action × Event) → Prop
  | some (a, _) => SyncOk a
  | none => True

section Wakeups

variable {tr : List Event} {x y : Threads} {l : Option (Action × Event)}

theorem start_inv : Inv [] start where
  state := State.start_inv
  waits := start_waits
  settled := start_settled
  server h := by cases h
  caller t h := by cases h

/-- Who makes a synchronous request waits for it, and the others wait for theirs as before. -/
theorem Inv.caller_serverRequest (h : Inv tr x) {t t' : ℕ} {operation sync : ℤ}
    {prompt string : Option (List Char)} {e : Event} {s' : State} (hok : sync = 0 ∨ sync = 1)
    (hreq : x.state.serverRequest t operation sync prompt string = some (e, s'))
    (hb : (if sync ≠ 0 then Function.update x.blocked t true else x.blocked) t' = true) :
    ∃ r operation, s'.caller t' = .waiting r operation ∧ s'.marks r = some (1, some 0) := by
  obtain ⟨-, -, -, hcaller, hmarks⟩ := serverRequest_cases hreq
  have hold (hold : x.blocked t' = true) (hne : sync ≠ 0 → t' ≠ t) : ∃ r operation,
      s'.caller t' = .waiting r operation ∧ s'.marks r = some (1, some 0) := by
    obtain ⟨r, op, hwait, hflag⟩ := h.caller t' hold
    refine ⟨r, op, ?_, ?_⟩
    · rw [hcaller]
      split_ifs with hsync
      · rw [Function.update_of_ne (hne hsync), hwait]
      · exact hwait
    · have hr : r ∈ enqueued tr := List.mem_filterMap.mpr ⟨_, (h.waits t' r op hwait).1, rfl⟩
      rw [hmarks, if_neg (h.state.marks_ne_fresh hr), hflag]
  by_cases hsync : sync = 0
  · exact hold (by simpa [hsync] using hb) fun hne => absurd hsync hne
  · by_cases ht : t' = t
    · obtain rfl : sync = 1 := hok.resolve_left hsync
      refine ⟨x.state.heap.fresh, operation, ?_, ?_⟩
      · rw [hcaller, if_pos hsync, ht, Function.update_self]
      · rw [hmarks, if_pos rfl, if_pos hsync]
    · refine hold ?_ fun _ => ht
      simpa [hsync, Function.update_of_ne ht] using hb

/-- A thread that wakes blocks again only while its request is not done. -/
theorem Inv.caller_wake (h : Inv tr x) {t t' : ℕ} {e : Event} {s' : State}
    (hwake : x.state.wake t = some (e, s'))
    (hb : Function.update x.blocked t (decide (e = .wait)) t' = true) :
    ∃ r operation, s'.caller t' = .waiting r operation ∧ s'.marks r = some (1, some 0) := by
  obtain ⟨r, operation, sync, v, ht, hflag, hcases⟩ := wake_cases hwake
  rcases hcases with ⟨rfl, rfl, rfl⟩ | ⟨-, ⟨string, rfl⟩, rfl⟩
  · by_cases htt : t' = t
    · obtain ⟨flag, hsync⟩ := h.settled.sync t r operation ht
      obtain ⟨rfl, -⟩ := Prod.mk.inj (Option.some.inj (hflag.symm.trans hsync))
      exact ⟨r, operation, htt ▸ ht, hflag⟩
    · exact h.caller t' (by simpa [Function.update_of_ne htt] using hb)
  · by_cases htt : t' = t
    · subst htt
      simp at hb
    · obtain ⟨r', op, hwait, hflag'⟩ :=
        h.caller t' (by simpa [Function.update_of_ne htt] using hb)
      exact ⟨r', op, (Function.update_of_ne htt _ _).trans hwait, hflag'⟩

/-- The one caller that waits for a request is woken when it is done. -/
theorem Inv.caller_finish (h : Inv tr x) {q : List ℕ} {t' r : ℕ} {s' : State}
    {blocked' : ℕ → Bool} (hc : Chain Request.next x.state.heap x.state.server.first q)
    (hfinish : x.state.finish = some (.done r, s')) (hsignal : x.Signals r blocked')
    (hb : blocked' t' = true) :
    ∃ r operation, s'.caller t' = .waiting r operation ∧ s'.marks r = some (1, some 0) := by
  obtain ⟨r₁, operation, sync, flag, -, he, -, hmarks, -, hcaller, -⟩ := finish_cases hc hfinish
  obtain rfl : r = r₁ := Event.done.inj he
  obtain ⟨r', op, hwait, hflag⟩ := h.caller t' (hsignal.only t' hb)
  have hne : r' ≠ r := by
    rintro rfl
    obtain ⟨t₁, hb₁, hfree⟩ := hsignal.one ⟨t', op, hsignal.only t' hb, hwait⟩
    obtain ⟨op₁, hwait₁⟩ := hsignal.waiters t₁ hb₁ hfree
    obtain rfl := waiting_unique h.state h.waits hwait hwait₁
    exact absurd (hfree.symm.trans hb) Bool.false_ne_true
  exact ⟨r', op, by rw [hcaller, hwait], by rw [hmarks, if_neg hne, hflag]⟩

theorem Inv.step (h : Inv tr x) (hl : LabelOk l) (hs : Step x l y) :
    Inv (tr ++ (event l).toList) y := by
  obtain ⟨q, hc, -, -⟩ := h.state.queue
  -- the part of the invariant that does not speak of blocked threads
  have hstate : ∀ {a e}, l = some (a, e) → State.Inv (tr ++ [e]) y.state ∧
      Waits (tr ++ [e]) y.state ∧ Settled (tr ++ [e]) y.state := by
    rintro a e rfl
    obtain ⟨h1, h2⟩ := h.state.step h.waits ⟨a, hs.exec⟩
    exact ⟨h1, h2, h.settled.step h.state h.waits hl hs.exec⟩
  cases hs with
  | serverRequest hreq =>
    obtain ⟨h1, h2, h3⟩ := hstate rfl
    exact ⟨h1, h2, h3, (fun hb => by cases hb), fun t' hb => h.caller_serverRequest hl hreq hb⟩
  | wake hfree hwake =>
    obtain ⟨h1, h2, h3⟩ := hstate rfl
    refine ⟨h1, h2, h3, ?_, fun t' hb => h.caller_wake hwake hb⟩
    obtain ⟨r, operation, sync, v, -, -, ⟨-, -, rfl⟩ | ⟨-, -, rfl⟩⟩ := wake_cases hwake
    · exact h.server
    · exact h.server
  | fetch hfree hfetch =>
    obtain ⟨h1, h2, h3⟩ := hstate rfl
    obtain ⟨ht, ⟨rfl, rfl, rfl⟩ | ⟨r, rest, -, rfl, -, hheap, hcaller, -⟩⟩ := fetch_cases hc hfetch
    · exact ⟨h1, h2, h3, fun _ => ⟨ht, hc⟩, h.caller⟩
    · refine ⟨h1, h2, h3, (fun hb => by simp at hb), fun t' hb => ?_⟩
      obtain ⟨r', op, hwait, hflag⟩ := h.caller t' hb
      refine ⟨r', op, by rw [hcaller, hwait], ?_⟩
      rw [marks, hheap]
      exact hflag
  | serve hserve =>
    obtain ⟨h1, h2, h3⟩ := hstate rfl
    obtain ⟨r, text, operation, sync, flag, ht, rfl, -, hmarks, -, hcaller, -⟩ :=
      serve_cases hc hserve
    refine ⟨h1, h2, h3, fun hb => ?_, fun t' hb => ?_⟩
    · rw [(h.server hb).1] at ht
      cases ht
    · obtain ⟨r', op, hwait, hflag⟩ := h.caller t' hb
      exact ⟨r', op, by rw [hcaller, hwait], by rw [hmarks, hflag]⟩
  | finish hfinish hsignal =>
    obtain ⟨h1, h2, h3⟩ := hstate rfl
    refine ⟨h1, h2, h3, fun hb => ?_, fun t' hb => h.caller_finish hc hfinish hsignal hb⟩
    obtain ⟨r, operation, sync, flag, ht, -⟩ := finish_cases hc hfinish
    rw [(h.server hb).1] at ht
    cases ht
  | spuriousServer =>
    rw [show tr ++ (event none).toList = tr from List.append_nil tr]
    exact ⟨h.state, h.waits, h.settled, (by nofun), h.caller⟩
  | spurious t =>
    rw [show tr ++ (event none).toList = tr from List.append_nil tr]
    refine ⟨h.state, h.waits, h.settled, h.server, fun t' hb => h.caller t' ?_⟩
    have hupdate : Function.update x.blocked t false t' = true := hb
    rw [Function.update_apply] at hupdate
    split_ifs at hupdate
    exact hupdate

/-- A step that the server takes, and no wake-up without a signal. -/
def ServerStep (x : Threads) (l : Action × Event) (y : Threads) : Prop :=
  Step x (some l) y ∧ (l.1 = .fetch ∨ (∃ line, l.1 = .serve line) ∨ l.1 = .finish)

/-- How far the server is from its next wait, apart from the requests that are queued. -/
def stage (x : Threads) : ℕ :=
  match x.state.thread with
  | .absent => 0
  | .fetch => if x.serverBlocked then 0 else 1
  | .serve _ => 3
  | .finish _ _ => 2
  | .exited => 0

theorem stage_nextRequest {operation : ℤ} (hx : x.state.thread = nextRequest operation) :
    x.stage ≤ 1 := by
  unfold stage
  rw [hx, nextRequest]
  split_ifs <;> simp

/-- A step of the server brings it closer to its next wait. -/
theorem ServerStep.work {l : Action × Event} {q : List ℕ} (hs : ServerStep x l y)
    (hc : Chain Request.next x.state.heap x.state.server.first q) :
    ∃ q', Chain Request.next y.state.heap y.state.server.first q' ∧ q' <:+ q ∧
      y.state.caller = x.state.caller ∧ 4 * q'.length + y.stage < 4 * q.length + x.stage := by
  obtain ⟨hstep, hby⟩ := hs
  cases hstep with
  | serverRequest h => simp at hby
  | wake hb h => simp at hby
  | fetch hfree hfetch =>
    obtain ⟨ht, ⟨rfl, rfl, rfl⟩ | ⟨r, rest, rfl, rfl, ht', -, hcaller, hrest⟩⟩ :=
      fetch_cases hc hfetch
    · exact ⟨[], hc, List.suffix_rfl, rfl, by simp [stage, ht, hfree]⟩
    · refine ⟨rest, hrest, List.suffix_cons r rest, hcaller, ?_⟩
      simp only [stage, ht, ht', hfree, List.length_cons]
      simp
      omega
  | serve hserve =>
    obtain ⟨r, text, operation, sync, flag, ht, -, -, -, ht', hcaller, hc'⟩ := serve_cases hc hserve
    refine ⟨q, hc', List.suffix_rfl, hcaller, ?_⟩
    have hx : x.stage = 3 := by rw [stage, ht]
    rw [hx]
    split_ifs at ht' with hsync
    · simp [stage, ht']
    · have := stage_nextRequest (x := ⟨_, x.serverBlocked, x.blocked⟩) ht'
      omega
  | @finish r s' blocked' hfinish hsignal =>
    obtain ⟨r₁, operation, sync, flag, ht, -, -, -, ht', hcaller, hc'⟩ := finish_cases hc hfinish
    refine ⟨q, hc', List.suffix_rfl, hcaller, ?_⟩
    have hx : x.stage = 2 := by rw [stage, ht]
    have := stage_nextRequest (x := ⟨_, x.serverBlocked, blocked'⟩) ht'
    omega

/-- The server alone comes to a wait or its end. -/
theorem Inv.server_run (h : Inv tr x) {q : List ℕ}
    (hc : Chain Request.next x.state.heap x.state.server.first q) {ls : List (Action × Event)}
    (hr : Run ServerStep x ls y) : (∃ tr', Inv tr' y) ∧ ∃ q',
      Chain Request.next y.state.heap y.state.server.first q' ∧ q' <:+ q ∧
      ls.length + (4 * q'.length + y.stage) ≤ 4 * q.length + x.stage := by
  induction hr with
  | nil => exact ⟨⟨tr, h⟩, q, hc, List.suffix_rfl, by simp⟩
  | @snoc ls y z l hr hs ih =>
    obtain ⟨⟨tr', h'⟩, q', hc', hsuf, hle⟩ := ih
    obtain ⟨q'', hc'', hsuf', -, hlt⟩ := hs.work hc'
    have hok : LabelOk (some l) := by
      obtain ⟨-, hby⟩ := hs
      obtain ⟨a, e⟩ := l
      rcases hby with rfl | ⟨line, rfl⟩ | rfl <;> trivial
    refine ⟨⟨_, h'.step hok hs.1⟩, q'', hc'', hsuf'.trans hsuf, ?_⟩
    rw [List.length_append, List.length_singleton]
    omega

/-- Where the server can do nothing it waits for a request or is not there. -/
theorem Inv.stopped (h : Inv tr x) (hno : ∀ l y, ¬ ServerStep x l y) :
    x.state.thread = .absent ∨ x.state.thread = .exited ∨
      x.state.thread = .fetch ∧ x.serverBlocked = true := by
  cases ht : x.state.thread with
  | absent => exact Or.inl rfl
  | exited => exact Or.inr (Or.inl rfl)
  | fetch =>
    refine Or.inr (Or.inr ⟨rfl, ?_⟩)
    by_contra hb
    obtain ⟨e, s', hs, -⟩ := h.state.fetch h.waits ht
    exact hno _ _ ⟨.fetch (by simpa using hb) hs, Or.inl rfl⟩
  | serve r =>
    have hfits : x.state.Fits (.serve none) := trivial
    obtain ⟨text, s', hs, -⟩ := h.state.serve h.waits ht hfits
    exact absurd ⟨.serve hs, Or.inr (Or.inl ⟨none, rfl⟩)⟩ (hno _ _)
  | finish r operation =>
    obtain ⟨s', hs, -⟩ := h.state.finish h.waits ht
    obtain ⟨blocked', hsignal⟩ := exists_signals x r
    exact absurd ⟨.finish hs hsignal, Or.inr (Or.inr rfl)⟩ (hno _ _)

/-- Then a caller that waits can return, unless the server has left its request behind. -/
theorem Inv.returns (h : Inv tr x) (hno : ∀ l y, ¬ ServerStep x l y) {q : List ℕ}
    (hc : Chain Request.next x.state.heap x.state.server.first q) {t r : ℕ} {operation : ℤ}
    (ht : x.state.caller t = .waiting r operation) :
    (∃ string y, Step x (some (.wake t, .returns t r string)) y) ∨
      x.state.thread = .exited ∧ r ∈ q := by
  have hr : r ∈ enqueued tr := List.mem_filterMap.mpr ⟨_, (h.waits t r operation ht).1, rfl⟩
  obtain ⟨q', hc', -, hq⟩ := h.state.queue
  obtain rfl := hc'.unique hc
  rw [hq, List.mem_append] at hr
  rcases hr with hdeq | hqueue
  · left
    have hthread := h.stopped hno
    have hdone : r ∈ completed tr := by
      obtain ⟨flag, hflag⟩ := h.settled.sync t r operation ht
      have hproc : r ∈ processed tr := by
        have htaken : x.state.thread.taken = [] := by
          rcases hthread with ht | ht | ⟨ht, -⟩ <;> rw [ht] <;> rfl
        rw [h.state.taken, htaken, List.append_nil] at hdeq
        exact hdeq
      refine (h.settled.processed r hproc flag hflag).resolve_right ?_
      rintro ⟨op, hfin⟩
      rcases hthread with ht | ht | ⟨ht, -⟩ <;> rw [ht] at hfin <;> cases hfin
    obtain ⟨sync, hflag⟩ := h.settled.completed r hdone
    have hfree : x.blocked t = false := by
      by_contra hb
      obtain ⟨r', op, hwait, hflag'⟩ := h.caller t (by simpa using hb)
      obtain ⟨rfl, -⟩ := Caller.waiting.inj (ht.symm.trans hwait)
      rw [hflag] at hflag'
      simp at hflag'
    obtain ⟨e, s', hs, -⟩ := h.state.wake h.waits ht
    obtain ⟨r', op, sync', v, hwait, hflag', hcases⟩ := wake_cases hs
    obtain ⟨rfl, -⟩ := Caller.waiting.inj (ht.symm.trans hwait)
    rw [hflag] at hflag'
    rcases hcases with ⟨rfl, -, -⟩ | ⟨-, ⟨string, rfl⟩, -⟩
    · simp at hflag'
    · exact ⟨string, _, .wake hfree hs⟩
  · right
    rcases h.stopped hno with ht' | ht' | ⟨-, hb⟩
    · have hnil := (h.settled.absent ht').2
      rw [hq] at hnil
      rw [(List.append_eq_nil_iff.mp hnil).2] at hqueue
      cases hqueue
    · exact ⟨ht', hqueue⟩
    · have hfirst := hc.first_eq.symm.trans (h.server hb).2
      rw [List.head?_eq_none_iff.mp hfirst] at hqueue
      cases hqueue

end Wakeups

theorem run_inv {tr : List (Option (Action × Event))} {x : Threads}
    (hr : Run (Guarded (fun _ l => LabelOk l) Step) start tr x) : ∃ evs, Inv evs x :=
  hr.invariant (fun x => ∃ evs, Inv evs x) ⟨[], start_inv⟩
    fun _ _ _ ⟨_, h⟩ ⟨hl, hs⟩ => ⟨_, h.step hl hs⟩

/-- No wake-up is lost. In every reachable state the server is blocked only while the queue
is empty, and a caller only while its request is not done. From there the server, with no
wake-up but by signals, takes at most four steps for each queued request and three more;
when it can take none, every caller that waits can return, unless the server has left
after a `QUIT_REQUEST` and the request of the caller was still queued. -/
theorem run_settles {tr : List (Option (Action × Event))} {x : Threads}
    (hr : Run (Guarded (fun _ l => LabelOk l) Step) start tr x) :
    (x.serverBlocked = true → x.state.thread = .fetch ∧ x.state.server.first = none) ∧
    (∀ t, x.blocked t = true → ∃ r operation, x.state.caller t = .waiting r operation ∧
      (x.state.heap.read r).map Request.done_flag = some (some 0)) ∧
    ∃ q, Chain Request.next x.state.heap x.state.server.first q ∧
      ∀ ls y, Run ServerStep x ls y → ls.length ≤ 4 * q.length + 3 ∧
        ((∀ l z, ¬ ServerStep y l z) → ∀ t r operation, y.state.caller t = .waiting r operation →
          (∃ string z, Step y (some (.wake t, .returns t r string)) z) ∨
            y.state.thread = .exited ∧ r ∈ q) := by
  obtain ⟨evs, h⟩ := run_inv hr
  obtain ⟨q, hc, -, -⟩ := h.state.queue
  refine ⟨h.server, fun t hb => ?_, q, hc, fun ls y hrun => ?_⟩
  · obtain ⟨r, operation, hwait, hflag⟩ := h.caller t hb
    obtain ⟨req, hreq, hmarks⟩ := Option.map_eq_some_iff.mp hflag
    exact ⟨r, operation, hwait, by rw [hreq, ← (Prod.mk.inj hmarks).2]; rfl⟩
  · obtain ⟨⟨evs', h'⟩, q', hc', hsuf, hle⟩ := h.server_run hc hrun
    have hstage : x.stage ≤ 3 := by
      unfold stage
      cases x.state.thread with
      | fetch =>
        simp only
        split_ifs <;> simp
      | _ => simp
    refine ⟨by omega, fun hno t r operation ht => ?_⟩
    exact (h'.returns hno hc' ht).imp id fun ⟨hexit, hmem⟩ => ⟨hexit, hsuf.subset hmem⟩

/-- Thread `0` has made a synchronous read request. -/
def readBlocked : Threads where
  state := ⟨Heap.empty.alloc ⟨none, 1, 1, some 0, [], []⟩, ⟨some 0, some 0, 1⟩, .fetch,
    Function.update (fun _ => .outside) 0 (.waiting 0 1)⟩
  serverBlocked := false
  blocked := Function.update (fun _ => false) 0 true

/-- The server takes the request and reads the end of its input. -/
theorem run_settles_read : ∃ y,
    Run ServerStep readBlocked [(.fetch, .dequeue 0), (.serve none, .process 0 [])] y ∧
    (∃ r operation, readBlocked.state.caller 0 = .waiting r operation ∧
      (readBlocked.state.heap.read r).map Request.done_flag = some (some 0)) ∧
    ∃ q, Chain Request.next readBlocked.state.heap readBlocked.state.server.first q ∧
      2 ≤ 4 * q.length + 3 := by
  have hstep : Step start (some (.serverRequest 0 1 1 none (some []), .enqueue 0 0 1)) readBlocked :=
    .serverRequest rfl
  have hfetch : Run ServerStep readBlocked [(.fetch, .dequeue 0)] _ :=
    Run.nil.snoc ⟨.fetch rfl rfl, Or.inl rfl⟩
  have hserve : Run ServerStep readBlocked [(.fetch, .dequeue 0), (.serve none, .process 0 [])] _ :=
    hfetch.snoc ⟨.serve rfl, Or.inr (Or.inl ⟨none, rfl⟩)⟩
  have hok : LabelOk (some (.serverRequest 0 1 1 none (some []), .enqueue 0 0 1)) := Or.inr rfl
  obtain ⟨-, hblocked, q, hc, hbound⟩ := run_settles (Run.nil.snoc ⟨hok, hstep⟩)
  exact ⟨_, hserve, hblocked 0 rfl, q, hc, (hbound _ _ hserve).1⟩

end Threads

end SchoolProjects.ClientServer
