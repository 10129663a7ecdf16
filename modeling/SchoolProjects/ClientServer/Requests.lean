import SchoolProjects.Lib.Heap

/-! The request queue of the client/server program (`main.c`). A section that holds
`server.mutex` is one step, as is the work of the server between two sections. A
thread that waits on a condition variable may wake at any time and tests its
condition again, so the signals themselves have no effect. A caller that reads passes a
buffer for the text. Printing and the database commands are left out. `none` as a result
stands for a step that is not possible or undefined, as a step is that writes behind the
end of a request. -/

namespace SchoolProjects.ClientServer

def READ_REQUEST : ℤ := 1
def WRITE_REQUEST : ℤ := 2
def QUIT_REQUEST : ℤ := 3

/-- The bytes of `char prompt[32]` and `char text[28]`. -/
def promptSize : ℕ := 32
def textSize : ℕ := 28

/-- `request_t`; `done_flag` is `none` until it is set. -/
structure Request where
  next : Option ℕ
  operation : ℤ
  synchronous : ℤ
  done_flag : Option ℤ
  prompt : List Char
  text : List Char
deriving DecidableEq, Repr

/-- `server_t`. -/
structure Server where
  first : Option ℕ
  last : Option ℕ
  running : ℤ
deriving DecidableEq, Repr

/-- Where the server thread is: not created, about to lock and fetch a request,
working on the request `r`, about to lock and set its `done_flag`, or gone. -/
inductive ServerThread
  | absent
  | fetch
  | serve (r : ℕ)
  | finish (r : ℕ) (operation : ℤ)
  | exited
deriving DecidableEq, Repr

/-- A thread is outside `server_request` or waits in it for its request `r`. -/
inductive Caller
  | outside
  | waiting (r : ℕ) (operation : ℤ)
deriving DecidableEq, Repr

structure State where
  heap : Heap Request
  server : Server
  thread : ServerThread
  caller : ℕ → Caller

def State.start : State := ⟨Heap.empty, ⟨none, none, 0⟩, .absent, fun _ => .outside⟩

/-- What can be seen of a step. -/
inductive Event
  | enqueue (t r : ℕ) (operation : ℤ)
  | dequeue (r : ℕ)
  | process (r : ℕ) (text : List Char)
  | done (r : ℕ)
  | returns (t r : ℕ) (string : Option (List Char))
  | wait
deriving DecidableEq, Repr

namespace State

/-- `strncpy` writes `n` bytes, zeros behind a shorter string, to a buffer of `size`. -/
def strncpy (size : ℕ) (w : List Char) (n : ℕ) : Option (List Char) :=
  if n ≤ size then some (w.take n) else none

/-- The request made by `server_request`, at the tail of the queue. -/
def newRequest (operation sync : ℤ) (prompt string : Option (List Char)) : Option Request := do
  let prompt ← match prompt with
    | some p => strncpy promptSize p 32
    | none => some []
  let text ← match string with
    | some w => if operation = WRITE_REQUEST then strncpy textSize w 128 else some []
    | none => some []
  return ⟨none, operation, sync, if sync ≠ 0 then some 0 else none, prompt, text⟩

/-- A string is written to `text` only by a `WRITE_REQUEST`, and then 128 bytes are. -/
theorem newRequest_eq (operation sync : ℤ) (prompt string : Option (List Char)) :
    newRequest operation sync prompt string =
      if operation = WRITE_REQUEST ∧ string.isSome then none
      else some ⟨none, operation, sync, if sync ≠ 0 then some 0 else none,
        (prompt.map fun p => p.take 32).getD [], []⟩ := by
  cases prompt <;> cases string <;>
    by_cases h : operation = WRITE_REQUEST <;> simp [newRequest, strncpy, promptSize, textSize, h]

/-- The server thread is created with the first request. -/
def createServer (s : State) : State :=
  if s.server.running = 0 then
    { s with server := { s.server with running := 1 }, thread := .fetch }
  else s

/-- Append the node at `r` to the queue. -/
def enqueue (s : State) (r : ℕ) : Option State :=
  match s.server.first with
  | none => some { s with server := { s.server with first := some r, last := some r } }
  | some _ =>
    match s.server.last with
    | none => none
    | some l =>
      (s.heap.modify l fun q => { q with next := some r }).map fun heap =>
        { s with heap := heap, server := { s.server with last := some r } }

/-- `server_request` by thread `t`, up to its return or its first wait. -/
def serverRequest (s : State) (t : ℕ) (operation sync : ℤ)
    (prompt string : Option (List Char)) : Option (Event × State) :=
  match s.caller t with
  | .waiting _ _ => none
  | .outside =>
    let s := s.createServer
    let r := s.heap.fresh
    (newRequest operation sync prompt string).bind fun request =>
      (enqueue { s with heap := s.heap.alloc request } r).map fun s =>
        (.enqueue t r operation,
          if sync ≠ 0 then { s with caller := Function.update s.caller t (.waiting r operation) }
          else s)

/-- Thread `t` wakes from its wait in `server_request`. -/
def wake (s : State) (t : ℕ) : Option (Event × State) :=
  match s.caller t with
  | .outside => none
  | .waiting r operation =>
    (s.heap.read r).bind fun request => request.done_flag.map fun done_flag =>
      if done_flag = 0 then (.wait, s)
      else
        (.returns t r (if operation = READ_REQUEST then some request.text else none),
          { s with caller := Function.update s.caller t .outside })

/-- The server thread locks the queue, or wakes, and takes the first request. -/
def fetch (s : State) : Option (Event × State) :=
  match s.thread with
  | .fetch =>
    match s.server.first with
    | none => some (.wait, s)
    | some r =>
      (s.heap.read r).map fun request =>
        (.dequeue r,
          { s with
            server := { s.server with
              first := request.next
              last := if request.next = none then none else s.server.last }
            thread := .serve r })
  | _ => none

/-- Where the server goes after a request. -/
def nextRequest (operation : ℤ) : ServerThread :=
  if operation = QUIT_REQUEST then .exited else .fetch

/-- `fgets(request->text, 128, stdin)`, which writes a zero behind the bytes of `line`;
`none` is the end of the input. -/
def fgets (size : ℕ) : Option (List Char) → Option (List Char)
  | some w => if w.length < size then some (w.takeWhile (· ≠ '\x00')) else none
  | none => some []

/-- Without a character to strip the zero goes to `text[-1]`, the last byte of `prompt`. -/
def readLine (request : Request) (line : Option (List Char)) : Option Request :=
  (fgets textSize line).map fun text =>
    { request with
      prompt := if text = [] then request.prompt.take (promptSize - 1) else request.prompt
      text := text.dropLast }

/-- The `switch` on the operation. -/
def switch (request : Request) (line : Option (List Char)) : Option Request :=
  if request.operation = READ_REQUEST then readLine request line else some request

/-- Only the two buffers of the request change. -/
theorem switch_cases {request request' : Request} {line : Option (List Char)}
    (h : switch request line = some request') :
    ∃ prompt text, request' = { request with prompt := prompt, text := text } := by
  unfold switch readLine at h
  split_ifs at h
  · obtain ⟨text, -, h⟩ := Option.map_eq_some_iff.1 h
    exact ⟨_, _, h.symm⟩
  · exact ⟨_, _, (Option.some.inj h).symm⟩

theorem switch_isSome_iff (request : Request) (line : Option (List Char)) :
    (switch request line).isSome ↔
      (request.operation = READ_REQUEST → ∀ w, line = some w → w.length < textSize) := by
  unfold switch readLine
  split_ifs with h <;> cases line <;> simp [fgets, h]

/-- The server works on the request it has taken; `line` is what `fgets` is given. -/
def serve (s : State) (line : Option (List Char)) : Option (Event × State) :=
  match s.thread with
  | .serve r =>
    (s.heap.read r).bind fun request =>
      let operation := request.operation
      (switch request line).bind fun request =>
        (s.heap.modify r fun _ => request).map fun heap =>
          (.process r request.text,
            { s with
              heap := heap
              thread := if request.synchronous = 1 then .finish r operation
                else nextRequest operation })
  | _ => none

/-- The server tells the caller that its request is done. -/
def finish (s : State) : Option (Event × State) :=
  match s.thread with
  | .finish r operation =>
    (s.heap.modify r fun q => { q with done_flag := some 1 }).map fun heap =>
      (.done r, { s with heap := heap, thread := nextRequest operation })
  | _ => none

/-- The steps of all threads, in any order. -/
inductive Action
  | serverRequest (t : ℕ) (operation sync : ℤ) (prompt string : Option (List Char))
  | wake (t : ℕ)
  | fetch
  | serve (line : Option (List Char))
  | finish

def exec (s : State) : Action → Option (Event × State)
  | .serverRequest t operation sync prompt string =>
    s.serverRequest t operation sync prompt string
  | .wake t => s.wake t
  | .fetch => s.fetch
  | .serve line => s.serve line
  | .finish => s.finish

/-- Some thread takes a step, seen as `e`. -/
def Step (s : State) (e : Event) (s' : State) : Prop := ∃ a, s.exec a = some (e, s')

/-- The thread of `a` is where `a` begins. -/
def Enabled (s : State) : Action → Prop
  | .serverRequest t _ _ _ _ => s.caller t = .outside
  | .wake t => ∃ r operation, s.caller t = .waiting r operation
  | .fetch => s.thread = .fetch
  | .serve _ => ∃ r, s.thread = .serve r
  | .finish => ∃ r operation, s.thread = .finish r operation

/-- The `text` of the request has room for what `a` writes to it: `a` is no
`WRITE_REQUEST` with a string, and no line of 28 bytes or more is read. -/
def Fits (s : State) : Action → Prop
  | .serverRequest _ operation _ _ string => ¬ (operation = WRITE_REQUEST ∧ string.isSome)
  | .serve (some line) => ∀ r request, s.thread = .serve r → s.heap.read r = some request →
      request.operation = READ_REQUEST → line.length < textSize
  | _ => True

/-- A step that is defined fits. -/
theorem fits_of_exec {s s' : State} {a : Action} {e : Event} (h : s.exec a = some (e, s')) :
    s.Fits a := by
  cases a with
  | serverRequest t operation sync prompt string =>
    intro hwrite
    simp only [exec, serverRequest, newRequest_eq, if_pos hwrite, Option.bind_none] at h
    split at h <;> cases h
  | serve line =>
    cases line with
    | none => trivial
    | some w =>
      intro r request ht hr hread
      simp only [exec, serve, ht, hr, Option.bind_some] at h
      obtain ⟨request', hswitch, -⟩ := Option.bind_eq_some_iff.1 h
      have hsome : (switch request (some w)).isSome := by rw [hswitch]; rfl
      exact (switch_isSome_iff request (some w)).1 hsome hread w rfl
  | _ => trivial

end State

end SchoolProjects.ClientServer
