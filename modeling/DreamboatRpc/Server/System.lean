import Mathlib.Data.List.Perm.Subperm
import DreamboatRpc.CS.Transition
import DreamboatRpc.Server.Rearm

/-!
# Runs of the server

The reactor thread gets events from epoll and adds them to the task queue; four workers
take them from there and handle them, in any interleaving. Handlers of different descriptors
touch different queues, slots and registrations, and a descriptor has at most one event
under way, so a handler is one step.

## Main definitions

* `System` — the server, the tasks under way and the connections
* `System.exec`, `serverSystem` — what can happen
* `System.Worked`, `System.Moved` — what a step does

## Main results

* `System.worked_of_work` — what a handler that returns did
* `System.exec_cases` — what an action did
-/

namespace DreamboatRpc.Server

open CS Rpc

/-- An event on its way to a handler. -/
structure Task where
  fd : ℤ
  type : EventType
  deriving DecidableEq

/-- The size of the task queue of the thread pool. -/
def taskQueueSize : ℕ := 10000

/-- The number of worker threads. -/
def threadNum : ℕ := 4

/-- The server with the kernel's side of its connections. Connections are numbered in the
order they were accepted; a descriptor may come to stand for a later one. Of all that the
client of a connection ever writes, `unread` was not yet received. The last three are
history: the messages handed to services, the results of those that need a return, and the
calls of `send`. -/
structure System (Service : Type) where
  server : RpcServer Service
  pending : List Task
  queue : List Task
  running : List Task
  connection : ℤ → Option ℕ
  accepted : ℕ
  unread : ℕ → List UInt8
  handed : ℕ → List RpcMessage
  answered : ℕ → List RpcResult
  sends : ℕ → List (RpcResult × Send)

/-- What can happen: epoll reports events of a descriptor, the reactor adds a task, a worker
takes one, or it handles the one it took. A connection that is accepted then comes with all
its client is going to write. -/
inductive Action (Service : Type)
  | dispatch (fd : ℤ) (events : Events)
  | addTask
  | takeTask
  | handle (task : Task) (input : Input Service) (stream : List UInt8)

variable {Service : Type}

/-- The messages that reached their service. -/
def ReadOutcome.messages : ReadOutcome → List RpcMessage
  | handled message _ => [message]
  | _ => []

/-- The results that were queued. -/
def ReadOutcome.queued : ReadOutcome → List RpcResult
  | handled message result => if message.header.needReturn then [result] else []
  | _ => []

namespace Input

variable (input : Input Service)

/-- The number of bytes the handler takes from the socket. -/
def consumed : ℕ :=
  input.header.received.length +
    if input.header.value = RpcHeader.size then input.body.received.length else 0

/-- The calls of `recv` do what they may while `unread` is to be received. -/
def Possible (unread : List UInt8) : Prop :=
  input.header.Allowed RpcHeader.size unread ∧
    input.body.Allowed (sizeOfInt (RpcHeader.ofBytes input.header.received).bodyLength)
      (unread.drop input.header.received.length)

instance (unread : List UInt8) : Decidable (input.Possible unread) := by
  unfold Possible
  infer_instance

end Input

namespace RpcServer

variable (s : RpcServer Service)

/-- How the request handler would end. -/
def readOutcome (input : Input Service) : ReadOutcome :=
  (handleReadEvent s.dictionary input.stack input.header input.body input.handle).2

end RpcServer

namespace System

variable (s : System Service)

/-- Before the first client connects. -/
def init (dictionary : Dict (List UInt8) Service) (listenfd : ℤ) : System Service where
  server := .listen dictionary listenfd
  pending := []
  queue := []
  running := []
  connection := fun _ => none
  accepted := 0
  unread := fun _ => []
  handed := fun _ => []
  answered := fun _ => []
  sends := fun _ => []

/-- The tasks under way. -/
def inFlight : List Task := s.pending ++ (s.queue ++ s.running)

/-- What epoll may report of a descriptor: only what it waits for, and something. -/
def Reports (fd : ℤ) (events : Events) : Prop :=
  ∃ output, s.server.interest fd = .armed output ∧ (events.output → output) ∧
    (events.err || events.rdhup || events.input || events.output || events.hup)

instance (fd : ℤ) (events : Events) : Decidable (s.Reports fd events) := by
  cases h : s.server.interest fd with
  | armed output =>
    apply decidable_of_iff ((events.output → output) ∧
      (events.err || events.rdhup || events.input || events.output || events.hup))
    simp [Reports, h]
  | absent => exact isFalse (by simp [Reports, h])
  | disarmed => exact isFalse (by simp [Reports, h])

/-- The descriptor has an event under way from now on. -/
def report (fd : ℤ) (type : EventType) : System Service :=
  { s with
    server := { s.server with interest := Function.update s.server.interest fd .disarmed }
    pending := s.pending ++ [⟨fd, type⟩] }

/-- A worker is done with its task. -/
def done (task : Task) : System Service := { s with running := s.running.erase task }

/-- The request handler of connection `c` returned. -/
def received (c : ℕ) (input : Input Service) (server : RpcServer Service) : System Service :=
  { s with
    server := server
    unread := Function.update s.unread c ((s.unread c).drop input.consumed)
    handed := Function.update s.handed c
      (s.handed c ++ (s.server.readOutcome input).messages)
    answered := Function.update s.answered c
      (s.answered c ++ (s.server.readOutcome input).queued) }

/-- The result sender of connection `c` returned. -/
def sent (c : ℕ) (fd : ℤ) (input : Input Service) (server : RpcServer Service) :
    System Service :=
  { s with
    server := server
    sends := Function.update s.sends c
      (s.sends c ++ ((s.server.returnValues fd).take 1).map fun r => (r, input.send)) }

/-- A client was accepted as `connfd`. -/
def connect (connfd : ℤ) (stream : List UInt8) (server : RpcServer Service) :
    System Service :=
  { s with
    server := server
    connection := Function.update s.connection connfd (some s.accepted)
    accepted := s.accepted + 1
    unread := Function.update s.unread s.accepted stream }

/-- A descriptor was closed. -/
def disconnect (fd : ℤ) (server : RpcServer Service) : System Service :=
  { s with server := server, connection := Function.update s.connection fd none }

/-- What a handler that returns does; `none` if it does not return or its calls cannot have
done what `input` says. Calls on a descriptor that is not open fail and end the server. -/
def work (task : Task) (input : Input Service) (stream : List UInt8) :
    Option (System Service) :=
  match s.server.handleEvent task.fd task.type input with
  | .exited => none
  | .undefined => none
  | .finished server =>
    match s.server.method task.fd task.type, s.connection task.fd with
    | .nothing, _ => some s
    | .request, some c =>
      if input.Possible (s.unread c) then some (s.received c input server) else none
    | .result, some c => some (s.sent c task.fd input server)
    | .accept, none =>
      match input.accepted with
      | none => some { s with server := server }
      | some connfd =>
        -- the kernel hands out a descriptor that is not open
        if 0 ≤ connfd ∧ s.connection connfd = none ∧ connfd ≠ s.server.listenfd then
          some (s.connect connfd stream server)
        else none
    | .close, some _ => some (s.disconnect task.fd server)
    | _, _ => none

/-- The state after an action; `none` if it cannot happen or ends the server. -/
def exec : Action Service → Option (System Service)
  | .dispatch fd events =>
    if s.Reports fd events then events.type.map (s.report fd) else none
  | .addTask =>
    match s.pending with
    | [] => none
    | task :: rest =>
      -- `AddTask` gives up a task for which there is no room
      some { s with
        pending := rest
        queue := if s.queue.length < taskQueueSize then s.queue ++ [task] else s.queue }
  | .takeTask =>
    match s.queue with
    | [] => none
    | task :: rest =>
      if s.running.length < threadNum then
        some { s with queue := rest, running := s.running ++ [task] }
      else none
  | .handle task input stream =>
    if task ∈ s.running then (s.work task input stream).map fun t => t.done task else none

end System

/-- The runs of a server with these services that listens on `listenfd`. -/
def serverSystem (dictionary : Dict (List UInt8) Service) (listenfd : ℤ) :
    TransitionSystem (System Service) (Action Service) :=
  .ofExec (.init dictionary listenfd) System.exec

/-! ## What a handler changes -/

namespace RpcServer

variable {s t : RpcServer Service} {fd fd' : ℤ} {type : EventType} {input : Input Service}

/-- `t` differs from `s` in the queue and the registration of one descriptor at most. -/
structure Only (fd : ℤ) (s t : RpcServer Service) : Prop where
  dictionary : t.dictionary = s.dictionary
  list : t.list = s.list
  listenfd : t.listenfd = s.listenfd
  returnValues : ∀ fd' ≠ fd, t.returnValues fd' = s.returnValues fd'
  interest : ∀ fd' ≠ fd, t.interest fd' = s.interest fd'
  registered : t.interest fd = s.interest fd ∨
    s.interest fd ≠ .absent ∧ t.interest fd = .armed (t.returnValues fd ≠ [])

theorem Only.rfl : Only fd s s :=
  ⟨.refl _, .refl _, .refl _, fun _ _ => .refl _, fun _ _ => .refl _, .inl (.refl _)⟩

theorem only_fileDescriptorEventDone {queue : List RpcResult} :
    Only fd s ((s.pipeRead fd queue).fileDescriptorEventDone fd) where
  dictionary := by simp [fileDescriptorEventDone, pipeRead]
  list := by simp [fileDescriptorEventDone, pipeRead]
  listenfd := by simp [fileDescriptorEventDone, pipeRead]
  returnValues fd' h := by simp [fileDescriptorEventDone, pipeRead, h]
  interest fd' h := by
    rw [fileDescriptorEventDone, interest_modEvent, if_neg (by simp [h])]
    rfl
  registered := by
    rw [fileDescriptorEventDone, modEvent_returnValues, interest_modEvent]
    by_cases h : s.interest fd = .absent
    · left
      rw [if_neg (by simp [pipeRead, h])]
      rfl
    · right
      exact ⟨h, if_pos ⟨.refl _, h⟩⟩

theorem answer_eq (m : RpcMessage) (r : RpcResult) : s.answer fd m r =
    (s.pipeRead fd (s.returnValues fd ++ (ReadOutcome.handled m r).queued)
      ).fileDescriptorEventDone fd := by
  rw [answer, ReadOutcome.queued]
  split
  · rfl
  · simp [pipeRead]

/-- The request handler touches its own descriptor and queues the result. -/
theorem request_finished (h : s.request fd input = .finished t) :
    Only fd s t ∧ t.returnValues fd = s.returnValues fd ++ (s.readOutcome input).queued := by
  rw [request] at h
  rw [readOutcome]
  split at h
  · cases h
  · cases h
  · rename_i houtcome
    cases h
    rw [houtcome]
    exact ⟨.rfl, by simp [ReadOutcome.queued]⟩
  · rename_i m r houtcome
    cases h
    rw [houtcome, answer_eq]
    exact ⟨only_fileDescriptorEventDone, by simp [fileDescriptorEventDone, pipeRead]⟩

/-- The result sender touches its own descriptor and takes the first result. -/
theorem result_finished (h : s.result fd input = .finished t) :
    Only fd s t ∧ t.interest fd = (if s.interest fd = .absent then .absent
        else .armed (t.returnValues fd ≠ [])) ∧
      ∃ r, s.returnValues fd = r :: t.returnValues fd := by
  rw [result] at h
  split at h
  · cases h
  · rename_i r rest hqueue
    split at h
    · cases h
    · cases h
      refine ⟨only_fileDescriptorEventDone, ?_, r, ?_⟩
      · rw [fileDescriptorEventDone, modEvent_returnValues, interest_modEvent]
        by_cases h : s.interest fd = .absent
        · simp [pipeRead, h]
        · rw [if_neg h, if_pos ⟨.refl _, h⟩]
      · simp [fileDescriptorEventDone, pipeRead, hqueue]

/-- The listening socket's handler sets up the accepted descriptor and goes on listening. -/
theorem accept_finished (h : s.accept fd input = .finished t) : fd = s.listenfd ∧
    t = ({ s with list := attachAll s.list (input.accepted.getD (-1)) }.addEvent
      (input.accepted.getD (-1))).modEvent s.listenfd false := by
  rw [accept] at h
  split at h
  · cases h
  · rename_i hfd
    cases h
    exact ⟨not_not.mp hfd, .refl _⟩

theorem handleEvent_request (hm : s.method fd type = .request) :
    s.handleEvent fd type input = s.request fd input := by
  rw [handleEvent, hm]

theorem handleEvent_result (hm : s.method fd type = .result) :
    s.handleEvent fd type input = s.result fd input := by
  rw [handleEvent, hm]

theorem handleEvent_accept (hm : s.method fd type = .accept) :
    s.handleEvent fd type input = s.accept fd input := by
  rw [handleEvent, hm]

theorem handleEvent_close (hm : s.method fd type = .close) :
    s.handleEvent fd type input = .finished (s.close fd) := by
  rw [handleEvent, hm]

end RpcServer

/-- What a handler that returns did, by the method it ran. -/
inductive System.Worked (s : System Service) (task : Task) (input : Input Service)
    (stream : List UInt8) : System Service → Prop
  | nothing : s.server.method task.fd task.type = .nothing → Worked s task input stream s
  | request {c : ℕ} {server : RpcServer Service} :
      s.server.method task.fd task.type = .request → s.connection task.fd = some c →
      input.Possible (s.unread c) → s.server.request task.fd input = .finished server →
      Worked s task input stream (s.received c input server)
  | result {c : ℕ} {server : RpcServer Service} :
      s.server.method task.fd task.type = .result → s.connection task.fd = some c →
      s.server.result task.fd input = .finished server →
      Worked s task input stream (s.sent c task.fd input server)
  | refused {server : RpcServer Service} :
      s.server.method task.fd task.type = .accept → input.accepted = none →
      s.server.accept task.fd input = .finished server →
      Worked s task input stream { s with server := server }
  | connect {connfd : ℤ} {server : RpcServer Service} :
      s.server.method task.fd task.type = .accept → input.accepted = some connfd →
      0 ≤ connfd → s.connection connfd = none → connfd ≠ s.server.listenfd →
      s.server.accept task.fd input = .finished server →
      Worked s task input stream (s.connect connfd stream server)
  | disconnect {c : ℕ} : s.server.method task.fd task.type = .close →
      s.connection task.fd = some c →
      Worked s task input stream (s.disconnect task.fd (s.server.close task.fd))

theorem System.worked_of_work {s t : System Service} {task : Task} {input : Input Service}
    {stream : List UInt8} (h : s.work task input stream = some t) :
    s.Worked task input stream t := by
  rw [work] at h
  split at h
  · cases h
  · cases h
  rename_i server hserver
  split at h
  · rename_i hmethod
    cases h
    exact .nothing hmethod
  · rename_i c hmethod hc
    rw [RpcServer.handleEvent_request hmethod] at hserver
    split at h
    · rename_i hpossible
      cases h
      exact .request hmethod hc hpossible hserver
    · cases h
  · rename_i c hmethod hc
    rw [RpcServer.handleEvent_result hmethod] at hserver
    cases h
    exact .result hmethod hc hserver
  · rename_i hmethod hc
    rw [RpcServer.handleEvent_accept hmethod] at hserver
    split at h
    · rename_i haccepted
      cases h
      exact .refused hmethod haccepted hserver
    · rename_i connfd haccepted
      split at h
      · rename_i hfree
        cases h
        exact .connect hmethod haccepted hfree.1 hfree.2.1 hfree.2.2 hserver
      · cases h
  · rename_i c hmethod hc
    rw [RpcServer.handleEvent_close hmethod] at hserver
    cases hserver
    cases h
    exact .disconnect hmethod hc
  · cases h

/-! ## What a step changes -/

namespace System

variable {s t : System Service}

/-- Tasks were moved or given up, and nothing else changed. -/
structure Moved (s t : System Service) : Prop where
  inFlight : t.inFlight.Subperm s.inFlight
  rest : t = { s with pending := t.pending, queue := t.queue, running := t.running }

/-- What an action did. A task is given up only if it is added while the queue is full. -/
theorem exec_cases {a : Action Service} (h : s.exec a = some t) :
    (∃ fd events type, a = .dispatch fd events ∧ s.Reports fd events ∧
      events.type = some type ∧ t = s.report fd type) ∨
    (s.Moved t ∧ ((a = .addTask ∨ a = .takeTask) ∧ t.inFlight.Perm s.inFlight ∨
      a = .addTask ∧ taskQueueSize ≤ s.queue.length ∧
        ∃ task, s.pending.head? = some task ∧ s.inFlight = task :: t.inFlight)) ∨
    ∃ task input stream u, a = .handle task input stream ∧ task ∈ s.running ∧
      s.Worked task input stream u ∧ t = u.done task := by
  cases a with
  | dispatch fd events =>
    rw [exec] at h
    split at h
    · rename_i hreports
      obtain ⟨type, htype, rfl⟩ := Option.map_eq_some_iff.mp h
      exact .inl ⟨fd, events, type, rfl, hreports, htype, rfl⟩
    · cases h
  | addTask =>
    refine .inr (.inl ?_)
    simp only [exec] at h
    split at h
    · cases h
    · rename_i task rest hpending
      cases h
      by_cases hroom : s.queue.length < taskQueueSize
      · have hperm : (rest ++ (s.queue ++ [task] ++ s.running)).Perm
            (task :: rest ++ (s.queue ++ s.running)) := by
          simp only [List.append_assoc, List.cons_append, List.nil_append]
          rw [← List.append_assoc, ← List.append_assoc rest]
          exact List.perm_middle
        rw [if_pos hroom]
        refine ⟨⟨?_, rfl⟩, .inl ⟨.inl rfl, ?_⟩⟩ <;> simp only [inFlight, hpending]
        · exact hperm.subperm
        · exact hperm
      · rw [if_neg hroom]
        have hdropped : s.inFlight = task :: (rest ++ (s.queue ++ s.running)) := by
          simp [inFlight, hpending]
        have hhead : s.pending.head? = some task := by rw [hpending, List.head?_cons]
        refine ⟨⟨?_, rfl⟩, .inr ⟨rfl, Nat.le_of_not_lt hroom, task, hhead, hdropped⟩⟩
        rw [hdropped]
        exact (List.sublist_cons_self task _).subperm
  | takeTask =>
    refine .inr (.inl ?_)
    simp only [exec] at h
    split at h
    · cases h
    · rename_i task rest hqueue
      split at h
      · cases h
        have hperm : (s.pending ++ (rest ++ (s.running ++ [task]))).Perm
            (s.pending ++ (task :: rest ++ s.running)) := by
          apply List.Perm.append_left
          rw [← List.append_assoc]
          simp only [List.cons_append]
          exact List.perm_append_singleton task _
        refine ⟨⟨?_, rfl⟩, .inl ⟨.inr rfl, ?_⟩⟩ <;> simp only [inFlight, hqueue]
        · exact hperm.subperm
        · exact hperm
      · cases h
  | handle task input stream =>
    rw [exec] at h
    split at h
    · rename_i hrunning
      obtain ⟨u, hu, rfl⟩ := Option.map_eq_some_iff.mp h
      exact .inr (.inr ⟨task, input, stream, u, rfl, hrunning, worked_of_work hu, rfl⟩)
    · cases h

/-- A task that a worker runs is the only difference between the tasks under way before and
after it is done. -/
theorem inFlight_perm_done {task : Task} (h : task ∈ s.running) :
    s.inFlight.Perm (task :: (s.done task).inFlight) := by
  simp only [inFlight, done]
  rw [← List.append_assoc, ← List.append_assoc]
  exact ((List.perm_cons_erase h).append_left _).trans List.perm_middle

end System

end DreamboatRpc.Server
