import DreamboatRpc.Server.Runtime

/-!
# Connections are armed again

A descriptor is registered one-shot, so an event that is not answered by `ModEvent` or by
closing the descriptor freezes the connection. The request handler has returns that do
neither.

## Main definitions

* `RpcServer.Connected` — a descriptor is a client connection
* `RpcServer.Settled` — it was closed, or waits for events again
* `Rearms` — what was reported and received leads to one of the two

## Main results

* `settled_iff` — a handler leaves a connection settled if and only if `Rearms`
* `frozen` — half a header freezes a connection with a result in its queue
-/

namespace DreamboatRpc.Server

open CS Rpc

/-- If the handler returns, the state it leaves satisfies `P`. Once memory was overwritten
nothing can be said of what it does. -/
def Outcome.Ends {σ : Type} (P : σ → Prop) : Outcome σ → Prop
  | exited => True
  | undefined => False
  | finished s => P s

namespace RpcServer

variable {Service : Type} {s : RpcServer Service} {fd : ℤ} {input : Input Service}

/-- The descriptor of a client connection, as `ServerTransport` sets it up. -/
structure Connected (s : RpcServer Service) (fd : ℤ) : Prop where
  reader : s.list (4 * fd) = some .requestHandler
  writer : s.list (4 * fd + 1) = some .resultSender
  closer : s.list (4 * fd + 2) = some .serverTransport
  registered : s.interest fd ≠ .absent

/-- The descriptor was closed and has no handlers, or it waits for `EPOLLIN`, and for
`EPOLLOUT` if and only if its queue is not empty. -/
def Settled (s : RpcServer Service) (fd : ℤ) : Prop :=
  (s.interest fd = .absent ∧ ∀ i ∈ [4 * fd, 4 * fd + 1, 4 * fd + 2], s.list i = none) ∨
    s.interest fd = .armed (s.returnValues fd ≠ [])

instance (s : RpcServer Service) (fd : ℤ) : Decidable (s.Settled fd) := by
  unfold Settled
  infer_instance

/-! ## The slots of a connection -/

/-- The handlers that `ServerTransport` attaches to an accepted descriptor. -/
theorem connected_accept {connfd : ℤ} (hconnfd : 0 ≤ connfd)
    (haccepted : input.accepted = some connfd) :
    (s.accept s.listenfd input).Ends (Connected · connfd) := by
  rw [accept, if_neg (not_not.mpr rfl), haccepted, Option.getD_some]
  constructor
  case registered =>
    simp only [interest_modEvent, interest_addEvent _ hconnfd]
    split <;> simp
  all_goals
    simp only [modEvent_list, addEvent_list, attachAll_apply]
    simp

theorem Connected.method_read (h : s.Connected fd) : s.method fd readEvent = .request := by
  rw [method, if_neg (by decide), getEventId_read, h.reader]
  rfl

theorem Connected.method_write (h : s.Connected fd) : s.method fd writeEvent = .result := by
  rw [method, if_neg (by decide), getEventId_write, h.writer]
  rfl

theorem Connected.method_close (h : s.Connected fd) : s.method fd closeEvent = .close := by
  rw [method, if_neg (by decide), getEventId_close, h.closer]
  rfl

/-- Reporting an event changes no slot. -/
theorem Connected.disarm (h : s.Connected fd) :
    Connected { s with interest := Function.update s.interest fd .disarmed } fd where
  reader := h.reader
  writer := h.writer
  closer := h.closer
  registered := by simp

/-! ## What the handlers leave -/

/-- A registered descriptor whose event is done waits again. -/
theorem settled_fileDescriptorEventDone (h : s.interest fd ≠ .absent) :
    (s.fileDescriptorEventDone fd).Settled fd := by
  apply Or.inr
  rw [fileDescriptorEventDone, modEvent_returnValues, interest_modEvent, if_pos ⟨rfl, h⟩]

theorem settled_answer (h : s.interest fd ≠ .absent) (m : RpcMessage) (r : RpcResult) :
    (s.answer fd m r).Settled fd := by
  apply settled_fileDescriptorEventDone
  split
  · exact h
  · exact h

theorem settled_close : (s.close fd).Settled fd := by
  apply Or.inl
  constructor
  · simp [close, delEvent]
  · intro i hi
    simp only [close, delEvent, HandlerTable.detachEventHandler,
      HandlerTable.setEventHandler_all]
    rw [if_pos hi]

/-- An early return leaves a descriptor as the report of its event left it. -/
theorem not_settled_of_disarmed (h : s.interest fd = .disarmed) : ¬ s.Settled fd := by
  rintro (⟨habsent, -⟩ | harmed)
  · rw [h] at habsent
    cases habsent
  · rw [h] at harmed
    cases harmed

/-! ## Which events lead to a settled connection -/

/-- The request that was received is complete, passes the checks and names a service. -/
def Served (dictionary : Dict (List UInt8) Service) (input : Input Service) : Prop :=
  Passes input.header input.body ∧ (dictionary.get? (cString (servicenameMemory
    (receivedMessage input.header.received input.body.received) input.stack))).isSome

instance (dictionary : Dict (List UInt8) Service) (input : Input Service) :
    Decidable (Served dictionary input) := by
  unfold Served
  infer_instance

/-- The events have no `EPOLLERR`, and if they lead to the request handler, either a whole
request for a registered service arrives or `recv` fails otherwise than with `EAGAIN`, which
ends the server. -/
def Rearms (dictionary : Dict (List UInt8) Service) (events : Events)
    (input : Input Service) : Prop :=
  events.err = false ∧ (events.rdhup = false → events.input = true →
    input.header = .error .other ∨ Served dictionary input)

instance (dictionary : Dict (List UInt8) Service) (events : Events) (input : Input Service) :
    Decidable (Rearms dictionary events input) := by
  unfold Rearms
  infer_instance

/-- What does not pass is met by an early return, unless it ends the server or is longer than
the body. -/
theorem request_of_not_passes (h : ¬ Passes input.header input.body) :
    s.request fd input =
      if input.header = .error .other then .exited
      else if input.header.value = RpcHeader.size ∧
        maxRpcParamsSize < input.body.received.length then .undefined
      else .finished s := by
  rw [request, handleReadEvent_of_not_passes h]
  by_cases herror : input.header = .error .other
  · simp only [if_pos herror]
  simp only [if_neg herror]
  by_cases hlength : input.header.value = RpcHeader.size
  · rw [if_neg (not_not.mpr hlength)]
    by_cases hfit : maxRpcParamsSize < input.body.received.length
    · rw [if_pos hfit, if_pos ⟨hlength, hfit⟩]
    · rw [if_neg hfit, if_neg fun hboth => hfit hboth.2]
  · rw [if_pos hlength, if_neg fun hboth => hlength hboth.1]

/-- The request handler settles a disarmed connection if and only if a whole request for a
registered service arrives, unless it ends the server. -/
theorem request_settled_iff (h : s.interest fd = .disarmed) :
    (s.request fd input).Ends (Settled · fd) ↔
      input.header = .error .other ∨ Served s.dictionary input := by
  have hnot := not_settled_of_disarmed h
  have hregistered : s.interest fd ≠ .absent := by
    rw [h]
    simp
  by_cases hpasses : Passes input.header input.body
  · obtain ⟨received, hbytes, -⟩ := Recv.eq_bytes_of_value hpasses.1
    have hne : input.header ≠ .error .other := by
      rw [hbytes]
      simp
    simp only [hne, false_or, Served, hpasses, true_and]
    rw [request, handleReadEvent_of_passes hpasses]
    dsimp only
    rw [serve]
    -- without a service the handler returns and the descriptor stays disarmed
    cases hget : s.dictionary.get? (cString (servicenameMemory
      (receivedMessage input.header.received input.body.received) input.stack)) with
    | none => simpa [Outcome.Ends] using hnot
    | some service =>
      cases hhandle : input.handle service
        (receivedMessage input.header.received input.body.received) with
      | none => simp [hhandle, Outcome.Ends]
      | some result => simpa [hhandle, Outcome.Ends] using settled_answer hregistered _ _
  · -- the early returns: no header, wrong header, no body
    simp only [Served, hpasses, false_and, or_false]
    rw [request_of_not_passes hpasses]
    by_cases herror : input.header = .error .other
    · simp [herror, Outcome.Ends]
    · rw [if_neg herror]
      simp only [herror, iff_false]
      split
      · exact not_false
      · exact hnot

/-- The result sender settles every connection, unless it ends the server. -/
theorem result_settled (h : s.interest fd ≠ .absent) :
    (s.result fd input).Ends (Settled · fd) := by
  rw [result]
  split
  · trivial
  · split
    · trivial
    · exact settled_fileDescriptorEventDone h

/-- A handler leaves the connection whose event it got closed, or armed with `EPOLLOUT` if
and only if results wait, if and only if the events and what was received are such that it
rearms. -/
theorem settled_iff (s : RpcServer Service) (fd : ℤ) (h : s.Connected fd) (events : Events)
    (input : Input Service) :
    (s.deliver fd events input).Ends (Settled · fd) ↔ Rearms s.dictionary events input := by
  have hconnected := h.disarm
  have hdisarmed : ({ s with interest := Function.update s.interest fd .disarmed } :
      RpcServer Service).interest fd = .disarmed := Function.update_self ..
  have hregistered := hconnected.registered
  by_cases herr : events.err
  · -- type 0 has no handler
    have htype : events.type = some 0 := by simp [Events.type, herr]
    rw [deliver, htype]
    apply iff_of_false
    · exact not_settled_of_disarmed hdisarmed
    · simp [Rearms, herr]
  -- from here on the types are taken in the order in which the poller looks for them
  by_cases hrdhup : events.rdhup
  · have htype : events.type = some closeEvent := by simp [Events.type, herr, hrdhup]
    simp only [deliver, htype, handleEvent, hconnected.method_close]
    apply iff_of_true
    · exact settled_close
    · simp [Rearms, herr, hrdhup]
  by_cases hinput : events.input
  · have htype : events.type = some readEvent := by simp [Events.type, herr, hrdhup, hinput]
    simp only [deliver, htype, handleEvent, hconnected.method_read]
    simpa [Rearms, herr, hrdhup, hinput] using request_settled_iff hdisarmed
  have hrearms : Rearms s.dictionary events input := by simp [Rearms, herr, hinput]
  apply iff_of_true _ hrearms
  by_cases houtput : events.output
  · have htype : events.type = some writeEvent := by
      simp [Events.type, herr, hrdhup, hinput, houtput]
    simp only [deliver, htype, handleEvent, hconnected.method_write]
    exact result_settled hregistered
  · have htype : events.type = none := by
      simp [Events.type, herr, hrdhup, hinput, houtput]
    rw [deliver, htype]
    trivial

end RpcServer

/-! ## A connection that freezes -/

/-- A server that has accepted descriptor 5 and knows one service. -/
def acceptedServer : RpcServer Unit :=
  match (RpcServer.listen ((∅ : Dict (List UInt8) Unit).set [97] ()) 3).accept 3
    { header := .error .eagain, body := .error .eagain, stack := [],
      handle := fun _ _ => none, send := .error .eagain, accepted := some 5 } with
  | .finished s => s
  | _ => .listen ∅ 3

theorem connected_acceptedServer : acceptedServer.Connected 5 :=
  ⟨rfl, rfl, rfl, by decide⟩

/-- `EPOLLIN` and nothing else -/
def Events.readable : Events := ⟨false, false, true, false, false⟩

/-- A request arrives as these bytes. -/
def requestInput (header body : List UInt8) : Input Unit where
  header := .bytes header
  body := .bytes body
  stack := []
  handle := fun _ _ => some ⟨0, .bzero _⟩
  send := .error .eagain
  accepted := none

theorem settled_iff_request :
    (acceptedServer.deliver 5 Events.readable
      (requestInput (requestHeader [97] 1 true).toBytes [0])).Ends (RpcServer.Settled · 5) :=
  (RpcServer.settled_iff acceptedServer 5 connected_acceptedServer Events.readable
    (requestInput (requestHeader [97] 1 true).toBytes [0])).mpr (by decide +kernel)

/-- The first ten bytes of a header freeze a connection. -/
theorem frozen : acceptedServer.Connected 5 ∧
    ¬ (acceptedServer.deliver 5 Events.readable
      (requestInput ((requestHeader [97] 1 true).toBytes.take 10) [])).Ends
        (RpcServer.Settled · 5) := by
  refine ⟨connected_acceptedServer, ?_⟩
  change ¬ RpcServer.Settled _ 5
  decide +kernel

end DreamboatRpc.Server
