import DreamboatRpc.Server.Isolation

/-!
# Requests in a byte stream

A connection carries requests one behind the other, and `recv` may cut the stream anywhere.
The handler forgets what it received of a request that is not complete, and does not arm the
connection again. So the requests reach their services if and only if no `recv` comes up
short.

## Main definitions

* `WellFormed` — a request that the handler serves once it has received it
* `Writes` — the client of a connection writes these requests
* `Undisturbed` — it stays connected
* `WholeReads` — every `recv` on a connection gets all it asks for
* `System.Idle` — nothing more happens on a connection

## Main results

* `framing` — under these conditions a service gets each request, in order
* `request_torn` — a header that arrives in two parts is lost
-/

namespace DreamboatRpc.Server

open CS Rpc TransitionSystem

variable {Service : Type}

/-! ## Requests and their bytes -/

/-- A request that the handler serves once it has received it. -/
def WellFormed (dictionary : Dict (List UInt8) Service) (m : RpcMessage) : Prop :=
  m.header.magic = rpcMagicNumber ∧ m.header.version = rpcVersion ∧
    0 ∈ m.header.servicename.bytes ∧
    (dictionary.get? (cString m.header.servicename.bytes)).isSome ∧
    0 ≤ m.header.bodyLength.toInt ∧ m.header.bodyLength.toInt ≤ maxRpcParamsSize

instance (dictionary : Dict (List UInt8) Service) (m : RpcMessage) :
    Decidable (WellFormed dictionary m) := by
  unfold WellFormed
  infer_instance

/-- The part of the body that is sent. -/
def sentBody (m : RpcMessage) : List UInt8 :=
  m.body.parameters.bytes.take m.header.bodyLength.toInt.toNat

/-- The request as the server holds it: what was not sent of the body is zero. -/
def asReceived (m : RpcMessage) : RpcMessage :=
  { m with body := ⟨.ofBytes maxRpcParamsSize (sentBody m)⟩ }

variable {dictionary : Dict (List UInt8) Service} {m : RpcMessage} {input : Input Service}
  {rest : List UInt8}

theorem WellFormed.length_sentBody (h : WellFormed dictionary m) :
    ((sentBody m).length : ℤ) = m.header.bodyLength.toInt := by
  obtain ⟨-, -, -, -, hnonneg, hfit⟩ := h
  rw [sentBody, List.length_take, m.body.parameters.length_bytes]
  omega

theorem length_serializeMessage (m : RpcMessage) :
    (serializeMessage m).length = RpcHeader.size + (sentBody m).length := by
  rw [serializeMessage, List.length_append, RpcHeader.length_toBytes, sentBody]

/-- What two complete `recv` get while a request is at the front of the stream. -/
theorem received_of_whole (h : WellFormed dictionary m)
    (hpossible : input.Possible (serializeMessage m ++ rest))
    (hheader : input.header.value = RpcHeader.size)
    (hbody : input.body.value = (RpcHeader.ofBytes input.header.received).bodyLength.toInt) :
    input.header = .bytes m.header.toBytes ∧ input.body = .bytes (sentBody m) := by
  obtain ⟨received, hbytes, hlength⟩ := Recv.eq_bytes_of_value hheader
  obtain ⟨hfirst, hsecond⟩ := hpossible
  rw [hbytes] at hfirst hsecond hbody
  simp only [Recv.received_bytes] at hsecond hbody
  -- the first 48 bytes of the stream are the header
  have hreceived : received = m.header.toBytes := by
    have hprefix := hfirst.1
    rw [serializeMessage, List.append_assoc] at hprefix
    have htake := List.prefix_iff_eq_take.mp hprefix
    rw [hlength, ← RpcHeader.length_toBytes m.header, List.take_left' rfl] at htake
    exact htake
  subst hreceived
  have hself : RpcHeader.ofBytes m.header.toBytes = m.header := by
    simpa using RpcHeader.ofBytes_toBytes m.header []
  rw [hself] at hbody
  refine ⟨hbytes, ?_⟩
  cases hrecv : input.body with
  | error errno =>
    rw [hrecv, Recv.value_error] at hbody
    have hnonneg := h.2.2.2.2.1
    omega
  | bytes body =>
    rw [hrecv, Recv.value_bytes] at hbody
    rw [hrecv] at hsecond
    -- the next `body_length` bytes are the body
    have hprefix := hsecond.1
    rw [serializeMessage, List.append_assoc, ← sentBody, List.drop_left' rfl] at hprefix
    have hlen : body.length = (sentBody m).length := by
      have := h.length_sentBody
      omega
    have htake := List.prefix_iff_eq_take.mp hprefix
    rw [hlen, List.take_left' rfl] at htake
    rw [htake]

theorem receivedMessage_asReceived (m : RpcMessage) :
    receivedMessage m.header.toBytes (sentBody m) = asReceived m := by
  have hself : RpcHeader.ofBytes m.header.toBytes = m.header := by
    simpa using RpcHeader.ofBytes_toBytes m.header []
  rw [receivedMessage, hself, asReceived]

/-- Once it was received, a well-formed request is served. -/
theorem served_of_received (h : WellFormed dictionary m)
    (hheader : input.header = .bytes m.header.toBytes)
    (hbody : input.body = .bytes (sentBody m)) : RpcServer.Served dictionary input := by
  have hlength := h.length_sentBody
  obtain ⟨hmagic, hversion, hzero, hservice, hnonneg, hfit⟩ := h
  have hmessage : receivedMessage input.header.received input.body.received = asReceived m := by
    rw [hheader, hbody]
    exact receivedMessage_asReceived m
  have hname : (asReceived m).header = m.header := rfl
  refine ⟨⟨?_, ?_, ?_, ?_, ?_⟩, ?_⟩
  · rw [hheader, Recv.value_bytes, RpcHeader.length_toBytes]
  · rw [hbody, Recv.received_bytes]
    omega
  · rw [hmessage, hname, hbody, Recv.value_bytes, hlength]
  · rw [hmessage, hname, hmagic]
  · rw [hmessage, hname, hversion]
  · rw [hmessage, cString_servicenameMemory (by rw [hname]; exact hzero), hname]
    exact hservice

/-- A handler that returns after it received a whole request has handed it to its service. -/
theorem readOutcome_of_received {server server' : RpcServer Service} {fd : ℤ}
    (h : WellFormed server.dictionary m) (hheader : input.header = .bytes m.header.toBytes)
    (hbody : input.body = .bytes (sentBody m))
    (hserver : server.request fd input = .finished server') :
    ∃ result, server.readOutcome input = .handled (asReceived m) result := by
  obtain ⟨hpasses, hservice⟩ := served_of_received h hheader hbody
  have hmessage : receivedMessage input.header.received input.body.received = asReceived m := by
    rw [hheader, hbody]
    exact receivedMessage_asReceived m
  rw [hmessage] at hservice
  obtain ⟨service, hget⟩ := Option.isSome_iff_exists.mp hservice
  have houtcome : server.readOutcome input =
      (serve server.dictionary input.stack input.handle (asReceived m)).2 := by
    rw [RpcServer.readOutcome, handleReadEvent_of_passes hpasses, hmessage]
  cases hhandle : input.handle service (asReceived m) with
  | none =>
    have hexited : server.readOutcome input = .exited := by
      simp only [houtcome, serve, hget, hhandle]
    rw [RpcServer.request, ← RpcServer.readOutcome, hexited] at hserver
    cases hserver
  | some result =>
    refine ⟨{ result with seqno := (asReceived m).header.seqno }, ?_⟩
    simp only [houtcome, serve, hget, hhandle]

/-! ## Conditions on a run -/

/-- The client of connection `c` writes the requests `ms`. -/
def Writes (c : ℕ) (ms : List RpcMessage) (s : System Service) : Action Service → Prop
  | .handle task _ stream => s.server.method task.fd task.type = .accept → s.accepted = c →
      stream = ms.flatMap serializeMessage
  | _ => True

/-- No error and no hang-up is reported for the connection. -/
def Undisturbed (c : ℕ) (s : System Service) : Action Service → Prop
  | .dispatch fd events => s.connection fd = some c → events.err = false ∧ events.rdhup = false
  | _ => True

/-- Every `recv` on the connection gets as many bytes as it asks for, and there is room for
its events in the task queue. -/
def WholeReads (c : ℕ) (s : System Service) : Action Service → Prop
  | .handle task input _ => s.connection task.fd = some c → task.type = readEvent →
      input.header.value = RpcHeader.size ∧
        input.body.value = (RpcHeader.ofBytes input.header.received).bodyLength.toInt
  | .addTask => ∀ task ∈ s.pending.head?, s.connection task.fd = some c →
      s.queue.length < taskQueueSize
  | _ => True

instance (c : ℕ) (ms : List RpcMessage) (s : System Service) (a : Action Service) :
    Decidable (Writes c ms s a) :=
  match a with
  | .handle _ _ _ => by dsimp only [Writes]; infer_instance
  | .dispatch _ _ | .addTask | .takeTask => instDecidableTrue

instance (c : ℕ) (s : System Service) (a : Action Service) : Decidable (Undisturbed c s a) :=
  match a with
  | .dispatch _ _ => by dsimp only [Undisturbed]; infer_instance
  | .handle _ _ _ | .addTask | .takeTask => instDecidableTrue

instance (c : ℕ) (s : System Service) (a : Action Service) : Decidable (WholeReads c s a) :=
  match a with
  | .handle _ _ _ => by dsimp only [WholeReads]; infer_instance
  | .addTask => by dsimp only [WholeReads]; infer_instance
  | .dispatch _ _ | .takeTask => instDecidableTrue

namespace System

/-- Nothing more happens on a connection: no event of it is under way, and epoll does not
wait for one or has nothing to report. -/
def Idle (s : System Service) (fd : ℤ) (c : ℕ) : Prop :=
  (∀ task ∈ s.inFlight, task.fd ≠ fd) ∧
    ∀ output, s.server.interest fd = .armed output → s.unread c = []

/-! ## The invariant -/

/-- The requests that the client writes are those that were handed to their services and
those that are still to be received, and the connection waits for the latter. -/
structure Framed (dictionary : Dict (List UInt8) Service) (c : ℕ) (ms : List RpcMessage)
    (s : System Service) : Prop where
  services : s.server.dictionary = dictionary
  split : c < s.accepted → ∃ served rest, ms = served ++ rest ∧
    s.handed c = served.map asReceived ∧ s.unread c = rest.flatMap serializeMessage
  later : s.accepted ≤ c → s.handed c = []
  waits : ∀ fd, s.connection fd = some c →
    (∃ task ∈ s.inFlight, task.fd = fd) ∨ ∃ output, s.server.interest fd = .armed output
  type : ∀ task ∈ s.inFlight, s.connection task.fd = some c →
    task.type = readEvent ∨ task.type = writeEvent

variable {c : ℕ} {ms : List RpcMessage} {s t u : System Service} {task : Task}
  {stream : List UInt8} {server : RpcServer Service}

theorem framed_init (listenfd : ℤ) : (init dictionary listenfd).Framed dictionary c ms where
  services := rfl
  split h := absurd h (Nat.not_lt_zero c)
  later _ := rfl
  waits _ h := by cases h
  type _ h := by cases h

/-- What is under way besides the task of a handler is still under way after it. -/
theorem mem_inFlight_done (hrunning : u.running = s.running) (hinFlight : u.inFlight = s.inFlight)
    (htask : task ∈ s.running) {other : Task} (hne : other ≠ task) :
    other ∈ (u.done task).inFlight ↔ other ∈ s.inFlight := by
  have hperm := inFlight_perm_done (s := u) (hrunning ▸ htask)
  rw [← hinFlight, hperm.mem_iff, List.mem_cons]
  simp [hne]

/-- A handler that does not concern the connection keeps it framed. -/
theorem Framed.keep (h : s.Framed dictionary c ms) (hw : s.Wired) (htask : task ∈ s.running)
    (hother : s.connection task.fd ≠ some c)
    (hrunning : u.running = s.running) (hinFlight : u.inFlight = s.inFlight)
    (hdictionary : u.server.dictionary = s.server.dictionary)
    (hsplit : c < u.accepted → ∃ served rest, ms = served ++ rest ∧
      u.handed c = served.map asReceived ∧ u.unread c = rest.flatMap serializeMessage)
    (hlater : u.accepted ≤ c → u.handed c = [])
    (hopen : ∀ fd, u.connection fd = some c →
      (s.connection fd = some c ∧ u.server.interest fd = s.server.interest fd) ∨
        s.server.interest fd = .absent ∧ u.server.interest fd = .armed false) :
    (u.done task).Framed dictionary c ms := by
  refine ⟨hdictionary.trans h.services, hsplit, hlater, fun fd hfd => ?_,
    fun other hmem hfd => ?_⟩
  · rcases hopen fd hfd with ⟨hold, hinterest⟩ | ⟨-, harmed⟩
    · rcases h.waits fd hold with ⟨other, hmem, rfl⟩ | ⟨output, harmed⟩
      · left
        have hne : other ≠ task := by
          rintro rfl
          exact hother hold
        exact ⟨other, (mem_inFlight_done hrunning hinFlight htask hne).mpr hmem, rfl⟩
      · exact .inr ⟨output, hinterest.trans harmed⟩
    · exact .inr ⟨false, harmed⟩
  · have hmem' : other ∈ s.inFlight := by
      by_cases hne : other = task
      · rw [hne]
        exact List.mem_append_right _ (List.mem_append_right _ htask)
      · exact (mem_inFlight_done hrunning hinFlight htask hne).mp hmem
    rcases hopen _ hfd with ⟨hold, -⟩ | ⟨habsent, -⟩
    · exact h.type other hmem' hold
    · -- a descriptor that was just accepted has no event under way
      rw [hw.disarmed other hmem'] at habsent
      cases habsent

/-- The handler of an event of the connection keeps it framed if it arms it again. -/
theorem Framed.own (h : s.Framed dictionary c ms) (hw : s.Wired) (htask : task ∈ s.running)
    (hc : s.connection task.fd = some c)
    (hrunning : u.running = s.running) (hinFlight : u.inFlight = s.inFlight)
    (hconnection : u.connection = s.connection) (haccepted : u.accepted = s.accepted)
    (honly : RpcServer.Only task.fd s.server u.server)
    (hsplit : ∃ served rest, ms = served ++ rest ∧
      u.handed c = served.map asReceived ∧ u.unread c = rest.flatMap serializeMessage)
    (harmed : ∃ output, u.server.interest task.fd = .armed output) :
    (u.done task).Framed dictionary c ms := by
  have hlt := hw.accepted _ _ hc
  refine ⟨honly.dictionary.trans h.services, fun _ => hsplit, fun hle => ?_, fun fd hfd => ?_,
    fun other hmem hfd => ?_⟩
  · change u.accepted ≤ c at hle
    omega
  · change u.connection fd = some c at hfd
    rw [hconnection] at hfd
    rw [hw.injective _ _ _ hfd hc]
    exact .inr harmed
  · change u.connection other.fd = some c at hfd
    rw [hconnection] at hfd
    apply h.type other _ hfd
    by_cases hne : other = task
    · rw [hne]
      exact List.mem_append_right _ (List.mem_append_right _ htask)
    · exact (mem_inFlight_done hrunning hinFlight htask hne).mp hmem

/-- The handler arms a connection again after a request that reached its service. -/
theorem interest_of_handled {server' : RpcServer Service} {fd : ℤ} {r : RpcResult}
    (hregistered : server.interest fd ≠ .absent)
    (houtcome : server.readOutcome input = .handled m r)
    (hserver : server.request fd input = .finished server') :
    ∃ output, server'.interest fd = .armed output := by
  rw [RpcServer.readOutcome] at houtcome
  rw [RpcServer.request, houtcome] at hserver
  cases hserver
  rw [RpcServer.answer, RpcServer.fileDescriptorEventDone, RpcServer.interest_modEvent]
  refine ⟨_, if_pos ⟨rfl, ?_⟩⟩
  split
  · exact hregistered
  · exact hregistered

/-- The request handler takes one request from the stream to its service. -/
theorem Framed.request (h : s.Framed dictionary c ms) (hms : ∀ m ∈ ms, WellFormed dictionary m)
    (hw : s.Wired) (htask : task ∈ s.running)
    (hc : s.connection task.fd = some c) (hpossible : input.Possible (s.unread c))
    (hheader : input.header.value = RpcHeader.size)
    (hbody : input.body.value = (RpcHeader.ofBytes input.header.received).bodyLength.toInt)
    (hserver : s.server.request task.fd input = .finished server) :
    ((s.received c input server).done task).Framed dictionary c ms := by
  obtain ⟨served, rest, hsplit, hserved, hunread⟩ := h.split (hw.accepted _ _ hc)
  obtain ⟨received, hbytes, hlength⟩ := Recv.eq_bytes_of_value hheader
  cases rest with
  | nil =>
    -- no header comes out of an empty stream
    have hfirst := hpossible.1
    rw [hunread, hbytes] at hfirst
    have hempty := List.prefix_nil.mp hfirst.1
    rw [hempty] at hlength
    cases hlength
  | cons m rest =>
    have hm : WellFormed s.server.dictionary m := by
      rw [h.services]
      apply hms
      rw [hsplit]
      simp
    rw [hunread, List.flatMap_cons] at hpossible
    obtain ⟨hfirst, hsecond⟩ := received_of_whole hm hpossible hheader hbody
    obtain ⟨r, houtcome⟩ := readOutcome_of_received hm hfirst hsecond hserver
    have hregistered : s.server.interest task.fd ≠ .absent := (hw.connected _ _ hc).2.registered
    refine h.own hw htask hc rfl rfl rfl rfl (RpcServer.request_finished hserver).1
      ⟨served ++ [m], rest, by simp [hsplit], ?_, ?_⟩
      (interest_of_handled hregistered houtcome hserver)
    · simp [System.received, houtcome, ReadOutcome.messages, hserved]
    · have hconsumed : input.consumed = (serializeMessage m).length := by
        rw [Input.consumed, if_pos hheader, hfirst, hsecond, Recv.received_bytes,
          Recv.received_bytes, RpcHeader.length_toBytes, length_serializeMessage]
      simp only [System.received, Function.update_self]
      rw [hunread, hconsumed, List.flatMap_cons, List.drop_left' rfl]

/-- The result sender takes nothing from the stream. -/
theorem Framed.result (h : s.Framed dictionary c ms) (hw : s.Wired) (htask : task ∈ s.running)
    (hc : s.connection task.fd = some c)
    (hserver : s.server.result task.fd input = .finished server) :
    ((s.sent c task.fd input server).done task).Framed dictionary c ms := by
  obtain ⟨honly, harmed, -⟩ := RpcServer.result_finished hserver
  have hregistered : s.server.interest task.fd ≠ .absent := (hw.connected _ _ hc).2.registered
  rw [if_neg hregistered] at harmed
  exact h.own hw htask hc rfl rfl rfl rfl honly (h.split (hw.accepted _ _ hc)) ⟨_, harmed⟩

/-- An event of the connection leads to the handler of requests or of results. -/
theorem Framed.method (h : s.Framed dictionary c ms) (hw : s.Wired) (htask : task ∈ s.running)
    (hc : s.connection task.fd = some c) :
    task.type = readEvent ∧ s.server.method task.fd task.type = .request ∨
      s.server.method task.fd task.type = .result := by
  have hconnected := (hw.connected _ _ hc).2
  have hmem : task ∈ s.inFlight := List.mem_append_right _ (List.mem_append_right _ htask)
  rcases h.type task hmem hc with htype | htype
  · left
    rw [htype]
    exact ⟨rfl, hconnected.method_read⟩
  · right
    rw [htype]
    exact hconnected.method_write

/-- A handler of the connection keeps it framed. -/
theorem Framed.handle_own (h : s.Framed dictionary c ms)
    (hms : ∀ m ∈ ms, WellFormed dictionary m) (hw : s.Wired) (htask : task ∈ s.running)
    (hc : s.connection task.fd = some c) (hworked : s.Worked task input stream u)
    (hwhole : WholeReads c s (.handle task input stream)) :
    (u.done task).Framed dictionary c ms := by
  have hmethod := h.method hw htask hc
  cases hworked with
  | request hrequest hc' hpossible hserver =>
    cases hc.symm.trans hc'
    rcases hmethod with ⟨htype, -⟩ | hresult
    · obtain ⟨hheader, hbody⟩ := hwhole hc htype
      exact h.request hms hw htask hc hpossible hheader hbody hserver
    · rw [hrequest] at hresult
      cases hresult
  | result _ hc' hserver =>
    cases hc.symm.trans hc'
    exact h.result hw htask hc hserver
  | _ =>
    -- the other methods do not belong to the events of a connection
    simp_all

/-- A client that is accepted is another one, or the one that writes the requests. -/
theorem Framed.connect (h : s.Framed dictionary c ms) (hw : s.Wired) (htask : task ∈ s.running)
    (hc : s.connection task.fd ≠ some c) {connfd : ℤ} (haccepted : input.accepted = some connfd)
    (hnonneg : 0 ≤ connfd) (hfree : s.connection connfd = none)
    (hlisten : connfd ≠ s.server.listenfd)
    (hserver : s.server.accept task.fd input = .finished server)
    (hstream : s.accepted = c → stream = ms.flatMap serializeMessage) :
    ((s.connect connfd stream server).done task).Framed dictionary c ms := by
  obtain ⟨-, heq⟩ := RpcServer.accept_finished hserver
  rw [haccepted, Option.getD_some] at heq
  have hinterest : ∀ fd, fd ≠ s.server.listenfd → server.interest fd =
      if fd = connfd then .armed false else s.server.interest fd := by
    intro fd hne
    rw [heq, RpcServer.interest_modEvent, if_neg (by simp [hne]),
      RpcServer.interest_addEvent _ hnonneg]
  refine h.keep hw htask hc rfl rfl (by rw [System.connect, heq]; simp) (fun hlt => ?_)
    (fun hle => ?_) fun fd hfd => ?_
  · by_cases hnew : c = s.accepted
    · subst hnew
      refine ⟨[], ms, rfl, h.later le_rfl, ?_⟩
      simp only [System.connect, Function.update_self]
      exact hstream rfl
    · have hold : c < s.accepted := by
        have : c < s.accepted + 1 := hlt
        omega
      simpa [System.connect, hnew] using h.split hold
  · have : s.accepted + 1 ≤ c := hle
    exact h.later (by omega)
  · simp only [System.connect, Function.update_apply] at hfd
    split at hfd
    · rename_i hfd'
      subst hfd'
      refine .inr ⟨hw.absent _ hfree hlisten, ?_⟩
      change server.interest _ = _
      rw [hinterest _ hlisten, if_pos rfl]
    · rename_i hfd'
      refine .inl ⟨hfd, ?_⟩
      change server.interest fd = _
      rw [hinterest fd (hw.ne_listenfd hfd), if_neg hfd']

/-- A handler of another descriptor keeps it framed. -/
theorem Framed.handle_other (h : s.Framed dictionary c ms) (hw : s.Wired)
    (htask : task ∈ s.running) (hc : s.connection task.fd ≠ some c)
    (hworked : s.Worked task input stream u) (hwrites : Writes c ms s (.handle task input stream)) :
    (u.done task).Framed dictionary c ms := by
  have hself : ∀ fd, s.connection fd = some c → fd ≠ task.fd := by
    rintro fd hfd rfl
    exact hc hfd
  cases hworked with
  | nothing =>
    exact h.keep hw htask hc rfl rfl rfl h.split h.later fun fd hfd => .inl ⟨hfd, rfl⟩
  | @request c' server _ hc' _ hserver =>
    have hne : c ≠ c' := by
      rintro rfl
      exact hc hc'
    have honly := (RpcServer.request_finished hserver).1
    refine h.keep hw htask hc rfl rfl honly.dictionary ?_ ?_
      fun fd hfd => .inl ⟨hfd, honly.interest _ (hself fd hfd)⟩
    · simpa [System.received, hne] using h.split
    · simpa [System.received, hne] using h.later
  | result _ _ hserver =>
    have honly := (RpcServer.result_finished hserver).1
    exact h.keep hw htask hc rfl rfl honly.dictionary h.split h.later
      fun fd hfd => .inl ⟨hfd, honly.interest _ (hself fd hfd)⟩
  | refused _ hnone hserver =>
    obtain ⟨hlisten, heq⟩ := RpcServer.accept_finished hserver
    rw [hnone, Option.getD_none] at heq
    refine h.keep hw htask hc rfl rfl (by rw [heq]; simp) h.split h.later
      fun fd hfd => .inl ⟨hfd, ?_⟩
    have hne := hw.ne_listenfd hfd
    change RpcServer.interest _ fd = _
    rw [heq, RpcServer.interest_modEvent, if_neg (by simp [hne])]
    simp [RpcServer.addEvent]
  | connect hmethod haccepted hnonneg hfree hlisten hserver =>
    exact h.connect hw htask hc haccepted hnonneg hfree hlisten hserver (hwrites hmethod)
  | disconnect =>
    refine h.keep hw htask hc rfl rfl rfl h.split h.later fun fd hfd => ?_
    simp only [System.disconnect, Function.update_apply] at hfd
    split at hfd
    · cases hfd
    · rename_i hne
      exact .inl ⟨hfd, Function.update_of_ne hne _ _⟩

/-- A handler that returns keeps the connection framed. -/
theorem Framed.handle (h : s.Framed dictionary c ms) (hms : ∀ m ∈ ms, WellFormed dictionary m)
    (hw : s.Wired) (htask : task ∈ s.running) (hworked : s.Worked task input stream u)
    (hwrites : Writes c ms s (.handle task input stream))
    (hwhole : WholeReads c s (.handle task input stream)) :
    (u.done task).Framed dictionary c ms := by
  by_cases hc : s.connection task.fd = some c
  · exact h.handle_own hms hw htask hc hworked hwhole
  · exact h.handle_other hw htask hc hworked hwrites

/-- An action that meets the conditions keeps the connection framed. -/
theorem Framed.exec (h : s.Framed dictionary c ms) (hms : ∀ m ∈ ms, WellFormed dictionary m)
    (hw : s.Wired) {a : Action Service} (hwrites : Writes c ms s a)
    (hundisturbed : Undisturbed c s a) (hwhole : WholeReads c s a) (hexec : s.exec a = some t) :
    t.Framed dictionary c ms := by
  rcases exec_cases hexec with ⟨fd, events, type, rfl, hreports, htype, rfl⟩ |
    ⟨hmoved, hperm⟩ | ⟨task, input, stream, u, rfl, hrunning, hworked, rfl⟩
  · have hmem : ∀ task, task ∈ (s.report fd type).inFlight ↔
        task = ⟨fd, type⟩ ∨ task ∈ s.inFlight := by
      intro task
      simp only [inFlight, System.report, List.mem_append, List.mem_singleton]
      tauto
    refine ⟨h.services, h.split, h.later, fun fd' hfd => ?_, fun task htask hfd => ?_⟩
    · by_cases hne : fd' = fd
      · exact .inl ⟨⟨fd, type⟩, (hmem _).mpr (.inl rfl), hne.symm⟩
      · rcases h.waits fd' hfd with ⟨task, htask, heq⟩ | ⟨output, harmed⟩
        · exact .inl ⟨task, (hmem _).mpr (.inr htask), heq⟩
        · exact .inr ⟨output, (Function.update_of_ne hne _ _).trans harmed⟩
    · rcases (hmem task).mp htask with rfl | htask
      · obtain ⟨herr, hrdhup⟩ := hundisturbed hfd
        rw [Events.type, herr, hrdhup] at htype
        change type = _ ∨ type = _
        simp only [Bool.false_eq_true, if_false] at htype
        split at htype
        · exact .inl (Option.some.inj htype).symm
        · split at htype
          · exact .inr (Option.some.inj htype).symm
          · cases htype
      · exact h.type task htask hfd
  · have hrest := hmoved.rest
    have hkept : ∀ task ∈ s.inFlight, s.connection task.fd = some c → task ∈ t.inFlight := by
      intro task htask hfd
      rcases hperm with ⟨-, hperm⟩ | ⟨rfl, hfull, head, hhead, heq⟩
      · exact hperm.mem_iff.mpr htask
      · -- there was room for a task of the connection
        rw [heq, List.mem_cons] at htask
        rcases htask with rfl | htask
        · exact absurd (hwhole task (Option.mem_def.mpr hhead) hfd) (Nat.not_lt.mpr hfull)
        · exact htask
    have hconnection : t.connection = s.connection := by rw [hrest]
    have hinterest : t.server = s.server := by rw [hrest]
    constructor
    · rw [hinterest]
      exact h.services
    · rw [hrest]
      exact h.split
    · rw [hrest]
      exact h.later
    · intro fd hfd
      rw [hconnection] at hfd
      rw [hinterest]
      rcases h.waits fd hfd with ⟨task, htask, rfl⟩ | harmed
      · exact .inl ⟨task, hkept task htask hfd, rfl⟩
      · exact .inr harmed
    · intro task htask hfd
      rw [hconnection] at hfd
      exact h.type task (hmoved.inFlight.subset htask) hfd
  · exact h.handle hms hw hrunning hworked hwrites hwhole

end System

/-- In every run in which the client of a connection writes well-formed requests and stays
connected, and every `recv` on the connection gets all it asks for, the services get these
requests in order, and all of them by the time nothing more happens on the connection. -/
theorem framing (dictionary : Dict (List UInt8) Service) (listenfd : ℤ) (c : ℕ)
    (ms : List RpcMessage) (hms : ∀ m ∈ ms, WellFormed dictionary m) {s : System Service}
    (h : (serverSystem dictionary listenfd).Reachable
      (fun s a => Writes c ms s a ∧ Undisturbed c s a ∧ WholeReads c s a) s) :
    s.handed c <+: ms.map asReceived ∧
      ∀ fd, s.connection fd = some c → s.Idle fd c → s.handed c = ms.map asReceived := by
  have hframed : s.Framed dictionary c ms := by
    obtain ⟨history, hrun⟩ := h
    induction hrun with
    | init hs =>
      rw [ofExec_init.mp hs]
      exact System.framed_init listenfd
    | step hrun hguard hstep ih =>
      exact ih.exec hms (wired_of_reachable ⟨_, hrun⟩) hguard.1 hguard.2.1 hguard.2.2
        (ofExec_step.mp hstep)
  have hw := wired_of_reachable h
  constructor
  · by_cases hlt : c < s.accepted
    · obtain ⟨served, rest, rfl, hserved, -⟩ := hframed.split hlt
      rw [hserved, List.map_append]
      exact List.prefix_append _ _
    · rw [hframed.later (Nat.le_of_not_lt hlt)]
      exact List.nil_prefix
  · rintro fd hfd ⟨hnone, hdone⟩
    obtain ⟨served, rest, rfl, hserved, hunread⟩ := hframed.split (hw.accepted _ _ hfd)
    rcases hframed.waits fd hfd with ⟨task, htask, rfl⟩ | ⟨output, harmed⟩
    · exact absurd rfl (hnone task htask)
    · -- it waits, so there is nothing left to receive
      rw [hdone output harmed] at hunread
      cases rest with
      | nil => rw [hserved, List.append_nil]
      | cons m rest =>
        rw [List.flatMap_cons] at hunread
        exact absurd (List.append_eq_nil_iff.mp hunread.symm).1 (serializeMessage_ne_nil m)

/-! ## Two runs -/

/-- The request of the runs below. -/
def shortMessage : RpcMessage := ⟨requestHeader [97] 1 true, ⟨.bzero _⟩⟩

/-- Nothing is under way, and all that the first client wrote was received. -/
def drained (s : System Unit) : Bool :=
  s.inFlight.isEmpty && (s.unread 0).isEmpty && decide (s.connection 5 = some 0)

/-- Another one, with two bytes of parameters. -/
def longerMessage : RpcMessage :=
  ⟨{ requestHeader [97] 2 true with seqno := 2 }, ⟨.ofBytes _ [7, 8]⟩⟩

/-- One request is received behind the other. -/
theorem framing_receiveTwice : ∃ s : System Unit,
    drained s ∧ s.handed 0 = [shortMessage, longerMessage].map asReceived := by
  let ms := [shortMessage, longerMessage]
  have hreplay : (replay System.exec (fun s a => decide (Writes 0 ms s a ∧
      Undisturbed 0 s a ∧ WholeReads 0 s a)) [] (System.init oneService 3)
      (acceptClient (ms.flatMap serializeMessage) ++
        receiveRequest true ++ serveEvent 5 .readable
          (requestInput longerMessage.header.toBytes [7, 8]) [])).any
      (fun r => drained r.2) = true := by decide +kernel
  obtain ⟨history, s, hrun, htest⟩ := exists_run_of_replay (fun _ s => drained s) hreplay
  have htest' := htest
  simp only [drained, Bool.and_eq_true, List.isEmpty_iff, decide_eq_true_eq] at htest'
  obtain ⟨⟨hinFlight, hunread⟩, hopen⟩ := htest'
  have hidle : s.Idle 5 0 := ⟨by simp [hinFlight], fun _ _ => hunread⟩
  refine ⟨s, htest, ?_⟩
  refine (framing oneService 3 0 ms (by decide +kernel) ⟨history, hrun.mono ?_⟩).2 5 hopen hidle
  intro s a hguard
  exact of_decide_eq_true hguard

/-- The first client is connected, nothing is under way and its descriptor is disarmed,
while no service has got anything. -/
def stuck (s : System Unit) : Bool :=
  s.inFlight.isEmpty && decide (s.server.interest 5 = .disarmed) &&
    decide (s.connection 5 = some 0) && (s.handed 0).isEmpty

/-- If the first ten bytes of a request are received before the rest has arrived, it never
reaches its service. -/
theorem request_torn :
    ¬ ∀ (dictionary : Dict (List UInt8) Unit) (listenfd : ℤ) (c : ℕ) (ms : List RpcMessage),
      (∀ m ∈ ms, WellFormed dictionary m) → ∀ s : System Unit,
        (serverSystem dictionary listenfd).Reachable
          (fun s a => Writes c ms s a ∧ Undisturbed c s a) s →
        ∀ fd, s.connection fd = some c → s.Idle fd c → s.handed c = ms.map asReceived := by
  intro hframing
  have hreplay : (replay System.exec (fun s a => decide (Writes 0 [shortMessage] s a ∧
      Undisturbed 0 s a)) [] (System.init oneService 3)
      (acceptClient (shortRequest true) ++
        serveEvent 5 .readable (requestInput ((shortRequest true).take 10) []) [])).any
      (fun r => stuck r.2) = true := by decide +kernel
  obtain ⟨history, s, hrun, htest⟩ := exists_run_of_replay (fun _ s => stuck s) hreplay
  simp only [stuck, Bool.and_eq_true, List.isEmpty_iff, decide_eq_true_eq] at htest
  obtain ⟨⟨⟨hinFlight, hdisarmed⟩, hopen⟩, hhanded⟩ := htest
  have hidle : s.Idle 5 0 := by
    refine ⟨by simp [hinFlight], fun output harmed => ?_⟩
    rw [hdisarmed] at harmed
    cases harmed
  have hserved := hframing oneService 3 0 [shortMessage] (by decide +kernel) s
    ⟨history, hrun.mono fun s a hguard => of_decide_eq_true hguard⟩ 5 hopen hidle
  rw [hhanded] at hserved
  cases hserved

end DreamboatRpc.Server
