import DreamboatRpc.CS.ByteStream
import DreamboatRpc.Client.System

/-!
# The transport of the client

Requests wait in a queue until the socket is writable. A write event takes the first of them
off the queue and calls `send` once, whatever that returns: of a request that the socket has
no room for the rest is not sent, and the next one follows what was taken of it. The queue is
what the poller is told of: it waits for the socket to be writable as long as there are
requests in it.

## Main definitions

* `ClientTransport` — the transport, with `connect`, `push` and `handleWriteEvent`
* `Transmission`, `transmissionSystem` — the transport with what was pushed and sent
* `Lossless` — no request is lost or torn
* `takesWhole` — the condition on the calls of `send`

## Main results

* `Follows.exec` — the client uses its transport in this way
* `lossless_iff` — when no request is lost or torn
-/

namespace DreamboatRpc.Client

open CS Rpc TransitionSystem

/-- The members of `ClientTransport`, and what its poller waits for on the connection. -/
structure ClientTransport where
  connfd : Option ℤ
  pendingRequests : List RpcMessage
  /-- Whether the poller waits for `EPOLLOUT`. -/
  output : Bool

namespace ClientTransport

variable (t : ClientTransport)

/-- `ClientTransport()` -/
def init : ClientTransport := ⟨none, [], false⟩

/-- `Connect`, if it returns -/
def connect (fd : ℤ) : ClientTransport := { t with connfd := some fd, output := false }

/-- `Push` -/
def push (message : RpcMessage) : ClientTransport :=
  { t with pendingRequests := t.pendingRequests ++ [message], output := true }

/-- `HandleWriteEvent`; the result of `send` is not looked at. -/
def handleWriteEvent : ClientTransport :=
  { t with
    pendingRequests := t.pendingRequests.tail
    output := if t.pendingRequests.tail = [] then false else t.output }

end ClientTransport

/-- The transport with, as history, the messages that were pushed, and those that were given to
`send` with what it returned: the number of bytes it took, or `none` for an error. -/
structure Transmission where
  transport : ClientTransport
  pushed : List RpcMessage
  sends : List (RpcMessage × Option ℕ)

/-- What can happen: the connection is made, some thread pushes a message, or the event loop
handles a write event, with the result of `send`. -/
inductive TransportEvent
  | connect (fd : ℤ)
  | push (message : RpcMessage)
  | write (fd : ℤ) (ret : Option ℕ)

namespace Transmission

variable {s t : Transmission} {e : TransportEvent}

/-- Before the connection is made. -/
def init : Transmission := ⟨.init, [], []⟩

/-- What an event does; `none` where an assertion fails. -/
def exec (s : Transmission) : TransportEvent → Option Transmission
  | .connect fd =>
    if s.transport.connfd = none ∧ 0 ≤ fd then
      some { s with transport := s.transport.connect fd }
    else none
  | .push message =>
    if s.transport.connfd = none then none
    else some { s with
      transport := s.transport.push message
      pushed := s.pushed ++ [message] }
  | .write fd ret =>
    if s.transport.connfd = some fd then
      some { s with
        transport := s.transport.handleWriteEvent
        sends := s.sends ++
          (s.transport.pendingRequests.take 1).map fun message => (message, ret) }
    else none

/-- The calls of `send`, with the bytes they were given and the number they took. -/
def writes (s : Transmission) : List (List UInt8 × ℕ) :=
  s.sends.map fun x => (serializeMessage x.1, x.2.getD 0)

/-- The requests that are not pending any more are on the socket, which has nothing but what
was pushed, in order; and the poller waits for `EPOLLOUT` exactly if requests are pending. -/
structure Lossless (s : Transmission) : Prop where
  left : s.pushed = s.sends.map Prod.fst ++ s.transport.pendingRequests
  intact : Intact s.writes (s.pushed.map serializeMessage)
  output : s.transport.output = true ↔ s.transport.pendingRequests ≠ []

/-- A call of `send` takes all bytes of the request. -/
def takesWhole (s : Transmission) : TransportEvent → Bool
  | .write _ ret => s.transport.pendingRequests.head?.all fun message =>
      decide ((serializeMessage message).length ≤ ret.getD 0)
  | .connect _ | .push _ => true

/-! ## Queue and poller -/

/-- The queue holds what was pushed and not yet given to `send`, and the poller is told of it. -/
structure Queued (s : Transmission) : Prop where
  left : s.pushed = s.sends.map Prod.fst ++ s.transport.pendingRequests
  output : s.transport.output = true ↔ s.transport.pendingRequests ≠ []
  unconnected : s.transport.connfd = none → s.transport.pendingRequests = []

theorem Queued.exec (h : Queued s) (hs : s.exec e = some t) : Queued t := by
  cases e with
  | connect fd =>
    obtain ⟨hconnfd, ht⟩ := Option.ite_none_right_eq_some.mp hs
    obtain rfl := Option.some.inj ht
    have hempty := h.unconnected hconnfd.1
    exact ⟨h.left, by simp [ClientTransport.connect, hempty], fun _ => hempty⟩
  | push message =>
    obtain ⟨hconnfd, ht⟩ := Option.ite_none_left_eq_some.mp hs
    obtain rfl := Option.some.inj ht
    refine ⟨?_, by simp [ClientTransport.push], fun hnone => absurd hnone hconnfd⟩
    simp only [ClientTransport.push, h.left, List.append_assoc]
  | write fd ret =>
    obtain ⟨hconnfd, ht⟩ := Option.ite_none_right_eq_some.mp hs
    obtain rfl := Option.some.inj ht
    cases hpending : s.transport.pendingRequests with
    | nil =>
      refine ⟨?_, by simp [ClientTransport.handleWriteEvent, hpending],
        fun _ => by simp [ClientTransport.handleWriteEvent, hpending]⟩
      simp [ClientTransport.handleWriteEvent, hpending, h.left]
    | cons message rest =>
      have houtput : s.transport.output = true := h.output.mpr (by simp [hpending])
      refine ⟨?_, by simp [ClientTransport.handleWriteEvent, hpending, houtput], fun hnone => ?_⟩
      · simp [ClientTransport.handleWriteEvent, hpending, h.left]
      · simp only [ClientTransport.handleWriteEvent, hconnfd] at hnone
        cases hnone

/-- The lost and torn requests aside, this is all there is to show. -/
theorem Queued.lossless_iff_writes (h : Queued s) :
    s.Lossless ↔ ∀ x ∈ s.writes, x.1.length ≤ x.2 := by
  have hprefix : s.writes.map Prod.fst <+: s.pushed.map serializeMessage := by
    rw [h.left, List.map_append]
    simp [writes, Function.comp_def]
  constructor
  · exact fun hlossless => (intact_iff hprefix).mp hlossless.intact
  · exact fun hwhole => ⟨h.left, (intact_iff hprefix).mpr hwhole, h.output⟩

/-- All calls of `send` took whole requests, also in this step, iff they did before and it
meets the condition. -/
theorem writes_whole_iff (h : ∀ x ∈ s.writes, x.1.length ≤ x.2) (hs : s.exec e = some t) :
    (∀ x ∈ t.writes, x.1.length ≤ x.2) ↔ takesWhole s e = true := by
  cases e with
  | connect fd =>
    obtain ⟨-, ht⟩ := Option.ite_none_right_eq_some.mp hs
    obtain rfl := Option.some.inj ht
    exact ⟨fun _ => rfl, fun _ => h⟩
  | push message =>
    obtain ⟨-, ht⟩ := Option.ite_none_left_eq_some.mp hs
    obtain rfl := Option.some.inj ht
    exact ⟨fun _ => rfl, fun _ => h⟩
  | write fd ret =>
    obtain ⟨-, ht⟩ := Option.ite_none_right_eq_some.mp hs
    obtain rfl := Option.some.inj ht
    cases hpending : s.transport.pendingRequests with
    | nil =>
      simp only [takesWhole, hpending, List.head?_nil, Option.all_none, iff_true]
      simpa [writes, hpending] using h
    | cons message rest =>
      have hlast : s.writes ++ [(serializeMessage message, ret.getD 0)] = writes
          { s with
            transport := s.transport.handleWriteEvent
            sends := s.sends ++ [(message, ret)] } := by simp [writes]
      simp only [takesWhole, hpending, List.head?_cons, Option.all_some, decide_eq_true_eq,
        List.take_succ_cons, List.take_zero, List.map_cons, List.map_nil]
      rw [← hlast, List.forall_mem_append, List.forall_mem_singleton]
      exact ⟨fun hall => hall.2, fun hwhole => ⟨h, hwhole⟩⟩

end Transmission

/-- The runs of the transport. -/
def transmissionSystem : TransitionSystem Transmission TransportEvent :=
  .ofExec Transmission.init Transmission.exec

theorem queued_of_reachable {G : Transmission → TransportEvent → Prop} {s : Transmission}
    (h : transmissionSystem.Reachable G s) : s.Queued := by
  refine h.invariant (fun s hs => ?_) fun s e t hqueued _ hstep => ?_
  · rw [ofExec_init.mp hs]
    exact ⟨rfl, by simp [Transmission.init, ClientTransport.init], fun _ => rfl⟩
  · exact hqueued.exec (ofExec_step.mp hstep)

/-! ## The transport in the client -/

/-- The transport is as the client has it. -/
structure Follows {τ : Type*} (s : System τ) (t : Transmission) : Prop where
  connected : t.transport.connfd = none ↔ s.initialized = false
  pendingRequests : t.transport.pendingRequests = s.pendingRequests.map Request.message
  output : t.transport.output = s.output
  queued : t.Queued

namespace Follows

variable {τ : Type*} {s s' : System τ} {t : Transmission}

/-- An action that leaves the transport alone. -/
theorem congr (h : Follows s t) (hinitialized : s'.initialized = s.initialized)
    (hpending : s'.pendingRequests = s.pendingRequests) (houtput : s'.output = s.output) :
    Follows s' t :=
  ⟨by rw [hinitialized]; exact h.connected, by rw [hpending]; exact h.pendingRequests,
    by rw [houtput]; exact h.output, h.queued⟩

theorem connect (h : Follows s t) : ∃ t', Follows { s with initialized := true } t' ∧
    (t' = t ∨ ∃ e, t.exec e = some t') := by
  by_cases hinitialized : s.initialized = true
  · exact ⟨t, h.congr hinitialized.symm rfl rfl, .inl rfl⟩
  · -- the connection is made, as some descriptor
    have hnone : t.transport.connfd = none := h.connected.mpr (by simpa using hinitialized)
    have hexec : t.exec (.connect 0) = some { t with transport := t.transport.connect 0 } :=
      if_pos ⟨hnone, le_rfl⟩
    have houtput : t.transport.output = false := by
      simpa [h.queued.unconnected hnone] using h.queued.output
    refine ⟨{ t with transport := t.transport.connect 0 }, ⟨?_, h.pendingRequests, ?_,
      h.queued.exec hexec⟩, .inr ⟨_, hexec⟩⟩
    · simp [ClientTransport.connect]
    · exact houtput.symm.trans h.output

theorem sendRequest [DecidableEq τ] (h : Follows s t) (hinitialized : s.initialized = true)
    (u : Option τ) (call : ℕ) (sync : Bool) (message : RpcMessage) :
    ∃ t', Follows (s.sendRequest u call sync message) t' ∧ ∃ e, t.exec e = some t' := by
  have hsome : t.transport.connfd ≠ none := fun hnone => by
    simp [h.connected.mp hnone] at hinitialized
  have hexec : t.exec (.push message) = some { t with
      transport := t.transport.push message, pushed := t.pushed ++ [message] } := if_neg hsome
  refine ⟨_, ⟨?_, ?_, ?_, h.queued.exec hexec⟩, _, hexec⟩
  · simpa [ClientTransport.push, System.sendRequest, hinitialized] using hsome
  · simp [ClientTransport.push, System.sendRequest, hinitialized, h.pendingRequests]
  · simp [ClientTransport.push, System.sendRequest, hinitialized]

theorem write (h : Follows s t) {request : Request} {rest : List Request}
    (hqueue : s.pendingRequests = request :: rest) (sent : Sent) :
    ∃ t', Follows (s.handleWriteEvent sent) t' ∧ ∃ e, t.exec e = some t' := by
  have hpending : t.transport.pendingRequests = request.message :: rest.map Request.message := by
    rw [h.pendingRequests, hqueue, List.map_cons]
  obtain ⟨fd, hfd⟩ : ∃ fd, t.transport.connfd = some fd := by
    refine Option.ne_none_iff_exists'.mp fun hnone => ?_
    simp [h.queued.unconnected hnone] at hpending
  have houtput : t.transport.output = true := h.queued.output.mpr (by simp [hpending])
  have hexec : t.exec (.write fd none) = some { t with
      transport := t.transport.handleWriteEvent
      sends := t.sends ++ (t.transport.pendingRequests.take 1).map fun m => (m, none) } :=
    if_pos hfd
  refine ⟨_, ⟨?_, ?_, ?_, h.queued.exec hexec⟩, _, hexec⟩
  · have hinitialized := h.connected
    rw [hfd] at hinitialized
    simpa [ClientTransport.handleWriteEvent, hfd, System.handleWriteEvent, hqueue]
      using hinitialized
  · simp [ClientTransport.handleWriteEvent, hpending, System.handleWriteEvent, hqueue]
  · cases rest with
    | nil => simp [ClientTransport.handleWriteEvent, hpending, System.handleWriteEvent, hqueue]
    | cons r rest =>
      simp [ClientTransport.handleWriteEvent, hpending, houtput, System.handleWriteEvent, hqueue]

/-- Every action of the client is a step of its transport, or none of its business. -/
theorem exec [DecidableEq τ] {a : Action τ} (h : Follows s t) (hs : s.exec a = some s') :
    ∃ t', Follows s' t' ∧ (t' = t ∨ ∃ e, t.exec e = some t') := by
  have hsame : ∀ {s'' : System τ}, s''.initialized = s.initialized →
      s''.pendingRequests = s.pendingRequests → s''.output = s.output →
      ∃ t', Follows s'' t' ∧ (t' = t ∨ ∃ e, t.exec e = some t') :=
    fun hinitialized hpending houtput => ⟨t, h.congr hinitialized hpending houtput, .inl rfl⟩
  cases System.exec_effect hs with
  | numbered hidle hid =>
    simp only [System.callRpcAsync, if_neg hid]
    exact hsame rfl rfl rfl
  | registered ht => exact hsame rfl rfl rfl
  | noClient ht => exact hsame rfl rfl rfl
  | pushed ht hinitialized =>
    obtain ⟨t', hfollows, hexec⟩ := h.sendRequest hinitialized _ _ _ _
    exact ⟨t', hfollows, .inr hexec⟩
  | notInitialized ht hinitialized =>
    simp only [System.sendRequest, if_neg hinitialized]
    exact hsame rfl rfl rfl
  | connected => exact h.connect
  | written hqueue =>
    obtain ⟨t', hfollows, hexec⟩ := h.write hqueue _
    exact ⟨t', hfollows, .inr hexec⟩
  | drained hqueue =>
    have houtput : s.output = false := by
      rw [← h.output]
      simpa [h.pendingRequests, hqueue] using h.queued.output
    exact hsame rfl rfl houtput.symm
  | deleted hloop hdelete =>
    obtain ⟨slots, -, rfl⟩ := System.deleteCallback_eq_some hdelete
    exact hsame rfl rfl rfl
  | answered hanswer =>
    obtain ⟨request, -, rfl⟩ := Option.map_eq_some_iff.mp hanswer
    exact hsame rfl rfl rfl
  | _ => exact hsame rfl rfl rfl

end Follows

/-- Whatever the client does, it does to its transport what the transport may do. -/
theorem follows_of_reachable {τ : Type*} [DecidableEq τ] {G : System τ → Action τ → Prop}
    {s : System τ} (h : (clientSystem τ).Reachable G s) :
    ∃ t, transmissionSystem.Reachable unguarded t ∧ Follows s t := by
  refine h.ghost (I := fun s t => transmissionSystem.Reachable unguarded t ∧ Follows s t) ?_ ?_
  · intro s hs
    rw [ofExec_init.mp hs]
    have hstart : transmissionSystem.Reachable unguarded Transmission.init := ⟨[], .init rfl⟩
    exact ⟨_, hstart, ⟨by simp [Transmission.init, ClientTransport.init, System.init], rfl, rfl,
      queued_of_reachable hstart⟩⟩
  · rintro s t a s' ⟨hreach, hfollows⟩ - hstep
    obtain ⟨t', hfollows', rfl | ⟨e, hexec⟩⟩ := hfollows.exec (ofExec_step.mp hstep)
    · exact ⟨t', hreach, hfollows'⟩
    · obtain ⟨history, hrun⟩ := hreach
      exact ⟨t', ⟨_, hrun.step trivial hexec⟩, hfollows'⟩

/-! ## The result -/

/-- In every run, with any order of pushes and write events: no request is lost or torn, and
the poller waits for `EPOLLOUT` exactly while requests are pending, iff every call of `send`
takes all bytes of its request. -/
theorem lossless_iff {s : Transmission} {history : List (Transition Transmission TransportEvent)}
    (hrun : transmissionSystem.Run unguarded history s) :
    (∀ x ∈ history, x.target.Lossless) ↔ ∀ x ∈ history, x.source.takesWhole x.event = true := by
  have htargets : (∀ x ∈ history, ∀ y ∈ x.target.writes, y.1.length ≤ y.2) ↔
      ∀ x ∈ history, x.source.takesWhole x.event = true := by
    apply hrun.targets_iff (I := fun s => ∀ y ∈ s.writes, y.1.length ≤ y.2)
      (C := fun s e => s.takesWhole e = true)
    · intro s hs
      rw [ofExec_init.mp hs]
      simp [Transmission.writes, Transmission.init]
    · intro s e t _ h hstep
      exact Transmission.writes_whole_iff h (ofExec_step.mp hstep)
  rw [← htargets]
  refine forall₂_congr fun x hx => ?_
  obtain ⟨hreach, -, hstep⟩ := hrun.of_mem hx
  have hqueued : x.target.Queued := (queued_of_reachable hreach).exec (ofExec_step.mp hstep)
  exact hqueued.lossless_iff_writes

/-- A request without parameters. -/
def emptyRequest : RpcMessage := .new (.bzero 3)

/-- A request with this number. -/
def numberedRequest (seqno : Int32) : RpcMessage :=
  { emptyRequest with header := { emptyRequest.header with seqno := seqno } }

/-- The connection is made as descriptor 3 and three requests are pushed, two of them after the
first write; `send` takes all of each. -/
def pushThree : List TransportEvent :=
  let whole := some (serializeMessage emptyRequest).length
  [.connect 3, .push (numberedRequest 1), .write 3 whole, .push (numberedRequest 2),
    .push (numberedRequest 3), .write 3 whole, .write 3 whole]

/-- Three requests were written in the order in which they were pushed, and every step met the
condition. -/
def sendsInOrder (history : List (Transition Transmission TransportEvent)) (s : Transmission) :
    Bool :=
  s.transport.pendingRequests.isEmpty &&
    decide (s.sends.map (fun x => x.1.header.seqno) = [1, 2, 3]) &&
    history.all fun x => x.source.takesWhole x.event

theorem lossless_iff_pushThree :
    ∃ (history : List (Transition Transmission TransportEvent)) (s : Transmission),
      sendsInOrder history s ∧ ∀ x ∈ history, x.target.Lossless := by
  have hreplay : (replay Transmission.exec (fun _ _ => true) [] Transmission.init pushThree).any
      (fun r => sendsInOrder r.1 r.2) = true := by decide +kernel
  obtain ⟨history, s, hrun, htest⟩ := exists_run_of_replay sendsInOrder hreplay
  refine ⟨history, s, htest, (lossless_iff (hrun.mono fun _ _ _ => trivial)).mpr ?_⟩
  simp only [sendsInOrder, Bool.and_eq_true, List.all_eq_true] at htest
  exact htest.2

/-- The connection is made as descriptor 3 and a request is pushed; then the socket is writable,
and `send` fails. -/
def pushOne : List TransportEvent := [.connect 3, .push emptyRequest, .write 3 none]

/-- A request is pending no more, and not all of it was written. -/
def losesOne (s : Transmission) : Bool :=
  s.transport.pendingRequests.isEmpty && s.writes.any fun x => decide (x.2 < x.1.length)

/-- Without the condition a request is lost, for one, when the socket has no room for it. -/
theorem request_lost :
    ¬ ∀ s : Transmission, transmissionSystem.Reachable unguarded s → s.Lossless := by
  intro hlossless
  have hreplay : (replay Transmission.exec (fun _ _ => true) [] Transmission.init pushOne).any
      (fun r => losesOne r.2) = true := by decide +kernel
  obtain ⟨history, s, hrun, htest⟩ := exists_run_of_replay (fun _ s => losesOne s) hreplay
  have hintact := (hlossless s ⟨history, hrun.mono fun _ _ _ => trivial⟩).intact
  have hwhole := flatten_prefix_written_iff.mp hintact.taken
  simp only [losesOne, Bool.and_eq_true, List.any_eq_true, decide_eq_true_eq] at htest
  obtain ⟨-, x, hx, hless⟩ := htest
  exact absurd (hwhole x hx) (not_le.mpr hless)

end DreamboatRpc.Client
