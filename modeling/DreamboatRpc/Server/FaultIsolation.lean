import DreamboatRpc.Server.EventLog

/-!
# A fault on one connection

All connections share one process, the handler table and the array of queues. What goes
wrong on one of them (a call that fails, a hang-up, a client that is gone before it is
accepted) is met by a return in some places, by `exit` or an assertion in others, and by
nothing where the accepted descriptor is put into the table, or where what the peer sent is
logged.

## Main definitions

* `InTable` — a descriptor has a place in the table and in the array of queues
* `RpcServer.FaultIsolated` — an event of one descriptor leaves the process and all other
  descriptors alone
* `RpcServer.Survives` — the events and what the calls did are such that it does

## Main results

* `fault_isolated_iff` — the one if and only if the other
* `Connected.survives_iff`, `Listening.survives_iff` — the condition for a connection and for
  the listening socket
* `fault_spreads` — a reset connection ends the process
-/

namespace DreamboatRpc.Server

open CS Rpc

/-! ## Faults that stay where they are -/

/-- The handler returns, and the state it leaves satisfies `P`. -/
def Outcome.Returns {σ : Type} (P : σ → Prop) : Outcome σ → Prop
  | exited => False
  | undefined => False
  | finished s => P s

theorem Outcome.Returns.of_finished {σ : Type} {P : σ → Prop} {o : Outcome σ}
    (h : ∃ s, o = .finished s) (hP : ∀ s, o = .finished s → P s) : o.Returns P := by
  obtain ⟨s, rfl⟩ := h
  exact hP s rfl

theorem Outcome.Returns.finished {σ : Type} {P : σ → Prop} {o : Outcome σ} (h : o.Returns P) :
    ∃ s, o = .finished s := by
  cases o with
  | exited => exact h.elim
  | undefined => exact h.elim
  | finished s => exact ⟨s, rfl⟩

/-- `MAX_FILE_DESCRIPTORS` -/
def maxFileDescriptors : ℤ := 65536

/-- The slots and the queue of the descriptor lie in their arrays. -/
def InTable (fd : ℤ) : Prop := 0 ≤ fd ∧ fd < maxFileDescriptors

instance (fd : ℤ) : Decidable (InTable fd) := by
  unfold InTable
  infer_instance

namespace RpcServer

variable {Service : Type} (s : RpcServer Service) (fd : ℤ) (events : Events)
  (input : Input Service) (log : EventLog)

/-- The descriptors whose slots or queues are read or written when an event is handled: its own,
and what `Accept` returned. -/
def touched : List ℤ :=
  match events.type with
  | none => []
  | some type =>
    if type = 0 then []
    else if s.method fd type = .accept ∧ fd = s.listenfd then
      [fd, input.accepted.getD (-1)]
    else [fd]

/-- In `t` the descriptor has the handlers, the queue and the registration it has in `s`. -/
structure Same (t : RpcServer Service) : Prop where
  list : ∀ i ∈ [4 * fd, 4 * fd + 1, 4 * fd + 2], t.list i = s.list i
  returnValues : t.returnValues fd = s.returnValues fd
  interest : t.interest fd = s.interest fd

/-- An event of `fd` neither ends the process nor leaves the arrays, and all descriptors stay
the same but `fd` and one that was accepted. -/
structure FaultIsolated : Prop where
  inside : ∀ fd' ∈ s.touched fd events input, InTable fd'
  others : (s.deliverLogged log fd events input).Returns fun t =>
    ∀ fd' ≠ fd, fd' ∉ s.touched fd events input → s.Same fd' t

/-- The request handler gets over what it received: the first `recv` did not fail but with
`EAGAIN`, the second stayed inside the body, and the service returns. -/
def ReadSurvives : Prop :=
  input.header ≠ .error .other ∧
    (input.header.value = RpcHeader.size → input.body.received.length ≤ maxRpcParamsSize) ∧
    (Passes input.header input.body → ∀ service ∈ s.dictionary.get? (cString (servicenameMemory
      (receivedMessage input.header.received input.body.received) input.stack)),
      (input.handle service
        (receivedMessage input.header.received input.body.received)).isSome)

/-- If the request asks for a service that is not in the dictionary, the log bears its name. -/
def NameSurvives : Prop :=
  ∀ servicename ∈ s.notFound input, log.Bears (notFoundText servicename)

/-- The mask is met by some branch of the poller, and the handler in the slot of that branch
gets over what its calls did. -/
def Survives : Prop :=
  if events.err then ∀ e ∈ log.soError, log.Bears (errormsgText e)
  else InTable fd ∧ (events.rdhup ∨
    if events.input then
      (s.list (4 * fd) = some .requestHandler → s.ReadSurvives input ∧ s.NameSurvives input log) ∧
      (s.list (4 * fd) = some .serverTransport →
        fd = s.listenfd ∧ ∃ connfd ∈ input.accepted, InTable connfd)
    else
      events.output ∧ (s.list (4 * fd + 1) = some .resultSender →
        s.returnValues fd ≠ [] ∧ input.send ≠ .error .other))

/-- What a method needs of the state and of the calls it makes. -/
def Tolerates : Method → Prop
  | .nothing => True
  | .request => s.ReadSurvives input ∧ s.NameSurvives input log
  | .result => s.returnValues fd ≠ [] ∧ input.send ≠ .error .other
  | .accept => fd = s.listenfd ∧ ∃ connfd ∈ input.accepted, InTable connfd
  | .close => True

/-! ## What the handlers need -/

variable {s fd events input log}

/-- The request handler returns if and only if it gets over what it received. -/
theorem request_finished_iff :
    (∃ t, s.request fd input = .finished t) ↔ s.ReadSurvives input := by
  by_cases hpasses : Passes input.header input.body
  · obtain ⟨received, hbytes, -⟩ := Recv.eq_bytes_of_value hpasses.1
    have hne : input.header ≠ .error .other := by
      rw [hbytes]
      simp
    simp only [ReadSurvives, hne, hpasses, hpasses.2.1, ne_eq, not_false_eq_true, true_and,
      implies_true, true_implies, Option.mem_def]
    rw [request, handleReadEvent_of_passes hpasses]
    dsimp only
    rw [serve]
    -- only a service that does not return keeps the handler from returning
    cases s.dictionary.get? (cString (servicenameMemory
      (receivedMessage input.header.received input.body.received) input.stack)) with
    | none => simp
    | some service =>
      cases hhandle : input.handle service
        (receivedMessage input.header.received input.body.received) with
      | none => simp [hhandle]
      | some result => simp [hhandle]
  · simp only [ReadSurvives, hpasses, false_implies, and_true]
    rw [request_of_not_passes hpasses]
    by_cases herror : input.header = .error .other
    · simp [herror]
    rw [if_neg herror]
    by_cases hoverrun : input.header.value = RpcHeader.size ∧
        maxRpcParamsSize < input.body.received.length
    · rw [if_pos hoverrun]
      simp [hoverrun.1, hoverrun.2]
    · rw [if_neg hoverrun]
      simpa [herror] using hoverrun

/-- And it gets over its log as well if and only if the log bears the name it is to write. -/
theorem requestLogged_finished_iff : (∃ t, s.requestLogged log fd input = .finished t) ↔
    s.ReadSurvives input ∧ s.NameSurvives input log := by
  have hbears : (s.notFound input).all (log.defined notFoundFormat [.string ·]) = true ↔
      s.NameSurvives input log := by
    simp only [Option.all_eq_true, NameSurvives, EventLog.defined_notFound_iff, Option.mem_def]
  rw [requestLogged]
  by_cases h : (s.notFound input).all (log.defined notFoundFormat [.string ·]) = true
  · rw [if_pos h, request_finished_iff]
    simp only [hbears.mp h, and_true]
  · rw [if_neg h]
    simp [mt hbears.mpr h]

/-- The result sender returns if and only if a result waits and `send` does not fail but
with `EAGAIN`. -/
theorem result_finished_iff : (∃ t, s.result fd input = .finished t) ↔
    s.returnValues fd ≠ [] ∧ input.send ≠ .error .other := by
  rw [result]
  split
  · rename_i hqueue
    simp [hqueue]
  · rename_i r rest hqueue
    by_cases hsend : input.send = .error .other
    · simp [hsend]
    · simp [hsend, hqueue]

/-! ## What the handlers leave alone -/

theorem same_refl (s : RpcServer Service) (fd : ℤ) : s.Same fd s :=
  ⟨fun _ _ => rfl, rfl, rfl⟩

theorem Only.same {t : RpcServer Service} (h : Only fd s t) {fd' : ℤ} (hne : fd' ≠ fd) :
    s.Same fd' t where
  list i _ := by rw [h.list]
  returnValues := h.returnValues fd' hne
  interest := h.interest fd' hne

/-- The slots of different descriptors are different. -/
theorem ne_of_mem_slots {fd' i j : ℤ} (hne : fd' ≠ fd)
    (hi : i ∈ [4 * fd', 4 * fd' + 1, 4 * fd' + 2])
    (hj : j ∈ [4 * fd, 4 * fd + 1, 4 * fd + 2]) : i ≠ j := by
  simp only [List.mem_cons, List.not_mem_nil, or_false] at hi hj
  omega

theorem same_close {fd' : ℤ} (hne : fd' ≠ fd) : s.Same fd' (s.close fd) where
  list i hi := by
    simp only [close, delEvent, HandlerTable.detachEventHandler,
      HandlerTable.setEventHandler_all]
    exact if_neg fun hj => ne_of_mem_slots hne hi hj rfl
  returnValues := rfl
  interest := Function.update_of_ne hne _ _

theorem same_accept {connfd fd' : ℤ} (hconnfd : 0 ≤ connfd) (hne : fd' ≠ connfd)
    (hlisten : fd' ≠ s.listenfd) :
    s.Same fd' (({ s with list := attachAll s.list connfd }.addEvent connfd).modEvent
      s.listenfd false) where
  list i hi := by
    have hslots := fun j => ne_of_mem_slots (j := j) hne hi
    simp only [List.mem_cons, List.not_mem_nil, or_false] at hslots
    rw [modEvent_list, addEvent_list]
    change attachAll s.list connfd i = s.list i
    rw [attachAll_apply, if_neg (hslots _ (by simp)), if_neg (hslots _ (by simp)),
      if_neg (hslots _ (by simp))]
  returnValues := by rw [modEvent_returnValues, addEvent_returnValues]
  interest := by
    rw [interest_modEvent, if_neg (fun h => hlisten h.1), interest_addEvent _ hconnfd,
      if_neg hne]

/-! ## Which faults stay where they are -/

/-- The server once an event of the descriptor was reported. -/
def reported (s : RpcServer Service) (fd : ℤ) : RpcServer Service :=
  { s with interest := Function.update s.interest fd .disarmed }

theorem deliverLogged_of_type {type : EventType} (h : events.type = some type)
    (herr : events.err → ∀ e ∈ log.soError, log.Bears (errormsgText e)) :
    s.deliverLogged log fd events input = (s.reported fd).handleEventLogged log fd type input := by
  have hlogs : ¬ (events.err && !log.soError.all fun e =>
      log.defined errormsgFormat [.string (errors e).bytes]) = true := by
    simp only [Bool.and_eq_true, Bool.not_eq_true', not_and, Bool.not_eq_false,
      Option.all_eq_true, EventLog.defined_errormsg_iff]
    exact herr
  rw [deliverLogged, if_neg hlogs, h]
  rfl

/-- The report of an event concerns its own descriptor only. -/
theorem Same.of_reported {fd' : ℤ} {t : RpcServer Service} (hne : fd' ≠ fd)
    (h : (s.reported fd).Same fd' t) : s.Same fd' t where
  list := h.list
  returnValues := h.returnValues
  interest := by
    rw [h.interest]
    exact Function.update_of_ne hne _ _

/-- An event of a type is looked up in the table, so its descriptor is touched. -/
theorem mem_touched {type : EventType} (htype : events.type = some type) (hzero : type ≠ 0) :
    fd ∈ s.touched fd events input := by
  simp only [touched, htype, if_neg hzero]
  split
  · exact List.mem_cons_self
  · exact List.mem_cons_self

theorem ne_zero_of_accept {type : EventType} (h : s.method fd type = .accept) : type ≠ 0 := by
  rintro rfl
  rw [method, if_pos rfl] at h
  cases h

theorem touched_accept {type : EventType} (htype : events.type = some type)
    (hmethod : s.method fd type = .accept) (hlisten : fd = s.listenfd) :
    s.touched fd events input = [fd, input.accepted.getD (-1)] := by
  simp only [touched, htype]
  rw [if_neg (ne_zero_of_accept hmethod), if_pos ⟨hmethod, hlisten⟩]

/-- What is touched lies in the arrays if the descriptor and the accepted one do. -/
theorem inTable_of_touched {type : EventType} (htype : events.type = some type)
    (htable : type ≠ 0 → InTable fd) (h : s.Tolerates fd input log (s.method fd type)) :
    ∀ fd' ∈ s.touched fd events input, InTable fd' := by
  intro fd' hfd'
  simp only [touched, htype] at hfd'
  split at hfd'
  · cases hfd'
  rename_i hzero
  split at hfd'
  · rename_i haccept
    rw [haccept.1] at h
    obtain ⟨-, connfd, hconnfd, hin⟩ := h
    rw [Option.mem_def] at hconnfd
    rw [hconnfd, Option.getD_some, List.mem_pair] at hfd'
    rcases hfd' with rfl | rfl
    · exact htable hzero
    · exact hin
  · rw [List.mem_singleton] at hfd'
    rw [hfd']
    exact htable hzero

/-- What a handler that returns leaves alone if what it touches lies in the arrays. -/
theorem same_of_handleEvent {type : EventType} {t : RpcServer Service}
    (h : s.Tolerates fd input log (s.method fd type))
    (htype : events.type = some type) (ht : s.handleEvent fd type input = .finished t)
    {fd' : ℤ} (hne : fd' ≠ fd) (htouched : fd' ∉ s.touched fd events input) :
    s.Same fd' t := by
  cases hmethod : s.method fd type with
  | nothing =>
    rw [handleEvent, hmethod] at ht
    cases ht
    exact same_refl s fd'
  | request =>
    rw [handleEvent_request hmethod] at ht
    exact (request_finished ht).1.same hne
  | result =>
    rw [handleEvent_result hmethod] at ht
    exact (result_finished ht).1.same hne
  | accept =>
    rw [hmethod] at h
    obtain ⟨rfl, connfd, hconnfd, hin⟩ := h
    rw [Option.mem_def] at hconnfd
    rw [handleEvent_accept hmethod] at ht
    rw [(accept_finished ht).2, hconnfd, Option.getD_some]
    apply same_accept hin.1 _ hne
    rintro rfl
    apply htouched
    rw [touched_accept htype hmethod rfl, hconnfd]
    simp
  | close =>
    rw [handleEvent_close hmethod] at ht
    cases ht
    exact same_close hne

/-- A handler whose method gets over what the calls did returns. -/
theorem handleEvent_finished {type : EventType} (h : s.Tolerates fd input log (s.method fd type)) :
    ∃ t, s.handleEventLogged log fd type input = .finished t := by
  rw [handleEventLogged]
  cases hmethod : s.method fd type with
  | nothing => exact ⟨s, by rw [handleEvent, hmethod]⟩
  | request =>
    rw [hmethod] at h
    exact requestLogged_finished_iff.mpr h
  | result =>
    rw [hmethod] at h
    rw [handleEvent_result hmethod]
    exact result_finished_iff.mpr h
  | accept =>
    rw [hmethod] at h
    rw [handleEvent_accept hmethod, accept, if_neg (not_not.mpr h.1)]
    exact ⟨_, rfl⟩
  | close => exact ⟨s.close fd, handleEvent_close hmethod⟩

/-- A handler that returns and stays inside the arrays got over what the calls did. -/
theorem tolerates_of_finished {type : EventType} (htype : events.type = some type)
    (hinside : ∀ fd' ∈ s.touched fd events input, InTable fd')
    {t : RpcServer Service} (hlogged : s.handleEventLogged log fd type input = .finished t) :
    s.Tolerates fd input log (s.method fd type) := by
  have ht := handleEvent_of_logged hlogged
  rw [handleEventLogged] at hlogged
  cases hmethod : s.method fd type with
  | nothing => trivial
  | request =>
    rw [hmethod] at hlogged
    exact requestLogged_finished_iff.mp ⟨t, hlogged⟩
  | result =>
    rw [handleEvent_result hmethod] at ht
    exact result_finished_iff.mp ⟨t, ht⟩
  | accept =>
    rw [handleEvent_accept hmethod] at ht
    have hlisten := (accept_finished ht).1
    refine ⟨hlisten, ?_⟩
    have hconnfd : InTable (input.accepted.getD (-1)) := by
      apply hinside
      rw [touched_accept htype hmethod hlisten]
      simp
    cases haccepted : input.accepted with
    | none =>
      -- a failed `accept` is entered into the table as descriptor -1
      rw [haccepted] at hconnfd
      exact absurd hconnfd (by decide)
    | some connfd =>
      rw [haccepted] at hconnfd
      exact ⟨connfd, rfl, hconnfd⟩
  | close => trivial

/-! ## The condition on the mask and the slots -/

theorem tolerates_read_iff : s.Tolerates fd input log (s.method fd readEvent) ↔
    (s.list (4 * fd) = some .requestHandler → s.ReadSurvives input ∧ s.NameSurvives input log) ∧
      (s.list (4 * fd) = some .serverTransport →
        fd = s.listenfd ∧ ∃ connfd ∈ input.accepted, InTable connfd) := by
  rw [method, if_neg (by decide), getEventId_read]
  cases s.list (4 * fd) with
  | none => simp [Tolerates]
  | some handler =>
    cases handler <;> simp [Tolerates, EventHandler.method, EventHandler.readMethod, readEvent,
      closeEvent]

theorem tolerates_write_iff : s.Tolerates fd input log (s.method fd writeEvent) ↔
    (s.list (4 * fd + 1) = some .resultSender →
      s.returnValues fd ≠ [] ∧ input.send ≠ .error .other) := by
  rw [method, if_neg (by decide), getEventId_write]
  cases s.list (4 * fd + 1) with
  | none => simp [Tolerates]
  | some handler =>
    cases handler <;> simp [Tolerates, EventHandler.method, EventHandler.writeMethod, readEvent,
      writeEvent, closeEvent]

/-- Whatever handles a hang-up does no harm. -/
theorem tolerates_close : s.Tolerates fd input log (s.method fd closeEvent) := by
  rw [method, if_neg (by decide), getEventId_close]
  cases s.list (4 * fd + 2) with
  | none => trivial
  | some handler => cases handler <;> trivial

/-- The condition in terms of the type that the poller gives the events and the method that
the type selects. -/
theorem survives_iff : s.Survives fd events input log ↔
    (events.err → ∀ e ∈ log.soError, log.Bears (errormsgText e)) ∧
      ∃ type, events.type = some type ∧ (type ≠ 0 → InTable fd) ∧
        s.Tolerates fd input log (s.method fd type) := by
  by_cases herr : events.err
  · have htype : events.type = some 0 := by simp [Events.type, herr]
    have hnothing : s.method fd 0 = .nothing := if_pos rfl
    simp [Survives, herr, htype, hnothing, Tolerates]
  by_cases hrdhup : events.rdhup
  · have htype : events.type = some closeEvent := by simp [Events.type, herr, hrdhup]
    simp only [Survives, herr, hrdhup, htype, Option.some.injEq, exists_eq_left',
      tolerates_close]
    simp [closeEvent]
  by_cases hinput : events.input
  · have htype : events.type = some readEvent := by simp [Events.type, herr, hrdhup, hinput]
    simp only [Survives, herr, hrdhup, hinput, htype, Option.some.injEq, exists_eq_left',
      tolerates_read_iff]
    simp [readEvent]
  by_cases houtput : events.output
  · have htype : events.type = some writeEvent := by
      simp [Events.type, herr, hrdhup, hinput, houtput]
    simp only [Survives, herr, hrdhup, hinput, houtput, htype, Option.some.injEq,
      exists_eq_left', tolerates_write_iff]
    simp [writeEvent]
  · -- `EPOLLHUP` alone
    have htype : events.type = none := by simp [Events.type, herr, hrdhup, hinput, houtput]
    simp [Survives, herr, hrdhup, hinput, houtput, htype]

/-- A server that gets over an event gave it a type, logged the error of the descriptor if there
was one, and handled the event. -/
theorem deliverLogged_finished {t : RpcServer Service}
    (h : s.deliverLogged log fd events input = .finished t) :
    (events.err → ∀ e ∈ log.soError, log.Bears (errormsgText e)) ∧
      ∃ type, events.type = some type ∧
        (s.reported fd).handleEventLogged log fd type input = .finished t := by
  have hdeliver := deliver_of_logged h
  rw [deliverLogged] at h
  split at h
  · cases h
  rename_i hlogs
  have herr : events.err → ∀ e ∈ log.soError, log.Bears (errormsgText e) := by
    simpa only [Bool.and_eq_true, Bool.not_eq_true', not_and, Bool.not_eq_false,
      Option.all_eq_true, EventLog.defined_errormsg_iff, Option.mem_def] using hlogs
  refine ⟨herr, ?_⟩
  cases htype : events.type with
  | none =>
    rw [deliver, htype] at hdeliver
    cases hdeliver
  | some type =>
    rw [htype] at h
    exact ⟨type, rfl, h⟩

/-- An event leaves the process and the other descriptors alone if and only if its mask is met
by some branch of the poller, the handler gets over what its calls did, and the log bears what it
is given. -/
theorem fault_isolated_iff (s : RpcServer Service) (fd : ℤ) (events : Events)
    (input : Input Service) (log : EventLog) :
    s.FaultIsolated fd events input log ↔ s.Survives fd events input log := by
  rw [survives_iff]
  constructor
  · rintro ⟨hinside, hothers⟩
    -- the handler has returned, so all it asked for was there
    obtain ⟨t, ht⟩ := hothers.finished
    obtain ⟨herr, type, htype, hhandled⟩ := deliverLogged_finished ht
    exact ⟨herr, type, htype, fun hzero => hinside fd (mem_touched htype hzero),
      tolerates_of_finished (s := s.reported fd) htype hinside hhandled⟩
  · rintro ⟨herr, type, htype, htable, htolerates⟩
    constructor
    · exact inTable_of_touched htype htable htolerates
    · rw [deliverLogged_of_type htype herr]
      have hreported : (s.reported fd).Tolerates fd input log ((s.reported fd).method fd type) :=
        htolerates
      apply Outcome.Returns.of_finished
      · exact handleEvent_finished hreported
      · intro t ht fd' hne htouched
        have hhandled := handleEvent_of_logged ht
        exact (same_of_handleEvent hreported htype hhandled hne htouched).of_reported hne

/-! ## Connections and the listening socket -/

/-- The listening socket, as `Listen` sets it up. -/
structure Listening (s : RpcServer Service) : Prop where
  reader : s.list (4 * s.listenfd) = some .serverTransport
  writer : s.list (4 * s.listenfd + 1) = none
  closer : s.list (4 * s.listenfd + 2) = none

/-- An event of a connection stays where it is if it is an error that the log bears, or a hang-up
of the peer; if it is readable, `recv` had nothing to give or what it gave did no harm, to the log
either; if it is writable, a result waits and `send` takes it or has no room. -/
theorem Connected.survives_iff (h : s.Connected fd) : s.Survives fd events input log ↔
    if events.err then ∀ e ∈ log.soError, log.Bears (errormsgText e)
    else InTable fd ∧ (events.rdhup ∨
      if events.input then s.ReadSurvives input ∧ s.NameSurvives input log
      else events.output ∧ s.returnValues fd ≠ [] ∧ input.send ≠ .error .other) := by
  simp [Survives, h.reader, h.writer]

/-- Of the events of the listening socket, a readable one stays where it is only if a client
is accepted. -/
theorem Listening.survives_iff (h : s.Listening) : s.Survives s.listenfd events input log ↔
    if events.err then ∀ e ∈ log.soError, log.Bears (errormsgText e)
    else InTable s.listenfd ∧ (events.rdhup ∨
      if events.input then ∃ connfd ∈ input.accepted, InTable connfd else events.output) := by
  simp [Survives, h.reader, h.writer]

end RpcServer

/-! ## Faults that end the server -/

/-- `acceptedServer` once the client on descriptor 5 asked for a result. -/
def answeringServer : RpcServer Unit :=
  match acceptedServer.deliver 5 Events.readable
    (requestInput (requestHeader [97] 1 true).toBytes [0]) with
  | .finished s => s
  | _ => acceptedServer

/-- Every call fails, and not with `EAGAIN`. -/
def failedInput : Input Unit where
  header := .error .other
  body := .error .other
  stack := []
  handle := fun _ _ => none
  send := .error .other
  accepted := none

/-- A request for the service `%n`. -/
def percentInput : Input Unit := requestInput (requestHeader [37, 110] 1 true).toBytes [0]

/-- The log is open, and nothing was written to it. -/
def emptyLog : EventLog where
  logfile := some []
  now := []
  buffer := .bzero _
  inner := .bzero _
  soError := some 0

/-- A client that resets its connection ends the server for all others: when the header is
received, and when a result is sent that waits. So does `EPOLLHUP` alone, and a client that
cannot be accepted has its handlers written before the table. The name `%n` of a service is
looked up, not found, and interpreted. -/
theorem fault_spreads :
    acceptedServer.Connected 5 ∧ answeringServer.returnValues 5 ≠ [] ∧
      (∀ log, ¬ acceptedServer.FaultIsolated 5 Events.readable failedInput log ∧
        ¬ acceptedServer.FaultIsolated 5 ⟨false, false, false, false, true⟩ failedInput log ∧
        ¬ acceptedServer.FaultIsolated 3 Events.readable failedInput log ∧
        ¬ answeringServer.FaultIsolated 5 ⟨false, false, false, true, false⟩ failedInput log) ∧
      ¬ acceptedServer.FaultIsolated 5 Events.readable percentInput emptyLog := by
  refine ⟨connected_acceptedServer, by decide +kernel, fun log => ⟨?_, ?_, ?_, ?_⟩, ?_⟩
  · intro h
    exact h.others
  · intro h
    exact h.others
  · intro h
    have hin := h.inside (-1) (by decide +kernel)
    exact absurd hin (by decide)
  · intro h
    exact h.others
  · intro h
    obtain ⟨t, ht⟩ := h.others.finished
    obtain ⟨-, type, htype, hhandled⟩ := RpcServer.deliverLogged_finished ht
    cases htype
    have hinside : ∀ fd' ∈ (acceptedServer.reported 5).touched 5 Events.readable percentInput,
        InTable fd' := h.inside
    -- if the server had got over it, the log would have borne the name
    have hname := (RpcServer.tolerates_of_finished rfl hinside hhandled).2
    exact absurd (hname _ rfl) (by decide +kernel)

end DreamboatRpc.Server
