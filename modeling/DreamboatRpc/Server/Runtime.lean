import Mathlib.Logic.Function.Basic
import DreamboatRpc.Server.RequestHandler

/-!
# The server

The poller reports events of descriptors that are registered one-shot: a descriptor whose
event was reported stays disarmed until a handler arms it again. An event is turned into a
type, the type and the descriptor select a slot of the handler table, and the object there
handles it. Results wait in a queue for each descriptor.

## Main definitions

* `Events`, `Events.type` — what `epoll_wait` reports, and `Poller::Dispatch`
* `HandlerTable` — `EventHandlerManager`
* `RpcServer` — the memory of the server and what epoll holds for it
* `RpcServer.handleEvent` — `EventHandlerManager::HandleEvent`
-/

namespace DreamboatRpc.Server

open CS Rpc

/-! ## Events -/

/-- `EventHandler::EventType`, a set of bits -/
abbrev EventType := ℕ

/-- `READ_EVENT` -/
def readEvent : EventType := 1

/-- `WRITE_EVENT` -/
def writeEvent : EventType := 2

/-- `CLOSE_EVENT` -/
def closeEvent : EventType := 4

/-- The events of one descriptor: `EPOLLERR`, `EPOLLRDHUP`, `EPOLLIN`, `EPOLLOUT` and
`EPOLLHUP`. -/
structure Events where
  err : Bool
  rdhup : Bool
  input : Bool
  output : Bool
  hup : Bool
  deriving DecidableEq

/-- The type that `Poller::Dispatch` gives the events; `none` if it exits. -/
def Events.type (e : Events) : Option EventType :=
  -- an error is reported as no event, and nothing arms the descriptor again
  if e.err then some 0
  else if e.rdhup then some closeEvent
  else if e.input then some readEvent
  else if e.output then some writeEvent
  else none

theorem Events.output_of_type {e : Events} (h : e.type = some writeEvent) : e.output = true := by
  rw [type] at h
  split at h
  · simp [writeEvent] at h
  split at h
  · simp [closeEvent, writeEvent] at h
  split at h
  · simp [readEvent, writeEvent] at h
  split at h
  · assumption
  · cases h

/-! ## The handler table -/

/-- The objects that handle events. -/
inductive EventHandler
  | requestHandler
  | resultSender
  | serverTransport
  deriving DecidableEq

/-- `EventHandlerManager::_list` and the memory around it. -/
abbrev HandlerTable := ℤ → Option EventHandler

/-- `EventHandler::EventTypeToEventId` -/
def eventTypeToEventId (type : EventType) : ℤ := [-1, 0, 1, 1, 2, 2, 2, 2].getD (type % 8) (-1)

/-- `GetEventId`: the bits of `Fd << 2` and of the event id. -/
def getEventId (fd : ℤ) (type : EventType) : ℤ :=
  if eventTypeToEventId type = -1 then -1 else 4 * fd + eventTypeToEventId type

theorem getEventId_read (fd : ℤ) : getEventId fd readEvent = 4 * fd := by
  simp [getEventId, eventTypeToEventId, readEvent]

theorem getEventId_write (fd : ℤ) : getEventId fd writeEvent = 4 * fd + 1 := by
  simp [getEventId, eventTypeToEventId, writeEvent]

theorem getEventId_close (fd : ℤ) : getEventId fd closeEvent = 4 * fd + 2 := by
  simp [getEventId, eventTypeToEventId, closeEvent]

namespace HandlerTable

/-- `EventHandlerManager::SetEventHandler` -/
def setEventHandler (list : HandlerTable) (fd : ℤ) (type : EventType)
    (handler : Option EventHandler) : HandlerTable :=
  let list := if type.testBit 0 then Function.update list (4 * fd) handler else list
  let list := if type.testBit 1 then Function.update list (4 * fd + 1) handler else list
  if type.testBit 2 then Function.update list (4 * fd + 2) handler else list

/-- `EventHandlerManager::AttachEventHandler` -/
def attachEventHandler (list : HandlerTable) (fd : ℤ) (type : EventType)
    (handler : Option EventHandler) : HandlerTable :=
  if handler.isSome then list.setEventHandler fd type handler else list

/-- `EventHandlerManager::DetachEventHandler` -/
def detachEventHandler (list : HandlerTable) (fd : ℤ) (type : EventType) : HandlerTable :=
  list.setEventHandler fd type none

variable (list : HandlerTable) (fd : ℤ) (handler : Option EventHandler)

theorem setEventHandler_read :
    list.setEventHandler fd readEvent handler = Function.update list (4 * fd) handler :=
  rfl

theorem setEventHandler_write :
    list.setEventHandler fd writeEvent handler = Function.update list (4 * fd + 1) handler :=
  rfl

theorem setEventHandler_close :
    list.setEventHandler fd closeEvent handler = Function.update list (4 * fd + 2) handler :=
  rfl

/-- What a slot holds once the three slots of a descriptor were set. -/
theorem setEventHandler_all (i : ℤ) :
    list.setEventHandler fd (readEvent ||| writeEvent ||| closeEvent) handler i =
      if i ∈ [4 * fd, 4 * fd + 1, 4 * fd + 2] then handler else list i := by
  have h : ∀ k < 3, (readEvent ||| writeEvent ||| closeEvent).testBit k = true := by decide
  simp only [setEventHandler, h 0 (by omega), h 1 (by omega), h 2 (by omega), if_true,
    Function.update_apply, List.mem_cons, List.not_mem_nil, or_false]
  grind

end HandlerTable

/-! ## State -/

/-- What epoll holds for a descriptor: nothing; a registration whose event was reported; or
one that waits for `EPOLLIN`, and for `EPOLLOUT` if `output` is set. -/
inductive Interest
  | absent
  | disarmed
  | armed (output : Bool)
  deriving DecidableEq

/-- The memory of the server. -/
structure RpcServer (Service : Type) where
  dictionary : Dict (List UInt8) Service
  list : HandlerTable
  returnValues : ℤ → List RpcResult
  interest : ℤ → Interest
  listenfd : ℤ

/-- What one call of `send` did: it wrote the first `n` bytes, or returned -1. -/
inductive Send
  | sent (n : ℕ)
  | error (errno : Errno)
  deriving DecidableEq

/-- What the calls of one handler did, and what the stack held. -/
structure Input (Service : Type) where
  header : Recv
  body : Recv
  stack : List UInt8
  handle : Service → RpcMessage → Option RpcResult
  send : Send
  accepted : Option ℤ

/-- How a handler ends: the process exits, the memory is overwritten, or it returns. -/
inductive Outcome (σ : Type)
  | exited
  | undefined
  | finished (s : σ)

/-- The method that an event ends in. -/
inductive Method
  | nothing
  | request
  | result
  | accept
  | close
  deriving DecidableEq

namespace EventHandler

/-- What overrides `HandleReadEvent`. -/
def readMethod : EventHandler → Method
  | requestHandler => .request
  | resultSender => .nothing
  | serverTransport => .accept

/-- What overrides `HandleWriteEvent`. -/
def writeMethod : EventHandler → Method
  | requestHandler => .nothing
  | resultSender => .result
  | serverTransport => .nothing

/-- What overrides `HandleCloseEvent`. -/
def closeMethod : EventHandler → Method
  | requestHandler => .nothing
  | resultSender => .nothing
  | serverTransport => .close

/-- `EventHandler::HandleEvent` -/
def method (handler : EventHandler) (type : EventType) : Method :=
  if type = closeEvent then handler.closeMethod
  else if type = readEvent then handler.readMethod
  else if type = writeEvent then handler.writeMethod
  else .nothing

end EventHandler

namespace RpcServer

variable {Service : Type} (s : RpcServer Service)

/-- After `ServerTransport::Listen` -/
def listen (dictionary : Dict (List UInt8) Service) (listenfd : ℤ) : RpcServer Service where
  dictionary := dictionary
  list := HandlerTable.attachEventHandler (fun _ => none) listenfd readEvent
    (some .serverTransport)
  returnValues := fun _ => []
  interest := Function.update (fun _ => .absent) listenfd (.armed false)
  listenfd := listenfd

/-- `Poller::ModEvent` with `EPOLL_FLAGS_IN_ONESHOT`, or with `EPOLL_FLAGS_INOUT_ONESHOT` if
`output`. It fails for a descriptor that was not added. -/
def modEvent (fd : ℤ) (output : Bool) : RpcServer Service :=
  if s.interest fd = .absent then s
  else { s with interest := Function.update s.interest fd (.armed output) }

/-- `Poller::AddEvent` with `EPOLL_FLAGS_IN_ONESHOT`. It fails for -1. -/
def addEvent (fd : ℤ) : RpcServer Service :=
  if 0 ≤ fd then { s with interest := Function.update s.interest fd (.armed false) } else s

/-- `Poller::DelEvent` -/
def delEvent (fd : ℤ) : RpcServer Service :=
  { s with interest := Function.update s.interest fd .absent }

theorem interest_modEvent (fd fd' : ℤ) (output : Bool) : (s.modEvent fd output).interest fd' =
    if fd' = fd ∧ s.interest fd ≠ .absent then .armed output else s.interest fd' := by
  rw [modEvent]
  split
  · rename_i h
    simp [h]
  · rename_i h
    simp [h, Function.update_apply]

theorem interest_addEvent {fd : ℤ} (h : 0 ≤ fd) (fd' : ℤ) : (s.addEvent fd).interest fd' =
    if fd' = fd then .armed false else s.interest fd' := by
  simp [addEvent, h, Function.update_apply]

@[simp] theorem modEvent_list (fd : ℤ) (output : Bool) : (s.modEvent fd output).list = s.list := by
  unfold modEvent
  split <;> rfl

@[simp] theorem modEvent_returnValues (fd : ℤ) (output : Bool) :
    (s.modEvent fd output).returnValues = s.returnValues := by
  unfold modEvent
  split <;> rfl

@[simp] theorem modEvent_listenfd (fd : ℤ) (output : Bool) :
    (s.modEvent fd output).listenfd = s.listenfd := by
  unfold modEvent
  split <;> rfl

@[simp] theorem modEvent_dictionary (fd : ℤ) (output : Bool) :
    (s.modEvent fd output).dictionary = s.dictionary := by
  unfold modEvent
  split <;> rfl

@[simp] theorem addEvent_list (fd : ℤ) : (s.addEvent fd).list = s.list := by
  unfold addEvent
  split <;> rfl

@[simp] theorem addEvent_returnValues (fd : ℤ) :
    (s.addEvent fd).returnValues = s.returnValues := by
  unfold addEvent
  split <;> rfl

@[simp] theorem addEvent_listenfd (fd : ℤ) : (s.addEvent fd).listenfd = s.listenfd := by
  unfold addEvent
  split <;> rfl

@[simp] theorem addEvent_dictionary (fd : ℤ) : (s.addEvent fd).dictionary = s.dictionary := by
  unfold addEvent
  split <;> rfl

/-- `ReturnValuePipe::Write` -/
def pipeWrite (fd : ℤ) (result : RpcResult) : RpcServer Service :=
  { s with returnValues := Function.update s.returnValues fd (s.returnValues fd ++ [result]) }

/-- `ReturnValuePipe::Read`, where the queue holds `result` before `rest`. -/
def pipeRead (fd : ℤ) (rest : List RpcResult) : RpcServer Service :=
  { s with returnValues := Function.update s.returnValues fd rest }

/-- `RpcServer::FileDescriptorEventDone` -/
def fileDescriptorEventDone (fd : ℤ) : RpcServer Service :=
  s.modEvent fd (s.returnValues fd ≠ [])

/-- The end of `RpcRequestHandler::HandleReadEvent`: the result is queued if the message
asks for it. -/
def answer (fd : ℤ) (message : RpcMessage) (result : RpcResult) : RpcServer Service :=
  -- the descriptor is armed for writing only if a result waits
  (if message.header.needReturn then s.pipeWrite fd result else s).fileDescriptorEventDone fd

/-- `RpcRequestHandler::HandleReadEvent` -/
def request (fd : ℤ) (input : Input Service) : Outcome (RpcServer Service) :=
  match (handleReadEvent s.dictionary input.stack input.header input.body input.handle).2 with
  | .exited => .exited
  | .undefined => .undefined
  | .returned => .finished s
  | .handled message result => .finished (s.answer fd message result)

/-- `RpcResultSender::HandleWriteEvent`. The queue must not be empty, and `send` may only
fail because the socket is full. -/
def result (fd : ℤ) (input : Input Service) : Outcome (RpcServer Service) :=
  match s.returnValues fd with
  | [] => .exited
  | _ :: rest =>
    if input.send = .error .other then .exited
    else .finished ((s.pipeRead fd rest).fileDescriptorEventDone fd)

/-- The slots of an accepted descriptor get their handlers. -/
def attachAll (list : HandlerTable) (connfd : ℤ) : HandlerTable :=
  let list := list.attachEventHandler connfd readEvent (some .requestHandler)
  let list := list.attachEventHandler connfd writeEvent (some .resultSender)
  list.attachEventHandler connfd closeEvent (some .serverTransport)

theorem attachAll_apply (list : HandlerTable) (connfd : ℤ) (i : ℤ) :
    attachAll list connfd i =
      if i = 4 * connfd + 2 then some .serverTransport
      else if i = 4 * connfd + 1 then some .resultSender
      else if i = 4 * connfd then some .requestHandler
      else list i := by
  simp only [attachAll, HandlerTable.attachEventHandler, Option.isSome_some, if_true,
    HandlerTable.setEventHandler_read, HandlerTable.setEventHandler_write,
    HandlerTable.setEventHandler_close, Function.update_apply]

/-- `ServerTransport::HandleReadEvent`; `Accept` returns -1 where it fails. -/
def accept (fd : ℤ) (input : Input Service) : Outcome (RpcServer Service) :=
  if fd ≠ s.listenfd then .exited
  else
    -- what `Accept` returns is not checked
    let connfd := input.accepted.getD (-1)
    .finished (({ s with list := attachAll s.list connfd }.addEvent connfd).modEvent
      s.listenfd false)

/-- `ServerTransport::HandleCloseEvent`. The queue of the descriptor stays as it is. -/
def close (fd : ℤ) : RpcServer Service :=
  { s with list := s.list.detachEventHandler fd (readEvent ||| writeEvent ||| closeEvent)
    }.delEvent fd

/-- Which method handles an event of a descriptor. -/
def method (fd : ℤ) (type : EventType) : Method :=
  if type = 0 then .nothing
  else
    match s.list (getEventId fd type) with
    | none => .nothing
    | some handler => handler.method type

/-- `EventHandlerManager::HandleEvent` -/
def handleEvent (fd : ℤ) (type : EventType) (input : Input Service) :
    Outcome (RpcServer Service) :=
  match s.method fd type with
  | .nothing => .finished s
  | .request => s.request fd input
  | .result => s.result fd input
  | .accept => s.accept fd input
  | .close => .finished (s.close fd)

/-- The poller reports an event of a descriptor, which is disarmed by that, and the event is
handled. -/
def deliver (fd : ℤ) (events : Events) (input : Input Service) : Outcome (RpcServer Service) :=
  match events.type with
  | none => .exited
  | some type =>
    { s with interest := Function.update s.interest fd .disarmed }.handleEvent fd type input

end RpcServer

end DreamboatRpc.Server
