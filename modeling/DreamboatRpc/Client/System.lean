import DreamboatRpc.CS.Transition
import DreamboatRpc.Client.Guid
import DreamboatRpc.Rpc.Codec

/-!
# The client

Any number of threads call services; the thread of the event loop writes their requests to
the connection, reads results and executes the callbacks, which may call services again. A
call gets an id, puts its callback into the table under that id and queues its request; the
event loop executes the callback of a result, deletes it, clears its slot and recycles the
id. The allocator and the queue have a lock each, so what they do is one step.

## Main definitions

* `CallPoint`, `LoopPoint` — where a thread is in a call, and the event loop in a handler
* `System` — the memory of the client, and what is under way between it and the server
* `System.exec`, `clientSystem` — what can happen
* `System.Effect` — what an action did

## Main results

* `System.exec_effect` — every action has one of these effects
-/

namespace DreamboatRpc.Client

open CS Rpc

/-- `MAX_REQUESTS` -/
def maxRequests : ℕ := 1024

/-- A pointer in the callback table. A callback is named by the call that registered it; it
may be the one by which `CallRPC` fulfils its promise. -/
inductive Slot
  | null
  | callback (call : ℕ)
  | dangling
  deriving DecidableEq

/-- A service object: the memory its name points to, and whether `GetProxy` has set its
client. -/
structure Service where
  serviceName : List UInt8
  client : Bool

/-- A request, with the number of its call. -/
structure Request where
  call : ℕ
  message : RpcMessage
  deriving DecidableEq

/-- A result, with the number of the call whose request it answers. -/
structure Answer where
  call : ℕ
  result : RpcResult
  deriving DecidableEq

/-- Where a thread is in a call: in none; in `CallRPCAsync` with an id; after `Register`; or
in `f.get()`. `sync` is set for `CallRPC`. -/
inductive CallPoint
  | idle
  | numbered (call : ℕ) (sync client : Bool) (message : RpcMessage)
  | registered (call : ℕ) (sync : Bool) (message : RpcMessage)
  | waiting (call : ℕ)
  deriving DecidableEq

/-- Where the event loop is: between two handlers; or in `HandleReadEvent` after `recv`, in
`Exec`, after `delete` and after the slot was cleared. A buffer that holds a result the
server has sent is marked with the call it answers. -/
inductive LoopPoint
  | dispatching
  | received (answers : Option ℕ) (res : RpcResult)
  | executing (call : ℕ) (res : RpcResult)
  | deleted (res : RpcResult)
  | nulled (res : RpcResult)
  deriving DecidableEq

/-- The result of `send`: all bytes were taken, or fewer, or none and it failed. -/
inductive Sent
  | whole
  | short
  | failed
  deriving DecidableEq

/-- The result of `recv`: it failed; the buffer holds the next result of the server; or it
holds anything else. -/
inductive Recv
  | failed
  | answer
  | other (res : RpcResult)
  deriving DecidableEq

/-- The client, with the requests on their way to the server or being handled there and the
results on their way back. Threads are those of the application and, as `none`, that of the
event loop. The ids in use, the number of calls and the callbacks executed, each with the
call whose result it was executed for, are history. -/
structure System (τ : Type*) where
  guid : Guid
  slots : List Slot
  initialized : Bool
  pendingRequests : List Request
  /-- Whether the poller waits for `EPOLLOUT`. -/
  output : Bool
  threads : Option τ → CallPoint
  loop : LoopPoint
  wire : List Request
  answers : List Answer
  live : List ℤ
  calls : ℕ
  executed : List (ℕ × Option ℕ)

/-- What can happen: a thread begins a call and gets an id, registers its callback, sends its
request, or is told of the result; the client gets its connection; the event loop handles
an event step by step; the server answers a request. -/
inductive Action (τ : Type*)
  | call (t : Option τ) (sync : Bool) (service : Service) (encoding : List UInt8)
      (padding : CharArray 3) (beyond : ℤ)
  | invoke (t : Option τ)
  | sendRequest (t : Option τ)
  | wake (t : Option τ)
  | connect
  | write (sent : Sent)
  | read (recv : Recv)
  | exec
  | delete
  | null
  | recycle
  | answer (i : ℕ) (returnBuffer : CharArray maxRpcReturnValue)

/-- The id of a request. -/
def messageId (message : RpcMessage) : ℤ := message.header.seqno.toInt

/-- The id in a result. -/
def resultId (res : RpcResult) : ℤ := res.seqno.toInt

/-- The message of `CallRPCAsync`, for the encoding of the parameters. -/
def callMessage (padding : CharArray 3) (id : ℤ) (service : Service) (encoding : List UInt8) :
    RpcMessage :=
  let message := RpcMessage.new padding
  let packed := packParam message.body.parameters.bytes encoding
  { header := { message.header with
      seqno := .ofInt id
      servicename := .ofBytes maxRpcNameSize
        (strcpy message.header.servicename.bytes service.serviceName)
      bodyLength := .ofInt packed.2 }
    body := ⟨.ofBytes maxRpcParamsSize packed.1⟩ }

/-- `CallidCallbackMapping[id]`; `none` outside the table. -/
def slotAt (slots : List Slot) (id : ℤ) : Option Slot :=
  if id < 0 then none else slots[id.toNat]?

/-- `CallidCallbackMapping[id] = slot`. A write outside the table does not change it; what
it does instead is not modelled. -/
def setSlot (slots : List Slot) (id : ℤ) (slot : Slot) : List Slot :=
  if id < 0 then slots else slots.set id.toNat slot

/-- `CallidCallbackMapping[id]` is in the table and points to a callback. -/
def Registered (slots : List Slot) (id : ℤ) : Prop :=
  ∃ call, slotAt slots id = some (.callback call)

instance (slots : List Slot) (id : ℤ) : Decidable (Registered slots id) :=
  match h : slotAt slots id with
  | some (.callback call) => .isTrue ⟨call, h⟩
  | some .null | some .dangling | none => .isFalse fun hsome => by simp [Registered, h] at hsome

section SetSlot

variable {slots : List Slot} {id i : ℤ} {slot old : Slot}

theorem length_setSlot (slots : List Slot) (id : ℤ) (slot : Slot) :
    (setSlot slots id slot).length = slots.length := by
  unfold setSlot
  split
  · rfl
  · exact List.length_set

theorem setSlot_setSlot (slots : List Slot) (id : ℤ) (slot slot' : Slot) :
    setSlot (setSlot slots id slot) id slot' = setSlot slots id slot' := by
  unfold setSlot
  split
  · rfl
  · rw [List.set_set]

/-- The slot that is set, if it is in the table. -/
theorem slotAt_setSlot_self (h : slotAt slots id = some old) :
    slotAt (setSlot slots id slot) id = some slot := by
  unfold slotAt at h
  split at h
  · cases h
  · rename_i hnonneg
    obtain ⟨hlt, -⟩ := List.getElem?_eq_some_iff.mp h
    rw [setSlot, if_neg hnonneg, slotAt, if_neg hnonneg, List.getElem?_set_self hlt]

/-- The others stay as they were. -/
theorem slotAt_setSlot_of_ne (h : i ≠ id) : slotAt (setSlot slots id slot) i = slotAt slots i := by
  unfold setSlot
  split
  · rfl
  · unfold slotAt
    split
    · rfl
    · rw [List.getElem?_set_ne (by omega)]

end SetSlot

/-- Where a thread is when `CallRPCAsync` has returned. -/
def afterCall (call : ℕ) (sync : Bool) : CallPoint :=
  if sync then .waiting call else .idle

namespace System

variable {τ : Type*}

/-- The client before any call. -/
def init : System τ where
  guid := .init
  slots := List.replicate maxRequests .null
  initialized := false
  pendingRequests := []
  output := false
  threads := fun _ => .idle
  loop := .dispatching
  wire := []
  answers := []
  live := []
  calls := 0
  executed := []

/-- Whether the event loop is in `Exec`. -/
def isExecuting (s : System τ) : Bool :=
  match s.loop with
  | .executing _ _ => true
  | _ => false

section Threads

variable [DecidableEq τ] (s : System τ)

/-- `CallRPCAsync` up to `AsyncInvoke`: no id is a silent return. -/
def callRpcAsync (t : Option τ) (sync : Bool) (service : Service) (encoding : List UInt8)
    (padding : CharArray 3) (beyond : ℤ) : System τ :=
  let next := s.guid.getGuid beyond
  if next.1 = -1 then
    -- no request leaves, and yet a synchronous caller waits
    { s with
      calls := s.calls + 1
      threads := Function.update s.threads t (afterCall s.calls sync) }
  else
    { s with
      guid := next.2
      live := next.1 :: s.live
      calls := s.calls + 1
      threads := Function.update s.threads t
        (.numbered s.calls sync service.client (callMessage padding next.1 service encoding)) }

/-- `AsyncInvoke` up to `SendRequest`, with `Register`. -/
def asyncInvoke (t : Option τ) (call : ℕ) (sync client : Bool) (message : RpcMessage) :
    System τ :=
  if client then
    { s with
      slots := setSlot s.slots (messageId message) (.callback call)
      threads := Function.update s.threads t (.registered call sync
        { message with header := { message.header with needReturn := true } }) }
  else { s with threads := Function.update s.threads t (afterCall call sync) }

/-- `RpcClient::SendRequest`, with `ClientTransport::Push`. -/
def sendRequest (t : Option τ) (call : ℕ) (sync : Bool) (message : RpcMessage) : System τ :=
  if s.initialized then
    { s with
      pendingRequests := s.pendingRequests ++ [⟨call, message⟩]
      output := true
      threads := Function.update s.threads t (afterCall call sync) }
  else { s with threads := Function.update s.threads t (afterCall call sync) }

end Threads

section Loop

variable (s : System τ)

/-- `ClientTransport::HandleWriteEvent`, with `Send`: whatever `send` returns, the request is
taken off the queue. -/
def handleWriteEvent (sent : Sent) : System τ :=
  match s.pendingRequests with
  | [] => { s with output := false }
  | request :: rest =>
    { s with
      pendingRequests := rest
      -- the server cannot read a request of which a part is missing
      wire := if sent = .whole then s.wire ++ [request] else s.wire
      output := !rest.isEmpty }

/-- `CallbacksHandler::HandleReadEvent` up to `Exec`. -/
def handleReadEvent : Recv → Option (System τ)
  | .failed => some s
  | .answer =>
    match s.answers with
    | [] => none
    | answer :: rest =>
      -- the handler knows the id only; the call it answers is a mark of the model
      some { s with answers := rest, loop := .received (some answer.call) answer.result }
  | .other res => some { s with loop := .received none res }

/-- The call of `Exec`; `none` if there is no callback to call it on, where the behaviour is
undefined. -/
def execCallback (answers : Option ℕ) (res : RpcResult) : Option (System τ) :=
  match slotAt s.slots (resultId res) with
  | some (.callback call) =>
    some { s with loop := .executing call res, executed := (call, answers) :: s.executed }
  | _ => none

/-- `delete` on the slot; deleting what was deleted is undefined. -/
def deleteCallback (res : RpcResult) : Option (System τ) :=
  match slotAt s.slots (resultId res) with
  | some (.callback _) =>
    some { s with slots := setSlot s.slots (resultId res) .dangling, loop := .deleted res }
  -- `delete` of a null pointer is allowed and does nothing
  | some .null => some { s with loop := .deleted res }
  | _ => none

/-- The slot is cleared. -/
def clearSlot (res : RpcResult) : System τ :=
  { s with slots := setSlot s.slots (resultId res) .null, loop := .nulled res }

/-- `RecycleGuid` at the end of the handler. -/
def recycle (res : RpcResult) : System τ :=
  { s with
    guid := s.guid.recycleGuid (resultId res)
    live := s.live.erase (resultId res)
    loop := .dispatching }

/-- The server answers a request that it has not answered before. -/
def answerRequest (i : ℕ) (returnBuffer : CharArray maxRpcReturnValue) : Option (System τ) :=
  (s.wire[i]?).map fun request =>
    { s with
      wire := s.wire.eraseIdx i
      answers := s.answers ++ [⟨request.call, ⟨request.message.header.seqno, returnBuffer⟩⟩] }

end Loop

/-- What an action does, if it is possible. The event loop calls services in a callback
only, and ends the callback when its calls have returned. -/
def exec [DecidableEq τ] (s : System τ) : Action τ → Option (System τ)
  | .call t sync service encoding padding beyond =>
    if s.threads t = .idle ∧ (t.isSome || s.isExecuting) then
      some (s.callRpcAsync t sync service encoding padding beyond)
    else none
  | .invoke t =>
    match s.threads t with
    | .numbered call sync client message => some (s.asyncInvoke t call sync client message)
    | _ => none
  | .sendRequest t =>
    match s.threads t with
    | .registered call sync message => some (s.sendRequest t call sync message)
    | _ => none
  | .wake t =>
    match s.threads t with
    | .waiting call =>
      if call ∈ s.executed.map Prod.fst then
        some { s with threads := Function.update s.threads t .idle }
      else none
    | _ => none
  | .connect => some { s with initialized := true }
  -- one thread runs the handlers, so each begins when the last has ended
  | .write sent =>
    if s.loop = .dispatching ∧ s.output then some (s.handleWriteEvent sent) else none
  | .read recv => if s.loop = .dispatching then s.handleReadEvent recv else none
  | .exec =>
    match s.loop with
    | .received answers res => s.execCallback answers res
    | _ => none
  | .delete =>
    match s.loop with
    | .executing _ res => if s.threads none = .idle then s.deleteCallback res else none
    | _ => none
  | .null =>
    match s.loop with
    | .deleted res => some (s.clearSlot res)
    | _ => none
  | .recycle =>
    match s.loop with
    | .nulled res => some (s.recycle res)
    | _ => none
  | .answer i returnBuffer => s.answerRequest i returnBuffer

end System

namespace System

section Frame

variable {τ : Type*} (s : System τ)

/-! A step of a call, or of writing, leaves the event loop where it is. -/

@[simp] theorem callRpcAsync_loop [DecidableEq τ] (t : Option τ) (sync : Bool) (service : Service)
    (encoding : List UInt8) (padding : CharArray 3) (beyond : ℤ) :
    (s.callRpcAsync t sync service encoding padding beyond).loop = s.loop := by
  simp only [callRpcAsync]
  split <;> rfl

@[simp] theorem callRpcAsync_executed [DecidableEq τ] (t : Option τ) (sync : Bool)
    (service : Service) (encoding : List UInt8) (padding : CharArray 3) (beyond : ℤ) :
    (s.callRpcAsync t sync service encoding padding beyond).executed = s.executed := by
  simp only [callRpcAsync]
  split <;> rfl

@[simp] theorem asyncInvoke_loop [DecidableEq τ] (t : Option τ) (call : ℕ) (sync client : Bool)
    (message : RpcMessage) : (s.asyncInvoke t call sync client message).loop = s.loop := by
  unfold asyncInvoke
  split <;> rfl

@[simp] theorem asyncInvoke_executed [DecidableEq τ] (t : Option τ) (call : ℕ) (sync client : Bool)
    (message : RpcMessage) : (s.asyncInvoke t call sync client message).executed = s.executed := by
  unfold asyncInvoke
  split <;> rfl

@[simp] theorem sendRequest_loop [DecidableEq τ] (t : Option τ) (call : ℕ) (sync : Bool)
    (message : RpcMessage) : (s.sendRequest t call sync message).loop = s.loop := by
  unfold sendRequest
  split <;> rfl

@[simp] theorem sendRequest_executed [DecidableEq τ] (t : Option τ) (call : ℕ) (sync : Bool)
    (message : RpcMessage) : (s.sendRequest t call sync message).executed = s.executed := by
  unfold sendRequest
  split <;> rfl

/-- Deleting a callback changes nothing but the table, which keeps its length. -/
theorem deleteCallback_eq_some {s s' : System τ} {res : RpcResult}
    (h : s.deleteCallback res = some s') : ∃ slots : List Slot,
      slots.length = s.slots.length ∧ s' = { s with slots := slots, loop := .deleted res } := by
  rw [deleteCallback] at h
  split at h
  · cases h
    exact ⟨_, length_setSlot .., rfl⟩
  · cases h
    exact ⟨s.slots, rfl, rfl⟩
  · cases h

@[simp] theorem handleWriteEvent_loop (sent : Sent) : (s.handleWriteEvent sent).loop = s.loop := by
  unfold handleWriteEvent
  split <;> rfl

@[simp] theorem handleWriteEvent_executed (sent : Sent) :
    (s.handleWriteEvent sent).executed = s.executed := by
  unfold handleWriteEvent
  split <;> rfl

@[simp] theorem handleWriteEvent_threads (sent : Sent) :
    (s.handleWriteEvent sent).threads = s.threads := by
  unfold handleWriteEvent
  split <;> rfl

end Frame

end System

namespace System

variable {τ : Type*} [DecidableEq τ] {s s' : System τ}

/-- What an action did, one constructor for each way through the code. -/
inductive Effect (s : System τ) : Action τ → System τ → Prop
  | noId {t sync service encoding padding beyond} (hidle : s.threads t = .idle)
      (hid : (s.guid.getGuid beyond).1 = -1) :
      Effect s (.call t sync service encoding padding beyond)
        { s with
          calls := s.calls + 1
          threads := Function.update s.threads t (afterCall s.calls sync) }
  | numbered {t sync service encoding padding beyond} (hidle : s.threads t = .idle)
      (hid : (s.guid.getGuid beyond).1 ≠ -1) :
      Effect s (.call t sync service encoding padding beyond)
        (s.callRpcAsync t sync service encoding padding beyond)
  | registered {t call sync message} (ht : s.threads t = .numbered call sync true message) :
      Effect s (.invoke t) (s.asyncInvoke t call sync true message)
  | noClient {t call sync message} (ht : s.threads t = .numbered call sync false message) :
      Effect s (.invoke t) (s.asyncInvoke t call sync false message)
  | pushed {t call sync message} (ht : s.threads t = .registered call sync message)
      (hinit : s.initialized = true) :
      Effect s (.sendRequest t) (s.sendRequest t call sync message)
  | notInitialized {t call sync message} (ht : s.threads t = .registered call sync message)
      (hinit : ¬ s.initialized = true) :
      Effect s (.sendRequest t) (s.sendRequest t call sync message)
  | woken {t call} (ht : s.threads t = .waiting call) :
      Effect s (.wake t) { s with threads := Function.update s.threads t .idle }
  | connected : Effect s .connect { s with initialized := true }
  | written {sent request rest} (hqueue : s.pendingRequests = request :: rest) :
      Effect s (.write sent) (s.handleWriteEvent sent)
  | drained {sent} (hqueue : s.pendingRequests = []) :
      Effect s (.write sent) { s with output := false }
  | readFailed : Effect s (.read .failed) s
  | received {answer rest} (hloop : s.loop = .dispatching) (hanswers : s.answers = answer :: rest) :
      Effect s (.read .answer)
        { s with answers := rest, loop := .received (some answer.call) answer.result }
  | readOther {res} (hloop : s.loop = .dispatching) :
      Effect s (.read (.other res)) { s with loop := .received none res }
  | executed {answers res call} (hloop : s.loop = .received answers res)
      (hslot : slotAt s.slots (resultId res) = some (.callback call)) :
      Effect s .exec
        { s with loop := .executing call res, executed := (call, answers) :: s.executed }
  | deleted {call res s'} (hloop : s.loop = .executing call res)
      (hs : s.deleteCallback res = some s') : Effect s .delete s'
  | cleared {res} (hloop : s.loop = .deleted res) : Effect s .null (s.clearSlot res)
  | recycled {res} (hloop : s.loop = .nulled res) : Effect s .recycle (s.recycle res)
  | answered {i returnBuffer s'} (hs : s.answerRequest i returnBuffer = some s') :
      Effect s (.answer i returnBuffer) s'

/-- Every action that is possible has one of these effects. -/
theorem exec_effect {a : Action τ} (hs : s.exec a = some s') : Effect s a s' := by
  -- one action after another; whatever is not possible gives no state
  cases a with
  | call t sync service encoding padding beyond =>
    simp only [exec] at hs
    split at hs
    · rename_i hcall
      obtain rfl := Option.some.inj hs
      by_cases hid : (s.guid.getGuid beyond).1 = -1
      · rw [callRpcAsync, if_pos hid]
        exact .noId hcall.1 hid
      · exact .numbered hcall.1 hid
    · exact absurd hs (by simp)
  | invoke t =>
    simp only [exec] at hs
    split at hs
    · rename_i call sync client message ht
      obtain rfl := Option.some.inj hs
      cases client with
      | true => exact .registered ht
      | false => exact .noClient ht
    · exact absurd hs (by simp)
  | sendRequest t =>
    simp only [exec] at hs
    split at hs
    · rename_i call sync message ht
      obtain rfl := Option.some.inj hs
      by_cases hinit : s.initialized = true
      · exact .pushed ht hinit
      · exact .notInitialized ht hinit
    · exact absurd hs (by simp)
  | wake t =>
    simp only [exec] at hs
    split at hs
    · rename_i call ht
      split at hs
      · obtain rfl := Option.some.inj hs
        exact .woken ht
      · exact absurd hs (by simp)
    · exact absurd hs (by simp)
  | connect =>
    obtain rfl := Option.some.inj hs
    exact .connected
  | write sent =>
    simp only [exec] at hs
    split at hs
    · obtain rfl := Option.some.inj hs
      cases hqueue : s.pendingRequests with
      | nil =>
        have hdrained : s.handleWriteEvent sent = { s with output := false } := by
          cases s
          simp only at hqueue
          subst hqueue
          rfl
        rw [hdrained]
        exact .drained hqueue
      | cons request rest => exact .written hqueue
    · exact absurd hs (by simp)
  | read recv =>
    simp only [exec] at hs
    split at hs
    · rename_i hloop
      cases recv with
      | failed =>
        obtain rfl := Option.some.inj hs
        exact .readFailed
      | answer =>
        cases hanswers : s.answers with
        | nil => simp [handleReadEvent, hanswers] at hs
        | cons answer rest =>
          rw [handleReadEvent, hanswers] at hs
          obtain rfl := Option.some.inj hs
          exact .received hloop hanswers
      | other res =>
        obtain rfl := Option.some.inj hs
        exact .readOther hloop
    · exact absurd hs (by simp)
  | exec =>
    simp only [exec, execCallback] at hs
    split at hs
    · rename_i answers res hloop
      split at hs
      · rename_i call hslot
        obtain rfl := Option.some.inj hs
        exact .executed hloop hslot
      · exact absurd hs (by simp)
    · exact absurd hs (by simp)
  | delete =>
    simp only [exec] at hs
    split at hs
    · rename_i call res hloop
      split at hs
      · exact .deleted hloop hs
      · exact absurd hs (by simp)
    · exact absurd hs (by simp)
  | null =>
    simp only [exec] at hs
    split at hs
    · rename_i res hloop
      obtain rfl := Option.some.inj hs
      exact .cleared hloop
    · exact absurd hs (by simp)
  | recycle =>
    simp only [exec] at hs
    split at hs
    · rename_i res hloop
      obtain rfl := Option.some.inj hs
      exact .recycled hloop
    · exact absurd hs (by simp)
  | answer i returnBuffer => exact .answered hs

end System

/-- Runs of the client. -/
abbrev clientSystem (τ : Type*) [DecidableEq τ] : TransitionSystem (System τ) (Action τ) :=
  .ofExec System.init System.exec

end DreamboatRpc.Client
