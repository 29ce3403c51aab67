import DreamboatRpc.Common.Logger
import DreamboatRpc.Server.System

/-!
# What an event logs

`log_dev` takes the text of a line as a format once more. Most lines that are logged while an
event is handled have integers in them at most, or a text of `strerror`, which has no percent
sign. Two have another string: the error of a descriptor, which `Poller::Dispatch` prints byte by
byte, and the name of a service that is not in the dictionary, which is what the peer sent.

## Main definitions

* `EventLog` — what the calls of `log_dev` find while an event is handled
* `RpcServer.deliverLogged` — an event is reported and handled, with the two lines

## Main results

* `EventLog.defined_errormsg_iff`, `EventLog.defined_notFound_iff` — when the lines do no harm
* `RpcServer.deliver_of_logged` — the lines change nothing else
-/

namespace DreamboatRpc.Server

open CS Rpc Common

/-- What the calls of `log_dev` find while an event is handled, and what `getsockopt` gives as the
error of the descriptor, if it does not fail. -/
structure EventLog extends LogInput where
  soError : Option Int32

/-- The line of `Poller::Dispatch` on the error of a descriptor. -/
def errormsgFormat : List UInt8 := chars "Poller::Dispatch: Errormsg is %s\n"

/-- `errors` of `Poller::Dispatch`: zeros, and an `int` at their start. -/
def errors (soError : Int32) : CharArray 100 := .ofBytes 100 (intBytes soError)

/-- The line of the request handler on a service that is not in the dictionary. -/
def notFoundFormat : List UInt8 :=
  chars "RpcRequestHandler::HandleReadEvent: Warning! Service [%s] not found\n"

/-- The text of `errormsgFormat`. -/
def errormsgText (soError : Int32) : List UInt8 :=
  chars "Poller::Dispatch: Errormsg is " ++ (cString (errors soError).bytes ++ chars "\n")

/-- The text of `notFoundFormat`. -/
def notFoundText (servicename : List UInt8) : List UInt8 :=
  chars "RpcRequestHandler::HandleReadEvent: Warning! Service [" ++
    (cString servicename ++ chars "] not found\n")

namespace EventLog

variable {log : EventLog}

theorem defined_errormsg_iff (soError : Int32) :
    log.defined errormsgFormat [.string (errors soError).bytes] ↔
      log.Bears (errormsgText soError) :=
  LogInput.defined_string_iff (by decide +kernel) (by decide +kernel) (by decide +kernel)

theorem defined_notFound_iff (servicename : List UInt8) :
    log.defined notFoundFormat [.string servicename] ↔ log.Bears (notFoundText servicename) :=
  LogInput.defined_string_iff (by decide +kernel) (by decide +kernel) (by decide +kernel)

end EventLog

/-! ## The server with its log -/

namespace RpcServer

variable {Service : Type} (s : RpcServer Service) (log : EventLog)

/-- The memory from the name on that the handler logs: the request passes its checks, and the
service it names is not in the dictionary. -/
def notFound (input : Input Service) : Option (List UInt8) :=
  let servicename := servicenameMemory
    (receivedMessage input.header.received input.body.received) input.stack
  if Passes input.header input.body ∧ s.dictionary.get? (cString servicename) = none then
    some servicename
  else none

/-- `RpcRequestHandler::HandleReadEvent` with the line on a service that was not found. -/
def requestLogged (fd : ℤ) (input : Input Service) : Outcome (RpcServer Service) :=
  if (s.notFound input).all (log.defined notFoundFormat [.string ·]) then s.request fd input
  else .undefined

/-- `EventHandlerManager::HandleEvent` with that line. -/
def handleEventLogged (fd : ℤ) (type : EventType) (input : Input Service) :
    Outcome (RpcServer Service) :=
  match s.method fd type with
  | .request => s.requestLogged log fd input
  | _ => s.handleEvent fd type input

/-- An event is reported and handled. What follows a line that `log_dev` is not defined for is
not known. -/
def deliverLogged (fd : ℤ) (events : Events) (input : Input Service) :
    Outcome (RpcServer Service) :=
  if events.err && !log.soError.all fun e =>
      log.defined errormsgFormat [.string (errors e).bytes] then
    .undefined
  else
    match events.type with
    | none => .exited
    | some type =>
      { s with interest := Function.update s.interest fd .disarmed
        }.handleEventLogged log fd type input

variable {s log} {fd : ℤ} {type : EventType} {events : Events} {input : Input Service}
  {t : RpcServer Service}

/-- If the handler returns, the line changed nothing. -/
theorem handleEvent_of_logged (h : s.handleEventLogged log fd type input = .finished t) :
    s.handleEvent fd type input = .finished t := by
  rw [handleEventLogged] at h
  split at h
  · rename_i hmethod
    rw [requestLogged] at h
    split at h
    · rwa [handleEvent_request hmethod]
    · cases h
  · exact h

/-- If the server gets over an event, the lines changed nothing. -/
theorem deliver_of_logged (h : s.deliverLogged log fd events input = .finished t) :
    s.deliver fd events input = .finished t := by
  rw [deliverLogged] at h
  split at h
  · cases h
  cases htype : events.type with
  | none =>
    rw [htype] at h
    cases h
  | some type =>
    rw [htype] at h
    rw [deliver, htype]
    exact handleEvent_of_logged h

end RpcServer

end DreamboatRpc.Server
