import DreamboatRpc.CS.Dict
import DreamboatRpc.Rpc.Codec

/-!
# The request handler

`RpcRequestHandler::HandleReadEvent` reads a header and then as many bytes as the header
says, each with one `recv`, and hands the message to the service it names. Two arrays of
the message are read as C strings, so how far the handler reads depends on what the peer
sent.

## Main definitions

* `Recv` — what one call of `recv` did
* `handleReadEvent` — the handler, with what it touches of the message
* `WithinBuffers` — what was received keeps the handler inside the arrays

## Main results

* `handleReadEvent_handled_iff` — when a message reaches its service
* `bounded_iff` — the handler stays inside the arrays if and only if the bytes it receives
  are `WithinBuffers`
* `arrays_left` — each array can be left
-/

namespace DreamboatRpc.Server

open CS Rpc

/-! ## What the kernel answers -/

/-- Why a call failed. -/
inductive Errno
  | eagain
  | other
  deriving DecidableEq

/-- What one call of `recv` did: it wrote some bytes, none at the end of the stream, or it
returned -1. -/
inductive Recv
  | bytes (received : List UInt8)
  | error (errno : Errno)
  deriving DecidableEq

namespace Recv

/-- What the call returned. -/
def value : Recv → ℤ
  | bytes received => received.length
  | error _ => -1

/-- What the call wrote. -/
def received : Recv → List UInt8
  | bytes received => received
  | error _ => []

@[simp] theorem value_bytes (received : List UInt8) : (bytes received).value = received.length :=
  rfl

@[simp] theorem value_error (errno : Errno) : (error errno).value = -1 := rfl

@[simp] theorem received_bytes (bs : List UInt8) : (bytes bs).received = bs := rfl

/-- What `recv` may do if it is asked for `size` bytes while the peer has written, or will
have written, `unread`. It gives no bytes only at the end of the stream or if it is asked
for none. -/
def Allowed (size : ℕ) (unread : List UInt8) : Recv → Prop
  | bytes received =>
    received <+: unread ∧ received.length ≤ size ∧ (received = [] → size = 0 ∨ unread = [])
  | error _ => True

instance (size : ℕ) (unread : List UInt8) (r : Recv) : Decidable (r.Allowed size unread) := by
  cases r <;> unfold Allowed <;> infer_instance

end Recv

/-- An `int` as the `size_t` that `recv` is given. -/
def sizeOfInt (i : Int32) : ℕ := (i.toInt % 2 ^ 64).toNat

/-! ## The handler -/

/-- What the handler does with an array of the message: it writes or reads this many bytes
from the start of the array on. -/
inductive Access
  | writesBody (n : ℕ)
  | readsServicename (n : ℕ)
  | readsParameters (n : ℕ)
  deriving DecidableEq

/-- How the handler ends: with `exit(1)` or a failed assertion; with the memory behind the
message overwritten, after which nothing is known; with an early return; or after the
service got the message. -/
inductive ReadOutcome
  | exited
  | undefined
  | returned
  | handled (message : RpcMessage) (result : RpcResult)
  deriving DecidableEq

variable {Service : Type}

/-- The memory from `servicename` on: the message, and what the stack holds behind it. -/
def servicenameMemory (message : RpcMessage) (stack : List UInt8) : List UInt8 :=
  message.header.servicename.bytes ++ (message.body.parameters.bytes ++ stack)

/-- The memory from `parameters` on. -/
def parametersMemory (message : RpcMessage) (stack : List UInt8) : List UInt8 :=
  message.body.parameters.bytes ++ stack

/-- The message once header and body were received; its body was zeroed before. -/
def receivedMessage (header body : List UInt8) : RpcMessage :=
  ⟨.ofBytes header, ⟨.ofBytes maxRpcParamsSize body⟩⟩

/-- The end of the handler: `servicename` is looked up, and `handle` says what `Handle` of
the service returns, `none` if it does not. -/
def serve (dictionary : Dict (List UInt8) Service) (stack : List UInt8)
    (handle : Service → RpcMessage → Option RpcResult) (message : RpcMessage) :
    List Access × ReadOutcome :=
  let reads := .readsServicename (strlen (servicenameMemory message stack) + 1)
  match dictionary.get? (cString (servicenameMemory message stack)) with
  | none => ([reads], .returned)
  | some service =>
    -- `HandleRPC` begins with `ParseProtoStruct` of the parameters
    let parses := .readsParameters (strlen (parametersMemory message stack) + 1)
    match handle service message with
    | none => ([reads, parses], .exited)
    | some result =>
      ([reads, parses], .handled message { result with seqno := message.header.seqno })

/-- `RpcRequestHandler::HandleReadEvent`, where the first and the second `recv` did
`header` and `body`. -/
def handleReadEvent (dictionary : Dict (List UInt8) Service) (stack : List UInt8)
    (header body : Recv) (handle : Service → RpcMessage → Option RpcResult) :
    List Access × ReadOutcome :=
  match header with
  | .error .other => ([], .exited)
  | .error .eagain => ([], .returned)
  | .bytes received =>
    if received.length ≠ RpcHeader.size then ([], .returned)
    else
      let message := receivedMessage received body.received
      let writes := .writesBody body.received.length
      -- the length is not compared with the size of the body before `recv` is called
      if maxRpcParamsSize < body.received.length then ([writes], .undefined)
      else if body.value ≠ message.header.bodyLength.toInt then ([writes], .returned)
      else if message.header.magic ≠ rpcMagicNumber then ([writes], .returned)
      else if message.header.version ≠ rpcVersion then ([writes], .returned)
      else
        let served := serve dictionary stack handle message
        (writes :: served.1, served.2)

/-- Header and body came whole and have the right magic number and version. -/
def Passes (header body : Recv) : Prop :=
  header.value = RpcHeader.size ∧ body.received.length ≤ maxRpcParamsSize ∧
    body.value = (receivedMessage header.received body.received).header.bodyLength.toInt ∧
    (receivedMessage header.received body.received).header.magic = rpcMagicNumber ∧
    (receivedMessage header.received body.received).header.version = rpcVersion

instance (header body : Recv) : Decidable (Passes header body) := by
  unfold Passes
  infer_instance

variable {dictionary : Dict (List UInt8) Service} {stack : List UInt8} {header body : Recv}
  {handle : Service → RpcMessage → Option RpcResult} {m : RpcMessage} {r : RpcResult}

/-- A header that came whole was received as bytes. -/
theorem Recv.eq_bytes_of_value (h : header.value = (RpcHeader.size : ℤ)) :
    ∃ received, header = .bytes received ∧ received.length = RpcHeader.size := by
  cases header with
  | bytes received =>
    rw [value_bytes] at h
    exact ⟨received, rfl, by exact_mod_cast h⟩
  | error errno =>
    rw [value_error] at h
    omega

/-- What the handler does with what passes. -/
theorem handleReadEvent_of_passes (h : Passes header body) :
    handleReadEvent dictionary stack header body handle =
      let served := serve dictionary stack handle
        (receivedMessage header.received body.received)
      (.writesBody body.received.length :: served.1, served.2) := by
  obtain ⟨hheader, hfit, hbody, hmagic, hversion⟩ := h
  obtain ⟨received, rfl, hlength⟩ := Recv.eq_bytes_of_value hheader
  rw [Recv.received_bytes] at *
  rw [handleReadEvent, if_neg (not_not.mpr hlength), if_neg (Nat.not_lt.mpr hfit),
    if_neg (not_not.mpr hbody), if_neg (not_not.mpr hmagic), if_neg (not_not.mpr hversion)]

/-- What does not pass gets no further than the second `recv`. -/
theorem handleReadEvent_of_not_passes (h : ¬ Passes header body) :
    handleReadEvent dictionary stack header body handle =
      if header = .error .other then ([], .exited)
      else if header.value ≠ RpcHeader.size then ([], .returned)
      else if maxRpcParamsSize < body.received.length then
        ([.writesBody body.received.length], .undefined)
      else ([.writesBody body.received.length], .returned) := by
  cases header with
  | error errno =>
    have hshort : (Recv.error errno).value ≠ RpcHeader.size := by
      rw [Recv.value_error]
      omega
    rw [if_pos hshort]
    cases errno <;> simp [handleReadEvent]
  | bytes received =>
    have hvalue : ((Recv.bytes received).value ≠ RpcHeader.size) ↔
        received.length ≠ RpcHeader.size := by
      rw [Recv.value_bytes, ne_eq, Nat.cast_inj]
    have hnot : ¬ Recv.bytes received = .error .other := by simp
    rw [handleReadEvent, if_neg hnot]
    by_cases hlength : received.length ≠ RpcHeader.size
    · rw [if_pos hlength, if_pos (hvalue.mpr hlength)]
    rw [if_neg hlength, if_neg (mt hvalue.mp hlength)]
    dsimp only
    by_cases hfit : maxRpcParamsSize < body.received.length
    · rw [if_pos hfit, if_pos hfit]
    rw [if_neg hfit, if_neg hfit]
    -- one of the three checks fails, or the request would pass
    by_cases hbody : body.value ≠ (receivedMessage received body.received).header.bodyLength.toInt
    · rw [if_pos hbody]
    by_cases hmagic : (receivedMessage received body.received).header.magic ≠ rpcMagicNumber
    · rw [if_neg hbody, if_pos hmagic]
    have hversion : (receivedMessage received body.received).header.version ≠ rpcVersion := by
      intro hversion
      exact h ⟨not_not.mp (mt hvalue.mp hlength), not_lt.mp hfit, not_not.mp hbody,
        not_not.mp hmagic, hversion⟩
    rw [if_neg hbody, if_neg hmagic, if_pos hversion]

theorem serve_handled_iff {message : RpcMessage} :
    (serve dictionary stack handle message).2 = .handled m r ↔
      m = message ∧
        ∃ service, dictionary.get? (cString (servicenameMemory m stack)) = some service ∧
          ∃ result, handle service m = some result ∧
            r = { result with seqno := m.header.seqno } := by
  rw [serve]
  constructor
  · intro h
    split at h
    · cases h
    · rename_i service hservice
      split at h
      · cases h
      · rename_i result hresult
        cases h
        exact ⟨rfl, service, hservice, result, hresult, rfl⟩
  · rintro ⟨rfl, service, hservice, result, hresult, rfl⟩
    simp only [hservice, hresult]

/-- A message reaches a service and is answered if and only if it passes, it names a
registered service, and the service returns. -/
theorem handleReadEvent_handled_iff :
    (handleReadEvent dictionary stack header body handle).2 = .handled m r ↔
      Passes header body ∧ m = receivedMessage header.received body.received ∧
        ∃ service, dictionary.get? (cString (servicenameMemory m stack)) = some service ∧
          ∃ result, handle service m = some result ∧
            r = { result with seqno := m.header.seqno } := by
  by_cases h : Passes header body
  · rw [handleReadEvent_of_passes h]
    simp only [h, true_and]
    exact serve_handled_iff
  · rw [handleReadEvent_of_not_passes h]
    constructor
    · intro hm
      split at hm
      · cases hm
      split at hm
      · cases hm
      split at hm <;> cases hm
    · intro hm
      exact absurd hm.1 h

/-! ## Staying inside the message -/

/-- The access stays inside its array. -/
def Access.Inside : Access → Prop
  | writesBody n => n ≤ maxRpcParamsSize
  | readsServicename n => n ≤ maxRpcNameSize
  | readsParameters n => n ≤ maxRpcParamsSize

instance (a : Access) : Decidable a.Inside := by
  cases a <;> unfold Access.Inside <;> infer_instance

/-- What was received keeps the handler inside the arrays of the message: after a whole
header, the second `recv` delivers at most as many bytes as the body holds; if header and
body pass the checks, the name has a terminator; and if it names a service, the parameters
have one, be it the zero behind a body that is not full. -/
def WithinBuffers (dictionary : Dict (List UInt8) Service) (header body : Recv) : Prop :=
  header.value = RpcHeader.size → body.received.length ≤ maxRpcParamsSize ∧
    (Passes header body →
      let servicename := (RpcHeader.ofBytes header.received).servicename.bytes
      0 ∈ servicename ∧ ((dictionary.get? (cString servicename)).isSome →
        body.received.length < maxRpcParamsSize ∨ 0 ∈ body.received))

instance (dictionary : Dict (List UInt8) Service) (header body : Recv) :
    Decidable (WithinBuffers dictionary header body) := by
  unfold WithinBuffers
  infer_instance

/-- Reading a name stays inside if and only if it has a terminator. -/
theorem readsServicename_inside_iff (m : RpcMessage) (stack : List UInt8) :
    (Access.readsServicename (strlen (servicenameMemory m stack) + 1)).Inside ↔
      0 ∈ m.header.servicename.bytes := by
  have h := strlen_append_lt_iff m.header.servicename.bytes
    (m.body.parameters.bytes ++ stack)
  rw [m.header.servicename.length_bytes] at h
  exact h

/-- Bytes received into a zeroed body leave a zero in it if they do not fill it or have one
themselves. -/
theorem zero_mem_parameters_iff {received : List UInt8}
    (h : received.length ≤ maxRpcParamsSize) :
    0 ∈ (CharArray.ofBytes maxRpcParamsSize received).bytes ↔
      received.length < maxRpcParamsSize ∨ 0 ∈ received := by
  have hbytes : (CharArray.ofBytes maxRpcParamsSize received).bytes =
      received ++ List.replicate (maxRpcParamsSize - received.length) 0 := by
    simp only [CharArray.ofBytes, List.take_append, List.take_of_length_le h,
      List.take_replicate]
    simp
  rw [hbytes, List.mem_append, List.mem_replicate, or_comm]
  apply or_congr_left
  constructor
  · rintro ⟨hne, -⟩
    omega
  · intro hlt
    exact ⟨by omega, rfl⟩

theorem readsParameters_inside_iff (m : RpcMessage) (stack : List UInt8) :
    (Access.readsParameters (strlen (parametersMemory m stack) + 1)).Inside ↔
      0 ∈ m.body.parameters.bytes := by
  have h := strlen_append_lt_iff m.body.parameters.bytes stack
  rw [m.body.parameters.length_bytes] at h
  exact h

/-- A name with a terminator is read without looking at what follows it. -/
theorem cString_servicenameMemory (h : 0 ∈ m.header.servicename.bytes) :
    cString (servicenameMemory m stack) = cString m.header.servicename.bytes := by
  obtain ⟨before, after, heq⟩ := List.append_of_mem h
  rw [servicenameMemory, heq, List.append_assoc, List.cons_append, cString_append_zero,
    cString_append_zero]

/-- Serving a message stays inside its arrays if and only if the name has a terminator and,
if it names a service, the parameters have one. -/
theorem serve_inside_iff (m : RpcMessage) :
    (∀ a ∈ (serve dictionary stack handle m).1, a.Inside) ↔
      0 ∈ m.header.servicename.bytes ∧
        ((dictionary.get? (cString m.header.servicename.bytes)).isSome →
          0 ∈ m.body.parameters.bytes) := by
  have hname := readsServicename_inside_iff m stack
  have hparameters := readsParameters_inside_iff m stack
  have hmem : ∀ b, b = Access.readsServicename (strlen (servicenameMemory m stack) + 1) →
      b ∈ (serve dictionary stack handle m).1 := by
    rintro b rfl
    rw [serve]
    split
    · simp
    · split <;> simp
  by_cases hterminated : 0 ∈ m.header.servicename.bytes
  · have hinside := hname.mpr hterminated
    rw [serve, cString_servicenameMemory hterminated]
    cases hget : dictionary.get? (cString m.header.servicename.bytes) with
    | none => simp [hinside, hterminated]
    | some service =>
      cases hhandle : handle service m <;> simp [hhandle, hinside, hparameters, hterminated]
  · -- the name is left, whatever is found under it
    constructor
    · intro hall
      exact absurd (hname.mp (hall _ (hmem _ rfl))) hterminated
    · intro hin
      exact absurd hin.1 hterminated

/-- The handler stays inside the arrays of the message if and only if the bytes it receives
are within the buffers. -/
theorem bounded_iff (dictionary : Dict (List UInt8) Service) (stack : List UInt8)
    (header body : Recv) (handle : Service → RpcMessage → Option RpcResult) :
    (∀ a ∈ (handleReadEvent dictionary stack header body handle).1, a.Inside) ↔
      WithinBuffers dictionary header body := by
  by_cases h : Passes header body
  · have hwrites : (Access.writesBody body.received.length).Inside := h.2.1
    have hzero := zero_mem_parameters_iff h.2.1
    rw [handleReadEvent_of_passes h]
    simp only [List.forall_mem_cons, hwrites, true_and]
    rw [serve_inside_iff, WithinBuffers]
    simp only [h.1, h.2.1, h, true_and, forall_const]
    simp only [receivedMessage, hzero]
  · rw [handleReadEvent_of_not_passes h, WithinBuffers]
    by_cases hvalue : header.value = RpcHeader.size
    · obtain ⟨received, rfl, -⟩ := Recv.eq_bytes_of_value hvalue
      rw [if_neg (by simp), if_neg (not_not.mpr hvalue)]
      by_cases hfit : maxRpcParamsSize < body.received.length
      · simp [hfit, hvalue, Access.Inside, h]
      · simp [hfit, hvalue, Access.Inside, h]
    · simp only [hvalue, false_implies, iff_true]
      split <;> simp

/-- A header that asks the service `name` and announces a body of this length. -/
def requestHeader (name : List UInt8) (bodyLength : Int32) (needReturn : Bool) : RpcHeader where
  magic := rpcMagicNumber
  version := rpcVersion
  needReturn := needReturn
  padding := .bzero 3
  seqno := 1
  bodyLength := bodyLength
  servicename := .ofBytes maxRpcNameSize name

/-- Each array is left: the body by a request that announces 481 bytes and sends them, the
name by 32 characters without a terminator, and the parameters by 480 bytes without one. -/
theorem arrays_left :
    let dictionary := (∅ : Dict (List UInt8) Unit).set [97] ()
    let accesses := fun (h : RpcHeader) (body : List UInt8) => (handleReadEvent dictionary [0]
      (.bytes h.toBytes) (.bytes body) fun _ _ => none).1
    (∃ a ∈ accesses (requestHeader [97] 481 true) (List.replicate 481 1), ¬ a.Inside) ∧
      (∃ a ∈ accesses (requestHeader (List.replicate 32 97) 0 true) [], ¬ a.Inside) ∧
        ∃ a ∈ accesses (requestHeader [97] 480 true) (List.replicate 480 1), ¬ a.Inside := by
  refine ⟨⟨.writesBody 481, ?_⟩, ⟨.readsServicename 33, ?_⟩, ⟨.readsParameters 481, ?_⟩⟩ <;>
    decide +kernel

end DreamboatRpc.Server
