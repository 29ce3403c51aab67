import DreamboatRpc.Rpc.Messages
import DreamboatRpc.Server.Framing

/-!
# Two decoders

The client library has `Serializer::Deserialize`, which takes a message off memory that holds
all of it. The server does not use it: its handler receives the header and then as many bytes
as the header announces. On the same bytes both see the same messages, and each ends where
the other does.

## Main definitions

* `Input.completed` — every `recv` gets all it asks for
* `receiveMessage` — what the handler makes of the front of a stream then

## Main results

* `messages_receive` — the message that the handler hands to a service is this one
* `decoders_agree` — both decoders read what was written
-/

namespace DreamboatRpc.Server

open CS Rpc

variable {Service : Type}

/-! ## Complete reads -/

/-- The header at the front of a stream. -/
def headerBytes (stream : List UInt8) : List UInt8 := stream.take RpcHeader.size

/-- The bytes behind it, as many as it announces. -/
def bodyBytes (stream : List UInt8) : List UInt8 :=
  (stream.drop RpcHeader.size).take (sizeOfInt (RpcHeader.ofBytes (headerBytes stream)).bodyLength)

/-- Both `recv` get all they ask for, if the stream has it. -/
def Input.completed (input : Input Service) (stream : List UInt8) : Input Service :=
  { input with header := .bytes (headerBytes stream), body := .bytes (bodyBytes stream) }

/-- What `HandleReadEvent` receives in two complete reads, and how many bytes these take. -/
def receiveMessage (stream : List UInt8) : RpcMessage × ℤ :=
  (receivedMessage (headerBytes stream) (bodyBytes stream),
    (headerBytes stream).length + (bodyBytes stream).length)

variable {input : Input Service} {stream rest : List UInt8} {m : RpcMessage}

/-- The message that the handler hands to a service is the one that was received, and the bytes
it takes are those. -/
theorem messages_receive {server : RpcServer Service} {result : RpcResult}
    (h : server.readOutcome (input.completed stream) = .handled m result) :
    m = (receiveMessage stream).1 ∧
      ((input.completed stream).consumed : ℤ) = (receiveMessage stream).2 := by
  obtain ⟨hpasses, hm, -⟩ := handleReadEvent_handled_iff.mp h
  refine ⟨hm, ?_⟩
  rw [Input.consumed, if_pos hpasses.1]
  exact Nat.cast_add ..

/-! ## Messages in a stream -/

theorem headerBytes_append (m : RpcMessage) (rest : List UInt8) :
    headerBytes (serializeMessage m ++ rest) = m.header.toBytes := by
  rw [headerBytes, serializeMessage, List.append_assoc,
    List.take_left' (RpcHeader.length_toBytes m.header)]

theorem bodyBytes_append (h : Sendable m) (rest : List UInt8) :
    bodyBytes (serializeMessage m ++ rest) = sentBody m := by
  have hself : RpcHeader.ofBytes m.header.toBytes = m.header := by
    simpa using RpcHeader.ofBytes_toBytes m.header []
  have hsize : sizeOfInt m.header.bodyLength = (sentBody m).length := by
    change m.header.bodySize = _
    rw [sentBody, List.length_take, m.body.parameters.length_bytes, ← h.bodySize_eq]
    exact (min_eq_left h.bodySize_le).symm
  rw [bodyBytes, headerBytes_append, hself, hsize, serializeMessage, List.append_assoc,
    List.drop_left' (RpcHeader.length_toBytes m.header), ← sentBody, List.take_left' rfl]

/-- A `recv` may get the first bytes of the stream, as many as it asks for. -/
theorem allowed_take (size : ℕ) (unread : List UInt8) :
    (Recv.bytes (unread.take size)).Allowed size unread := by
  refine ⟨List.take_prefix .., List.length_take_le .., fun hnil => ?_⟩
  exact List.take_eq_nil_iff.mp hnil

/-- Complete reads are possible while a message is at the front of the stream. -/
theorem possible_completed (m : RpcMessage) (rest : List UInt8) :
    (input.completed (serializeMessage m ++ rest)).Possible (serializeMessage m ++ rest) := by
  have hheader := headerBytes_append m rest
  have hlength := RpcHeader.length_toBytes m.header
  refine ⟨allowed_take .., ?_⟩
  simp only [Input.completed, Recv.received_bytes]
  rw [show (headerBytes (serializeMessage m ++ rest)).length = RpcHeader.size by
    rw [hheader, hlength]]
  exact allowed_take ..

/-- The message is received as it was written, with zeros where nothing was sent. -/
theorem receiveMessage_append (h : Sendable m) (rest : List UInt8) :
    receiveMessage (serializeMessage m ++ rest) =
      (asReceived m, ((serializeMessage m).length : ℤ)) := by
  rw [receiveMessage, headerBytes_append, bodyBytes_append h, receivedMessage_asReceived,
    length_serializeMessage, RpcHeader.length_toBytes]
  exact congrArg (Prod.mk _) (Nat.cast_add ..).symm

theorem sameMessage_asReceived (h : Sendable m) : SameMessage m (asReceived m) := by
  have hle := h.bodySize_le
  refine ⟨rfl, ?_⟩
  simp only [asReceived, CharArray.ofBytes, sentBody, ← h.bodySize_eq, List.take_take]
  rw [min_eq_left hle, List.take_left']
  rw [List.length_take, m.body.parameters.length_bytes]
  exact min_eq_left hle

/-- The handler takes a message off the front of the stream. -/
theorem decodes_receiveMessage (h : Sendable m) :
    Decodes serializeMessage receiveMessage SameMessage m where
  nonempty := serializeMessage_ne_nil m
  taken rest := by rw [receiveMessage_append h]
  related rest := by
    rw [receiveMessage_append h]
    exact sameMessage_asReceived h

/-- Messages that `Serialize` wrote one behind the other, into buffers that held anything, are
decoded by `Deserialize`, called again and again from where it ended, and by complete reads of
the handler: both see each message, end where it ends, and have nothing left. -/
theorem decoders_agree (ms : List RpcMessage) (behind : RpcMessage → ℕ → UInt8)
    (buffer : RpcMessage → List UInt8) (out : List UInt8 → RpcMessage)
    (h : ∀ m ∈ ms, 0 ≤ m.header.bodyLength.toInt ∧
      m.header.bodyLength.toInt ≤ maxRpcParamsSize)
    (fuel : ℕ) (hfuel : ms.length ≤ fuel) :
    let stream := ms.flatMap fun m => written m (behind m) (buffer m)
    let deserialized := decodeAll (fun memory => deserializeMessage memory (out memory))
      fuel 0 stream
    let received := decodeAll receiveMessage fuel 0 stream
    (List.Forall₂ SameMessage ms (deserialized.1.map Prod.fst) ∧ deserialized.2 = []) ∧
      (List.Forall₂ SameMessage ms (received.1.map Prod.fst) ∧ received.2 = []) ∧
        deserialized.1.map Prod.snd = received.1.map Prod.snd ∧
          (0 :: deserialized.1.map Prod.snd).getLast? = some (stream.length : ℤ) := by
  have hstream : (ms.flatMap fun m => written m (behind m) (buffer m)) =
      ms.flatMap serializeMessage :=
    List.flatMap_congr fun m hm => written_eq (h m hm) ..
  have hlast : (0 :: positionsBehind serializeMessage 0 ms).getLast? = _ :=
    getLast?_positionsBehind 0 ms
  obtain ⟨hleft, hmessages, hpositions⟩ :=
    decodeAll_flatMap (fun m hm => decodes_deserializeMessage (h m hm) out) hfuel 0
  obtain ⟨hleft', hmessages', hpositions'⟩ :=
    decodeAll_flatMap (fun m hm => decodes_receiveMessage (h m hm)) hfuel 0
  rw [zero_add] at hlast
  simp only [hstream]
  rw [hpositions, hpositions']
  exact ⟨⟨hmessages, hleft⟩, ⟨hmessages', hleft'⟩, rfl, hlast⟩

/-- A request with three bytes of parameters, and one with none. -/
def twoRequests : List RpcMessage :=
  [⟨requestHeader [97] 3 true, ⟨.ofBytes maxRpcParamsSize [1, 2, 3]⟩⟩,
    ⟨requestHeader [98] 0 false, ⟨.bzero _⟩⟩]

theorem decoders_agree_twoRequests :
    let stream := twoRequests.flatMap fun m => written m (fun _ => 7) []
    stream.length = 99 ∧
      List.Forall₂ SameMessage twoRequests
        ((decodeAll receiveMessage 3 0 stream).1.map Prod.fst) ∧
      (decodeAll receiveMessage 3 0 stream).1.map Prod.snd = [51, 99] := by
  have h := decoders_agree twoRequests (fun _ _ => 7) (fun _ => [])
    (fun _ => RpcMessage.new (.bzero 3)) (by decide) 3 (by decide)
  exact ⟨by decide +kernel, h.2.1.1, by decide +kernel⟩

end DreamboatRpc.Server
