import DreamboatRpc.CS.Framing
import DreamboatRpc.Rpc.Codec

/-!
# Messages in buffers

`Serialize` writes the header of a message into a buffer and behind it as many bytes of the
body as the header says; `Deserialize` reads them back. Neither is told how large its buffer
is. Both return how far they came, so that the next message can follow there.

## Main definitions

* `serializeInto`, `deserializeMessage` — `Serializer::Serialize` and
  `Serializer::Deserialize` of a message
* `Sendable` — `body_length` is within the body
* `SameMessage` — the same header, and the same bytes of the body that are sent

## Main results

* `serializeInto_eq` — what the buffer holds
* `deserialize_serialize` — a message is read back
* `decodes_deserializeMessage` — so are messages one behind the other
-/

namespace DreamboatRpc.Rpc

open CS

/-! ## Serializer -/

/-- `body_length` as the `size_t` that `memcpy` is given. -/
def RpcHeader.bodySize (h : RpcHeader) : ℕ := (h.bodyLength.toInt % 2 ^ 64).toNat

/-- `Serializer::Serialize(In, Out)` of a message: what `out` holds afterwards, and the bytes the
message takes. What is behind the body is `behind`. -/
def serializeInto (m : RpcMessage) (behind : ℕ → UInt8) (out : List UInt8) : List UInt8 × ℤ :=
  let body := readFrom m.body.parameters.bytes behind m.header.bodySize
  (writeAt (memcpy out m.header.toBytes RpcHeader.size) RpcHeader.size
      fun rest => memcpy rest body m.header.bodySize,
    RpcHeader.size + m.header.bodyLength.toInt)

/-- `Serializer::Deserialize(In, Out)` of a message: what `out` holds afterwards, and the bytes
the message took. -/
def deserializeMessage (memory : List UInt8) (out : RpcMessage) : RpcMessage × ℤ :=
  let header := RpcHeader.ofBytes memory
  let body := memcpy out.body.parameters.bytes (memory.drop RpcHeader.size) header.bodySize
  (⟨header, ⟨.ofBytes maxRpcParamsSize body⟩⟩, RpcHeader.size + header.bodyLength.toInt)

/-- The bytes that `Serialize` wrote, as many as it says. -/
def written (m : RpcMessage) (behind : ℕ → UInt8) (out : List UInt8) : List UInt8 :=
  (serializeInto m behind out).1.take (serializeInto m behind out).2.toNat

/-! ## One message -/

/-- `body_length` is within the body. -/
def Sendable (m : RpcMessage) : Prop :=
  0 ≤ m.header.bodyLength.toInt ∧ m.header.bodyLength.toInt ≤ maxRpcParamsSize

instance (m : RpcMessage) : Decidable (Sendable m) := inferInstanceAs (Decidable (_ ∧ _))

/-- The same header, and the same first `body_length` bytes of the body. -/
def SameMessage (m m' : RpcMessage) : Prop :=
  m'.header = m.header ∧ m'.body.parameters.bytes.take m.header.bodyLength.toInt.toNat =
    m.body.parameters.bytes.take m.header.bodyLength.toInt.toNat

variable {m : RpcMessage} {rest : List UInt8}

theorem Sendable.bodySize_eq (h : Sendable m) :
    m.header.bodySize = m.header.bodyLength.toInt.toNat := by
  obtain ⟨hnonneg, hle⟩ := h
  simp only [maxRpcParamsSize] at hle
  rw [RpcHeader.bodySize, Int.emod_eq_of_lt hnonneg (by omega)]

theorem Sendable.bodySize_le (h : Sendable m) : m.header.bodySize ≤ maxRpcParamsSize := by
  have hle := h.2
  rw [h.bodySize_eq]
  omega

/-- The bytes a message takes are as many as `Serialize` says. -/
theorem Sendable.length_serialize (h : Sendable m) :
    ((serializeMessage m).length : ℤ) = RpcHeader.size + m.header.bodyLength.toInt := by
  obtain ⟨hnonneg, hle⟩ := h
  rw [serializeMessage, List.length_append, RpcHeader.length_toBytes, List.length_take,
    m.body.parameters.length_bytes]
  omega

/-- The message is written to the front of the buffer, and the rest stays as it was. -/
theorem serializeInto_eq (h : Sendable m) (behind : ℕ → UInt8) (out : List UInt8) :
    serializeInto m behind out =
      (serializeMessage m ++ out.drop (serializeMessage m).length,
        ((serializeMessage m).length : ℤ)) := by
  have hheader := m.header.length_toBytes
  have hbody : readFrom m.body.parameters.bytes behind m.header.bodySize =
      m.body.parameters.bytes.take m.header.bodyLength.toInt.toNat := by
    rw [readFrom_of_le behind (by rw [m.body.parameters.length_bytes]; exact h.bodySize_le),
      h.bodySize_eq]
  have hlength : (readFrom m.body.parameters.bytes behind m.header.bodySize).length =
      m.header.bodySize := length_readFrom ..
  rw [serializeInto, h.length_serialize]
  refine Prod.ext ?_ rfl
  -- the header first, and the body behind it
  have hcopied : memcpy out m.header.toBytes RpcHeader.size =
      m.header.toBytes ++ out.drop RpcHeader.size := by
    have hcopy := memcpy_append out m.header.toBytes []
    rwa [List.append_nil, hheader] at hcopy
  have hput := writeAt_append m.header.toBytes (out.drop RpcHeader.size)
    fun rest => memcpy rest (readFrom m.body.parameters.bytes behind m.header.bodySize)
      m.header.bodySize
  rw [hheader, memcpy, List.take_of_length_le hlength.le, List.drop_drop] at hput
  have hsize : (serializeMessage m).length = RpcHeader.size + m.header.bodySize := by
    rw [serializeMessage, List.length_append, hheader, ← hbody, hlength]
  rw [hsize, serializeMessage, ← hbody, List.append_assoc]
  simp only [hcopied]
  exact hput

/-- A message at the front of memory is read as it was written, over what was in the body. -/
theorem deserialize_serialize (h : Sendable m) (out : RpcMessage) (rest : List UInt8) :
    deserializeMessage (serializeMessage m ++ rest) out =
      (⟨m.header, ⟨.ofBytes maxRpcParamsSize
        (m.body.parameters.bytes.take m.header.bodySize ++
          out.body.parameters.bytes.drop m.header.bodySize)⟩⟩,
        ((serializeMessage m).length : ℤ)) := by
  have hlength : (m.body.parameters.bytes.take m.header.bodySize).length = m.header.bodySize := by
    rw [List.length_take, m.body.parameters.length_bytes]
    exact min_eq_left h.bodySize_le
  have hcopy := memcpy_append out.body.parameters.bytes
    (m.body.parameters.bytes.take m.header.bodySize) rest
  rw [hlength] at hcopy
  rw [deserializeMessage, h.length_serialize, serializeMessage, List.append_assoc,
    RpcHeader.ofBytes_toBytes, ← h.bodySize_eq]
  rw [List.drop_left' m.header.length_toBytes, hcopy]

theorem sameMessage_deserialize (h : Sendable m) (out : RpcMessage) (rest : List UInt8) :
    SameMessage m (deserializeMessage (serializeMessage m ++ rest) out).1 := by
  have hle := h.bodySize_le
  rw [deserialize_serialize h out rest]
  refine ⟨rfl, ?_⟩
  simp only [CharArray.ofBytes, ← h.bodySize_eq, List.take_take]
  rw [min_eq_left hle, List.append_assoc, List.take_left']
  rw [List.length_take, m.body.parameters.length_bytes]
  exact min_eq_left hle

/-! ## One message after another -/

/-- What was written is the message as it goes over the wire. -/
theorem written_eq (h : Sendable m) (behind : ℕ → UInt8) (out : List UInt8) :
    written m behind out = serializeMessage m := by
  rw [written, serializeInto_eq h, Int.toNat_natCast, List.take_left' rfl]

/-- `Deserialize` takes a message off the front of memory, whatever `Out` held. -/
theorem decodes_deserializeMessage (h : Sendable m) (out : List UInt8 → RpcMessage) :
    Decodes serializeMessage (fun memory => deserializeMessage memory (out memory)) SameMessage
      m where
  nonempty := serializeMessage_ne_nil m
  taken rest := by rw [deserialize_serialize h]
  related rest := sameMessage_deserialize h _ rest

end DreamboatRpc.Rpc
