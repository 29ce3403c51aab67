import DreamboatRpc.Client.System
import DreamboatRpc.Rpc.Messages

/-!
# Encoders and their buffers

A call copies the name of its service and the encoding of its request into arrays of a message,
the event loop copies the message into a buffer, the service copies the encoding of its result
into an array, and whoever parses one copies it once more. No copy is told how large its
destination is. `ToRpcResult` compares the size afterwards.

## Main definitions

* `KeepsInside` — a copy stays inside its destination, and one too large writes nothing
* `EncodersInside` — all the copies do

## Main results

* `encoders_inside_iff` — they do if and only if each string is shorter than its destination
* `result_outside` — a name of 480 characters leaves `return_buffer`
-/

namespace DreamboatRpc.Client

open CS Rpc

/-- `MAX_BUFFER` -/
def maxBuffer : ℕ := 1024

/-- The size of `data` in `ParseProtoStruct` -/
def parseDataSize : ℕ := 4096

/-! ## Copies -/

/-- What `size` bytes were copied to: nothing is written behind the destination, and nothing at
all if they are too many for it. -/
def KeepsInside (size : ℕ) (before after : List UInt8) : Prop :=
  after.length = before.length ∧ (before.length < size → after = before)

variable {memory before : List UInt8}

theorem keepsInside_strcpy_iff : KeepsInside (strlen memory + 1) before (strcpy before memory) ↔
    strlen memory < before.length := by
  refine ⟨fun h => length_strcpy_eq_iff.mp h.1, fun h => ⟨length_strcpy h, fun hlt => ?_⟩⟩
  omega

theorem keepsInside_packProtoStruct_iff {T : Type} (P : ProtoCodec T) (m : T) :
    KeepsInside (strlen (P.serializeAsString m) + 1) before (packProtoStruct P before m).1 ↔
      strlen (P.serializeAsString m) < before.length := by
  have hpacked : (packProtoStruct P before m).1 =
      strcpy before (cStr (P.serializeAsString m)) := by
    rw [packProtoStruct, packParam, serialize_string]
  have hlength : strlen (cStr (P.serializeAsString m)) = strlen (P.serializeAsString m) := by
    rw [strlen, cString_cStr, strlen]
  rw [hpacked, ← hlength]
  exact keepsInside_strcpy_iff

/-- The header and then the body are copied. -/
theorem length_serializeInto {m : RpcMessage} (behind : ℕ → UInt8) (out : List UInt8)
    (h : RpcHeader.size ≤ out.length) :
    (serializeInto m behind out).1.length =
      max (RpcHeader.size + m.header.bodySize) out.length := by
  have hheader : (memcpy out m.header.toBytes RpcHeader.size).length = out.length := by
    rw [length_memcpy (by rw [RpcHeader.length_toBytes])]
    exact max_eq_right h
  have hread := length_readFrom m.body.parameters.bytes behind m.header.bodySize
  rw [serializeInto, writeAt, List.length_append, List.length_take, length_memcpy hread.ge,
    List.length_drop, hheader]
  omega

/-! ## The encoders -/

section Encoders

variable {Req Rsp : Type} (P : ProtoCodec Req) (Q : ProtoCodec Rsp)

/-- The message as `AsyncInvoke` gives it to the client. -/
def sentMessage (padding : CharArray 3) (id : ℤ) (service : Service) (request : Req) :
    RpcMessage :=
  let message := callMessage padding id service (P.serializeAsString request)
  { message with header := { message.header with needReturn := true } }

/-- The copies that `CallRPCAsync` makes into its message. -/
def CallInside (padding : CharArray 3) (service : Service) (request : Req) : Prop :=
  let message := RpcMessage.new padding
  KeepsInside (strlen service.serviceName + 1) message.header.servicename.bytes
      (strcpy message.header.servicename.bytes service.serviceName) ∧
    KeepsInside (strlen (P.serializeAsString request) + 1) message.body.parameters.bytes
      (packProtoStruct P message.body.parameters.bytes request).1

/-- The copy that `ToRpcResult` makes into its result. -/
def ResultInside (res : RpcResult) (result : Rsp) : Prop :=
  KeepsInside (strlen (Q.serializeAsString result) + 1) res.returnBuffer.bytes
    (packProtoStruct Q res.returnBuffer.bytes result).1

/-- The copy that `ClientTransport::Send` makes into `buf`. -/
def SendInside (message : RpcMessage) (behind : ℕ → UInt8) (buf : CharArray maxBuffer) : Prop :=
  KeepsInside (RpcHeader.size + message.header.bodySize) buf.bytes
    (serializeInto message behind buf.bytes).1

/-- The copy that `ParseProtoStruct` makes into `data`. -/
def ParseInside (input : List UInt8) (data : CharArray parseDataSize) : Prop :=
  KeepsInside (strlen input + 1) data.bytes (parseParam input stringType data.bytes)

/-- All of them, whatever is in the destinations and behind the arrays before. -/
def EncodersInside (service : Service) (request : Req) (result : Rsp) (input : List UInt8) :
    Prop :=
  (∀ padding, CallInside P padding service request) ∧ (∀ res, ResultInside Q res result) ∧
    (∀ padding id behind buf, SendInside (sentMessage P padding id service request) behind buf) ∧
      ∀ data, ParseInside input data

variable {P Q} {padding : CharArray 3} {service : Service} {request : Req} {result : Rsp}
  {input : List UInt8}

theorem callInside_iff : CallInside P padding service request ↔
    strlen service.serviceName < maxRpcNameSize ∧
      strlen (P.serializeAsString request) < maxRpcParamsSize := by
  rw [CallInside, keepsInside_strcpy_iff, keepsInside_packProtoStruct_iff,
    CharArray.length_bytes, CharArray.length_bytes]

theorem resultInside_iff {res : RpcResult} : ResultInside Q res result ↔
    strlen (Q.serializeAsString result) < maxRpcReturnValue := by
  rw [ResultInside, keepsInside_packProtoStruct_iff, res.returnBuffer.length_bytes]

theorem parseInside_iff {data : CharArray parseDataSize} :
    ParseInside input data ↔ strlen input < parseDataSize := by
  rw [ParseInside, parseParam, deserialize_string, keepsInside_strcpy_iff, data.length_bytes]

/-- A message fits the buffer if its body is not longer than 976 bytes. -/
theorem sendInside_of_bodySize_le {message : RpcMessage} {behind : ℕ → UInt8}
    {buf : CharArray maxBuffer} (h : RpcHeader.size + message.header.bodySize ≤ maxBuffer) :
    SendInside message behind buf := by
  have hbuf := buf.length_bytes
  have hheader : RpcHeader.size ≤ buf.bytes.length := by
    rw [hbuf]
    exact (Nat.le_add_right ..).trans h
  refine ⟨?_, fun hlt => ?_⟩
  · rw [length_serializeInto behind buf.bytes hheader]
    exact max_eq_right (h.trans_eq hbuf.symm)
  · omega

/-- A request that fits the message is as long as its string. -/
theorem bodySize_sentMessage (h : strlen (P.serializeAsString request) < maxRpcParamsSize)
    (padding : CharArray 3) (id : ℤ) (service : Service) :
    (sentMessage P padding id service request).header.bodySize =
      strlen (P.serializeAsString request) + 1 := by
  have hsize := packProtoStruct_size P (CharArray.bzero maxRpcParamsSize).bytes request
  simp only [maxRpcParamsSize] at h
  have hint : (Int32.ofInt (strlen (P.serializeAsString request) + 1)).toInt =
      strlen (P.serializeAsString request) + 1 :=
    Int32.toInt_ofInt_of_le (by omega) (by omega)
  rw [packProtoStruct] at hsize
  simp only [sentMessage, callMessage, RpcMessage.new, hsize, RpcHeader.bodySize, hint]
  omega

/-- Every encoder stays inside its buffer if and only if the name, the encodings of request and
result and what is parsed are shorter, up to the first zero, than the arrays they are copied
to. -/
theorem encoders_inside_iff (P : ProtoCodec Req) (Q : ProtoCodec Rsp) (service : Service)
    (request : Req) (result : Rsp) (input : List UInt8) :
    EncodersInside P Q service request result input ↔
      strlen service.serviceName < maxRpcNameSize ∧
        strlen (P.serializeAsString request) < maxRpcParamsSize ∧
          strlen (Q.serializeAsString result) < maxRpcReturnValue ∧
            strlen input < parseDataSize := by
  constructor
  · rintro ⟨hcall, hresult, -, hparse⟩
    obtain ⟨hname, hrequest⟩ := callInside_iff.mp (hcall (.bzero 3))
    exact ⟨hname, hrequest, resultInside_iff.mp (hresult ⟨0, .bzero _⟩),
      parseInside_iff.mp (hparse (.bzero _))⟩
  · rintro ⟨hname, hrequest, hresult, hinput⟩
    refine ⟨fun padding => callInside_iff.mpr ⟨hname, hrequest⟩,
      fun res => resultInside_iff.mpr hresult, fun padding id behind buf => ?_,
      fun data => parseInside_iff.mpr hinput⟩
    apply sendInside_of_bodySize_le
    rw [bodySize_sentMessage hrequest]
    simp only [maxRpcParamsSize] at hrequest
    simp only [RpcHeader.size, maxRpcNameSize, maxBuffer]
    omega

end Encoders

/-- A service returns a name of 480 characters. -/
def longName : GetValueRsp := ⟨String.join (List.replicate 48 "aaaaaaaaaa")⟩

/-- It is written over the end of `return_buffer`, whatever called the service. -/
theorem result_outside : ¬ ∀ (service : Service) (request result : GetValueRsp) input,
    EncodersInside getValueRspCodec getValueRspCodec service request result input := by
  intro h
  have hall := h ⟨[97], true⟩ ⟨""⟩ longName []
  have hresult := resultInside_iff.mp (hall.2.1 ⟨0, .bzero _⟩)
  exact absurd hresult (by decide +kernel)

end DreamboatRpc.Client
