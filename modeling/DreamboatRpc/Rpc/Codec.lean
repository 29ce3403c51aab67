import DreamboatRpc.Rpc.Types

/-!
# Parameters and payloads

A parameter is copied as its type tag says. A protobuf payload travels as one parameter of
type string: its encoding goes through `c_str`, two `strcpy` and a conversion back from a
`char` array, so it ends at its first zero byte.

## Main definitions

* `serialize`, `deserialize` — `Serializer::Serialize` and `Serializer::Deserialize`
* `packProtoStruct`, `parseProtoStruct`, `toRpcResult` — the payload of a message
* `ProtoCodec` — a protobuf message type
* `RequestIntact`, `ResultIntact` — whatever has this encoding is received as it was sent

## Main results

* `parseProtoStruct_packProtoStruct` — what `ParseFromString` is given
* `payload_intact_iff` — an encoding passes if and only if it has no zero byte and, for a
  result, leaves a byte of the buffer unused
* `name_lost` — a name with a zero byte in it is lost
-/

namespace DreamboatRpc.Rpc

open CS

/-! ## Serializer -/

/-- `INT_TYPE` -/
def intType : String := "int"

/-- `FLOAT_TYPE` -/
def floatType : String := "float"

/-- `STRING_TYPE` -/
def stringType : String := "string"

/-- Copy a value of the type with this tag from `input` to `out`: what `out` holds
afterwards, and the bytes the value takes, `-1` for an unknown type. -/
def copyTyped (input out : List UInt8) (type : String) : List UInt8 × ℤ :=
  if type = intType then (memcpy out input 4, 4)
  else if type = floatType then (memcpy out input 4, 4)
  else if type = stringType then (strcpy out input, strlen input + 1)
  else (out, -1)

/-- `Serializer::Serialize(In, Out, InType)` -/
def serialize (input out : List UInt8) (inType : String) : List UInt8 × ℤ :=
  copyTyped input out inType

/-- `Serializer::Deserialize(In, Out, OutType)` -/
def deserialize (input out : List UInt8) (outType : String) : List UInt8 × ℤ :=
  copyTyped input out outType

@[simp] theorem serialize_string (input out : List UInt8) :
    serialize input out stringType = (strcpy out input, (strlen input + 1 : ℤ)) := by
  simp [serialize, copyTyped, stringType, intType, floatType]

@[simp] theorem deserialize_string (input out : List UInt8) :
    deserialize input out stringType = (strcpy out input, (strlen input + 1 : ℤ)) := by
  simp [deserialize, copyTyped, stringType, intType, floatType]

/-- `Serializer::Serialize(In, Out)` of a message: its header and the first
`body_length` bytes of its body. -/
def serializeMessage (m : RpcMessage) : List UInt8 :=
  m.header.toBytes ++ m.body.parameters.bytes.take m.header.bodyLength.toInt.toNat

/-- A message takes at least the bytes of its header. -/
theorem serializeMessage_ne_nil (m : RpcMessage) : serializeMessage m ≠ [] := by
  intro h
  have hlength := congrArg List.length h
  rw [serializeMessage, List.length_append, RpcHeader.length_toBytes] at hlength
  simp [RpcHeader.size] at hlength

/-! ## Payloads -/

/-- `PackParam(Out, In)` for a string -/
def packParam (out s : List UInt8) : List UInt8 × ℤ := serialize (cStr s) out stringType

/-- `ParseParam(In, Type, Out)` for one parameter -/
def parseParam (input : List UInt8) (type : String) (out : List UInt8) : List UInt8 :=
  (deserialize input out type).1

/-- A protobuf message type: `SerializeAsString` and `ParseFromString`, which is `none`
where parsing fails. Nothing else is assumed of the library. -/
structure ProtoCodec (T : Type) where
  serializeAsString : T → List UInt8
  parseFromString : List UInt8 → Option T
  parse_serialize : ∀ m, parseFromString (serializeAsString m) = some m

variable {T : Type} (P : ProtoCodec T)

/-- `PackProtoStruct(Out, In)` -/
def packProtoStruct (out : List UInt8) (m : T) : List UInt8 × ℤ :=
  packParam out (P.serializeAsString m)

/-- `ParseProtoStruct(In, Out)`; `data` is the local array before it is written. -/
def parseProtoStruct (input data : List UInt8) : Option T :=
  P.parseFromString (cString (parseParam input stringType data))

/-- `ToRpcResult(output)`; `res` is the local variable before it is written. `none` if the
assertion on the size fails. -/
def toRpcResult (res : RpcResult) (output : T) : Option RpcResult :=
  let packed := packProtoStruct P res.returnBuffer.bytes output
  if packed.2 < maxRpcReturnValue then
    some { res with returnBuffer := .ofBytes maxRpcReturnValue packed.1 }
  else none

/-- `ParseFromString` gets the encoding up to its first zero byte. -/
theorem parseProtoStruct_packProtoStruct (out data : List UInt8) (m : T) :
    parseProtoStruct P (packProtoStruct P out m).1 data =
      P.parseFromString (cString (P.serializeAsString m)) := by
  simp only [parseProtoStruct, parseParam, packProtoStruct, packParam, deserialize_string,
    serialize_string]
  rw [cString_strcpy, cString_strcpy, cString_cStr]

/-- A payload that fits stays inside the buffer. -/
theorem length_packProtoStruct (out : List UInt8) (m : T)
    (hfit : (P.serializeAsString m).length < out.length) :
    (packProtoStruct P out m).1.length = out.length := by
  simp only [packProtoStruct, packParam, serialize_string]
  apply length_strcpy
  rw [strlen, cString_cStr]
  exact lt_of_le_of_lt (strlen_le_length _) hfit

theorem packProtoStruct_size (out : List UInt8) (m : T) :
    (packProtoStruct P out m).2 = (strlen (P.serializeAsString m) + 1 : ℤ) := by
  simp [packProtoStruct, packParam, strlen, cString_cStr]

/-- A result that passes the assertion is parsed like a request. -/
theorem toRpcResult_eq (res : RpcResult) (m : T) :
    toRpcResult P res m =
      if (strlen (P.serializeAsString m) + 1 : ℤ) < maxRpcReturnValue then
        let buffer := (packProtoStruct P res.returnBuffer.bytes m).1
        some { res with returnBuffer := .ofBytes maxRpcReturnValue buffer }
      else none := by
  rw [toRpcResult, packProtoStruct_size]

/-! ## What passes -/

/-- Every request with this encoding is parsed as it was packed, whatever the buffers held
before. -/
def RequestIntact (encoding : List UInt8) : Prop :=
  ∀ (T : Type) (P : ProtoCodec T) (m : T), P.serializeAsString m = encoding →
    ∀ (body : RpcBody) (data : List UInt8),
      parseProtoStruct P (packProtoStruct P body.parameters.bytes m).1 data = some m

/-- Every result with this encoding is returned, and parsed as it was packed. -/
def ResultIntact (encoding : List UInt8) : Prop :=
  ∀ (T : Type) (P : ProtoCodec T) (m : T), P.serializeAsString m = encoding →
    ∀ (res : RpcResult) (data : List UInt8), ∃ r, toRpcResult P res m = some r ∧
      parseProtoStruct P r.returnBuffer.bytes data = some m

/-- The message type whose messages are their own encodings. -/
def ProtoCodec.raw : ProtoCodec (List UInt8) where
  serializeAsString := id
  parseFromString := some
  parse_serialize _ := rfl

variable {encoding : List UInt8}

theorem requestIntact_iff : RequestIntact encoding ↔ 0 ∉ encoding := by
  constructor
  · -- messages that are their own encodings show where the string was cut
    intro h
    have hraw := h _ .raw encoding rfl ⟨.bzero _⟩ []
    rw [parseProtoStruct_packProtoStruct] at hraw
    exact cString_eq_self_iff.mp (Option.some.inj hraw)
  · intro h T P m hm body data
    rw [parseProtoStruct_packProtoStruct, hm, cString_eq_self_iff.mpr h, ← hm]
    exact P.parse_serialize m

/-- The buffer of a result is parsed like the parameters of a request. -/
theorem parse_toRpcResult {res r : RpcResult} {m : T} {data : List UInt8}
    (hfit : (P.serializeAsString m).length < maxRpcReturnValue)
    (h : toRpcResult P res m = some r) :
    parseProtoStruct P r.returnBuffer.bytes data =
      P.parseFromString (cString (P.serializeAsString m)) := by
  rw [toRpcResult_eq] at h
  split at h
  · cases h
    -- nothing is written behind the buffer, so it reads back as it was written
    have hsize := length_packProtoStruct P res.returnBuffer.bytes m
      (by rw [res.returnBuffer.length_bytes]; exact hfit)
    rw [res.returnBuffer.length_bytes] at hsize
    have hbuffer := CharArray.ofBytes_bytes ⟨_, hsize⟩
    rw [hbuffer, parseProtoStruct_packProtoStruct]
  · cases h

theorem resultIntact_iff (hfit : encoding.length + 1 ≤ maxRpcReturnValue) :
    ResultIntact encoding ↔ 0 ∉ encoding ∧ encoding.length + 1 < maxRpcReturnValue := by
  constructor
  · intro h
    obtain ⟨r, hr, hparse⟩ := h _ .raw encoding rfl ⟨0, .bzero _⟩ []
    rw [parse_toRpcResult .raw hfit hr] at hparse
    have hself : cString encoding = encoding := Option.some.inj hparse
    refine ⟨cString_eq_self_iff.mp hself, ?_⟩
    -- a string that is not cut reaches the assertion with its whole length
    rw [toRpcResult_eq] at hr
    split at hr
    · rename_i hsize
      simp only [ProtoCodec.raw, id_eq, strlen, hself] at hsize
      exact_mod_cast hsize
    · cases hr
  · rintro ⟨hzero, hsize⟩ T P m rfl res data
    have hself := cString_eq_self_iff.mpr hzero
    have hpass : (strlen (P.serializeAsString m) + 1 : ℤ) < maxRpcReturnValue := by
      rw [strlen, hself]
      exact_mod_cast hsize
    have hr := toRpcResult_eq P res m
    rw [if_pos hpass] at hr
    refine ⟨_, hr, ?_⟩
    rw [parse_toRpcResult P hfit hr, hself]
    exact P.parse_serialize m

/-- An encoding that fits the buffer with its terminator passes unchanged in a request if
and only if it has no zero byte; in a result the terminator must not be the last byte of
the buffer either. -/
theorem payload_intact_iff (encoding : List UInt8)
    (hfit : encoding.length + 1 ≤ maxRpcParamsSize) :
    (RequestIntact encoding ↔ 0 ∉ encoding) ∧
      (ResultIntact encoding ↔ 0 ∉ encoding ∧ encoding.length + 1 < maxRpcReturnValue) :=
  ⟨requestIntact_iff, resultIntact_iff hfit⟩

/-! ## A message of the key-value service -/

/-- A base-128 varint -/
def varint (n : ℕ) : List UInt8 :=
  if n < 128 then [UInt8.ofNat n] else UInt8.ofNat (n % 128 + 128) :: varint (n / 128)

/-- Read a varint; the bytes behind it are left. -/
def readVarint : List UInt8 → Option (ℕ × List UInt8)
  | [] => none
  | b :: bs =>
    if b.toNat < 128 then some (b.toNat, bs)
    else (readVarint bs).map fun r => (b.toNat - 128 + 128 * r.1, r.2)

theorem readVarint_varint (n : ℕ) (rest : List UInt8) :
    readVarint (varint n ++ rest) = some (n, rest) := by
  induction n using varint.induct with
  | case1 n h =>
    have hn : n % 256 = n := by omega
    rw [varint, if_pos h]
    simp [readVarint, hn, h]
  | case2 n h ih =>
    have hbyte : (n % 128 + 128) % 256 = n % 128 + 128 := by omega
    -- the lowest seven bits come first, with the mark that more follow
    rw [varint, if_neg h, List.cons_append, readVarint, ih]
    simp only [UInt8.toNat_ofNat', Nat.reducePow, hbyte, Option.map_some]
    rw [if_neg (by omega)]
    congr 2
    omega

/-- `GetValueRsp` -/
structure GetValueRsp where
  name : String
  deriving DecidableEq

/-- `SerializeAsString` of `GetValueRsp`: field 1, if it is not empty. -/
def GetValueRsp.serializeAsString (m : GetValueRsp) : List UInt8 :=
  match m.name.toUTF8.data.toList with
  | [] => []
  | b :: bs => 10 :: (varint (bs.length + 1) ++ (b :: bs))

/-- `ParseFromString` of `GetValueRsp`, on strings with at most one field. -/
def GetValueRsp.parseFromString : List UInt8 → Option GetValueRsp
  | [] => some ⟨""⟩
  | tag :: rest =>
    match readVarint rest with
    | some (n, bs) =>
      if tag = 10 ∧ bs.length = n then (String.fromUTF8? ⟨bs.toArray⟩).map GetValueRsp.mk
      else none
    | none => none

/-- The message type `GetValueRsp`. -/
def getValueRspCodec : ProtoCodec GetValueRsp where
  serializeAsString := GetValueRsp.serializeAsString
  parseFromString := GetValueRsp.parseFromString
  parse_serialize m := by
    have hutf8 : String.fromUTF8? m.name.toUTF8 = some m.name := by
      simp only [String.fromUTF8?, String.toUTF8_eq_toByteArray]
      rw [dif_pos m.name.isValidUTF8]
      rfl
    cases h : m.name.toUTF8.data.toList with
    | nil =>
      have hempty : m.name = "" := by
        apply String.toByteArray_inj.mp
        apply ByteArray.ext
        apply Array.toList_inj.mp
        exact h
      simp only [GetValueRsp.serializeAsString, h, GetValueRsp.parseFromString]
      rw [← hempty]
    | cons b bs =>
      have hbytes : (⟨(b :: bs).toArray⟩ : ByteArray) = m.name.toUTF8 := by
        rw [← h]
      simp only [GetValueRsp.serializeAsString, h, GetValueRsp.parseFromString,
        readVarint_varint]
      rw [if_pos (by simp), hbytes, hutf8]
      rfl

theorem payload_intact_iff_getValueRsp :
    RequestIntact (getValueRspCodec.serializeAsString ⟨"ada"⟩) ∧
      ResultIntact (getValueRspCodec.serializeAsString ⟨"ada"⟩) := by
  have hencoding : getValueRspCodec.serializeAsString ⟨"ada"⟩ = [10, 3, 97, 100, 97] := by
    change GetValueRsp.serializeAsString ⟨"ada"⟩ = _
    rw [GetValueRsp.serializeAsString,
      show ("ada".toUTF8.data.toList : List UInt8) = [97, 100, 97] by decide]
    simp [varint]
  rw [hencoding]
  have h := payload_intact_iff [10, 3, 97, 100, 97] (by decide)
  exact ⟨h.1.mpr (by decide), h.2.mpr (by decide)⟩

/-- A value with a zero byte in it fits, but is not what the caller gets. -/
theorem name_lost : ∃ m : GetValueRsp,
    (getValueRspCodec.serializeAsString m).length + 1 ≤ maxRpcParamsSize ∧
      (∀ body : RpcBody, ∀ data, parseProtoStruct getValueRspCodec
        (packProtoStruct getValueRspCodec body.parameters.bytes m).1 data ≠ some m) ∧
      ∀ res r : RpcResult, ∀ data, toRpcResult getValueRspCodec res m = some r →
        parseProtoStruct getValueRspCodec r.returnBuffer.bytes data ≠ some m := by
  have hencoding : getValueRspCodec.serializeAsString ⟨"a\x00b"⟩ = [10, 3, 97, 0, 98] := by
    change GetValueRsp.serializeAsString ⟨"a\x00b"⟩ = _
    rw [GetValueRsp.serializeAsString,
      show ("a\x00b".toUTF8.data.toList : List UInt8) = [97, 0, 98] by decide]
    simp [varint]
  have hcut : getValueRspCodec.parseFromString (cString [10, 3, 97, 0, 98]) = none := by
    decide
  refine ⟨⟨"a\x00b"⟩, ?_, ?_, ?_⟩
  · rw [hencoding]
    decide
  · intro body data
    rw [parseProtoStruct_packProtoStruct, hencoding, hcut]
    simp
  · intro res r data h
    rw [parse_toRpcResult _ (by rw [hencoding]; decide) h, hencoding, hcut]
    simp

end DreamboatRpc.Rpc
