import DreamboatRpc.Apps.KeyValue
import DreamboatRpc.Client.System
import DreamboatRpc.Common.Logger
import DreamboatRpc.Rpc.WireFormat
import DreamboatRpc.Server.Framing

/-!
# The messages of the key-value service

The service has two objects, one that gets values and one that sets them, each with its own
type of request and of result. A proxy packs its request into the parameters of a message; the
object parses them, calls the store and packs what it returned into the buffer of a result; the
callback parses that.

## Main definitions

* `KVCodecs` — the message types, and what is known of their encodings
* `wireCodecs` — message types that read and write the fields in order
* `KVService` — the objects, by name
* `KVService.requestIn`, `Response.toRpcResult` — the two ends of `HandleRPC`
* `KVService.responseIn` — what a callback is given
* `Request.Fits`, `Response.Fits` — it gets through

## Main results

* `zero_mem_encoding_iff` — a request has a zero byte in its encoding only if its name has one
* `requestIn_asReceived`, `responseIn_toRpcResult` — what fits is received as it was sent
* `returned_fits_iff` — a name of 476 bytes under the id 0 gets in and cannot get out
-/

namespace DreamboatRpc.Apps

open CS Rpc Common

/-! ## Message types -/

/-- The message types of the service, as they are generated from its `.proto` file. The encoding
of a message has the fields that are declared for it, each unless it has its default. -/
class KVCodecs where
  getValueReq : ProtoCodec GetValueReq
  getValueRsp : ProtoCodec GetValueRsp
  setValueReq : ProtoCodec SetValueReq
  setValueRsp : ProtoCodec SetValueRsp
  getValueReq_encodes : ∀ m, Encodes (getValueReq.serializeAsString m) (int32Field 1 m.id)
  getValueRsp_encodes : ∀ m, Encodes (getValueRsp.serializeAsString m) (stringField 1 m.name)
  setValueReq_encodes : ∀ m,
    Encodes (setValueReq.serializeAsString m) (int32Field 1 m.id ++ stringField 2 m.name)
  setValueRsp_encodes : ∀ m, Encodes (setValueRsp.serializeAsString m) (int32Field 1 m.code)

/-! ## Requests and results -/

/-- `KVGetterImpl` and `KVSetterImpl`. -/
inductive KVService
  | getter
  | setter
  deriving DecidableEq

/-- `ServiceName` -/
def KVService.serviceName : KVService → List UInt8
  | getter => [75, 86, 71, 101, 116, 116, 101, 114]
  | setter => [75, 86, 83, 101, 116, 116, 101, 114]

example : utf8 "KVGetter" = KVService.getter.serviceName := by decide

/-- The dictionary of the server, after `RegisterService` of both. -/
def services : Dict (List UInt8) KVService :=
  (Dict.set ∅ KVService.getter.serviceName .getter).set KVService.setter.serviceName .setter

theorem services_serviceName (service : KVService) :
    services.get? service.serviceName = some service := by
  cases service <;> decide

/-- The object a request is for. -/
def Request.service : Request → KVService
  | getValue _ => .getter
  | setValue _ => .setter

/-- The object that returns it. -/
def Response.service : Response → KVService
  | getValue _ => .getter
  | setValue _ => .setter

variable [KVCodecs]

/-- `SerializeAsString` of a request. -/
def Request.encoding : Request → List UInt8
  | getValue req => KVCodecs.getValueReq.serializeAsString req
  | setValue req => KVCodecs.setValueReq.serializeAsString req

/-- `SerializeAsString` of a result. -/
def Response.encoding : Response → List UInt8
  | getValue rsp => KVCodecs.getValueRsp.serializeAsString rsp
  | setValue rsp => KVCodecs.setValueRsp.serializeAsString rsp

/-- The messages that parsing leaves where it fails: of each type, what `req` or `ret` may hold
then. -/
structure Unparsed where
  getValueReq : GetValueReq
  setValueReq : SetValueReq
  getValueRsp : GetValueRsp
  setValueRsp : SetValueRsp

/-- `req` in `HandleRPC`, after `ParseProtoStruct`. -/
def KVService.requestIn (input data : List UInt8) (left : Unparsed) : KVService → Request
  | getter => .getValue ((parseProtoStruct KVCodecs.getValueReq input data).getD left.getValueReq)
  | setter => .setValue ((parseProtoStruct KVCodecs.setValueReq input data).getD left.setValueReq)

/-- The end of `HandleRPC`, with `ToRpcResult`. -/
def Response.toRpcResult (res : RpcResult) : Response → Option RpcResult
  | getValue rsp => Rpc.toRpcResult KVCodecs.getValueRsp res rsp
  | setValue rsp => Rpc.toRpcResult KVCodecs.setValueRsp res rsp

/-- `x` in `CallbackFunction::Exec`, for a callback of calls to this object. -/
def KVService.responseIn (input data : List UInt8) (left : Unparsed) : KVService → Response
  | getter => .getValue ((parseProtoStruct KVCodecs.getValueRsp input data).getD left.getValueRsp)
  | setter => .setValue ((parseProtoStruct KVCodecs.setValueRsp input data).getD left.setValueRsp)

/-! ## What gets through -/

/-- A request gets through: it has no zero byte, and fits with its terminator. -/
def Request.Fits (req : Request) : Prop :=
  0 ∉ req.encoding ∧ req.encoding.length < maxRpcParamsSize

/-- A result gets through: it has no zero byte, and passes the assertion. -/
def Response.Fits (rsp : Response) : Prop :=
  0 ∉ rsp.encoding ∧ rsp.encoding.length + 1 < maxRpcReturnValue

section Lengths

variable {id : Int32} {name : String}

/-- The encoding of a name that is returned is as long as one field. -/
theorem length_getValue (name : String) :
    (Response.getValue ⟨name⟩).encoding.length = (encodeFields (stringField 1 name)).length :=
  (KVCodecs.getValueRsp_encodes ⟨name⟩).perm.length_eq

/-- The field of a name takes as much room in a request as in a result. -/
theorem length_setValue (id : Int32) (name : String) :
    (Request.setValue ⟨id, name⟩).encoding.length =
      (encodeFields (int32Field 1 id)).length + (Response.getValue ⟨name⟩).encoding.length := by
  have hencoding : (Request.setValue ⟨id, name⟩).encoding.length =
      (encodeFields (int32Field 1 id ++ stringField 2 name)).length :=
    (KVCodecs.setValueReq_encodes ⟨id, name⟩).perm.length_eq
  have happend : encodeFields (int32Field 1 id ++ stringField 2 name) =
      encodeFields (int32Field 1 id) ++ encodeFields (stringField 2 name) :=
    List.flatMap_append ..
  rw [hencoding, happend, List.length_append, length_getValue,
    length_stringField_congr (k := 1) (by decide) (by decide)]

/-- A name is not longer than its encoding. -/
theorem length_utf8_le (name : String) :
    (utf8 name).length ≤ (Response.getValue ⟨name⟩).encoding.length := by
  rw [length_getValue]
  by_cases hname : name = ""
  · rw [utf8_eq_nil_iff.mpr hname]
    exact Nat.zero_le _
  · rw [length_stringField (by decide) hname]
    omega

/-- A name of 128 bytes and more, as far as a length fits two bytes. -/
theorem length_getValueRsp (hlower : 128 ≤ (utf8 name).length)
    (hupper : (utf8 name).length < 128 ^ 2) :
    (Response.getValue ⟨name⟩).encoding.length = (utf8 name).length + 3 := by
  have hname : name ≠ "" := by
    rintro rfl
    exact absurd hlower (by decide)
  have htwo : (varint (utf8 name).length).length = 2 := by
    rw [varint, if_neg (by omega), varint_of_lt (by omega)]
    rfl
  rw [length_getValue, length_stringField (by decide) hname, htwo]
  omega

/-- A short name takes few bytes. -/
theorem length_getValueRsp_le (hlower : (utf8 name).length < 128) :
    (Response.getValue ⟨name⟩).encoding.length ≤ (utf8 name).length + 2 := by
  rw [length_getValue]
  by_cases hname : name = ""
  · rw [stringField, if_pos hname]
    exact Nat.zero_le _
  · rw [length_stringField (by decide) hname, varint_of_lt hlower, List.length_singleton]
    omega

end Lengths

/-- A request has a zero byte in its encoding if and only if it sets a name that has one. -/
theorem zero_mem_encoding_iff (req : Request) :
    0 ∈ req.encoding ↔ ∃ id name, req = .setValue ⟨id, name⟩ ∧ 0 ∈ utf8 name := by
  have hint : ∀ id : Int32, (0 : UInt8) ∉ encodeFields (int32Field 1 id) :=
    fun id => zero_notMem_int32Field (by decide)
  cases req with
  | getValue req =>
    have hencoding : 0 ∈ (Request.getValue req).encoding ↔ 0 ∈ encodeFields (int32Field 1 req.id) :=
      (KVCodecs.getValueReq_encodes req).perm.mem_iff
    refine iff_of_false (fun hzero => hint req.id (hencoding.mp hzero)) ?_
    rintro ⟨id, name, hreq, -⟩
    cases hreq
  | setValue req =>
    have hencoding : 0 ∈ (Request.setValue req).encoding ↔
        0 ∈ encodeFields (int32Field 1 req.id ++ stringField 2 req.name) :=
      (KVCodecs.setValueReq_encodes req).perm.mem_iff
    have happend : encodeFields (int32Field 1 req.id ++ stringField 2 req.name) =
        encodeFields (int32Field 1 req.id) ++ encodeFields (stringField 2 req.name) :=
      List.flatMap_append ..
    rw [hencoding, happend, List.mem_append, or_iff_right (hint req.id),
      zero_mem_stringField_iff (by decide)]
    constructor
    · intro hzero
      exact ⟨req.id, req.name, rfl, hzero⟩
    · rintro ⟨id, name, hreq, hzero⟩
      cases hreq
      exact hzero

theorem zero_mem_response_iff (name : String) :
    0 ∈ (Response.getValue ⟨name⟩).encoding ↔ 0 ∈ utf8 name :=
  (KVCodecs.getValueRsp_encodes ⟨name⟩).perm.mem_iff.trans (zero_mem_stringField_iff (by decide))

/-- What setting a name returns gets through. -/
theorem setValueRsp_fits (rsp : SetValueRsp) : Response.Fits (.setValue rsp) := by
  have hperm : (Response.setValue rsp).encoding.Perm (encodeFields (int32Field 1 rsp.code)) :=
    (KVCodecs.setValueRsp_encodes rsp).perm
  have hlength : (encodeFields (int32Field 1 rsp.code)).length ≤ 11 :=
    length_int32Field_le (by decide)
  rw [← hperm.length_eq] at hlength
  refine ⟨fun hzero => zero_notMem_int32Field (by decide) (hperm.mem_iff.mp hzero), ?_⟩
  simp only [maxRpcReturnValue]
  omega

theorem notFound_fits : Response.Fits (.getValue ⟨"not found"⟩) := by
  have hbytes : utf8 "not found" = [110, 111, 116, 32, 102, 111, 117, 110, 100] := by decide
  have hshort : (utf8 "not found").length < 128 := by
    rw [hbytes]
    decide
  have hlength := length_getValueRsp_le hshort
  rw [hbytes] at hlength
  refine ⟨?_, ?_⟩
  · rw [zero_mem_response_iff, hbytes]
    decide
  · simp only [maxRpcReturnValue, List.length_cons, List.length_nil] at hlength ⊢
    omega

/-! ## Messages -/

/-- The proxy of an object, after `GetProxy`. -/
def KVService.proxy (service : KVService) : Client.Service := ⟨service.serviceName, true⟩

/-- The server holds a message as a request to the object it is for. -/
structure Carries (m : RpcMessage) (req : Request) : Prop where
  wellFormed : Server.WellFormed services m
  servicename : cString m.header.servicename.bytes = req.service.serviceName
  parameters : ∀ stack,
    cString (Server.parametersMemory (Server.asReceived m) stack) = req.encoding

/-- What the client sends for a request that fits carries it. -/
theorem carries_callMessage {req : Request} (h : req.Fits) (padding : CharArray 3) (id : ℤ) :
    Carries (Client.callMessage padding id req.service.proxy req.encoding) req := by
  obtain ⟨hzero, hfit⟩ := h
  set m := Client.callMessage padding id req.service.proxy req.encoding with hm
  have hself := cString_eq_self_iff.mpr hzero
  have hparams : strcpy (CharArray.bzero maxRpcParamsSize).bytes (cStr req.encoding) =
      req.encoding ++ 0 :: List.replicate (maxRpcParamsSize - (req.encoding.length + 1)) 0 := by
    rw [strcpy, strlen, cString_cStr, hself, CharArray.bzero, List.drop_replicate]
  have hbytes : m.body.parameters.bytes =
      req.encoding ++ 0 :: List.replicate (maxRpcParamsSize - (req.encoding.length + 1)) 0 := by
    -- the string and its terminator leave the length of the array
    have hsize : (strcpy (CharArray.bzero maxRpcParamsSize).bytes (cStr req.encoding)).length =
        maxRpcParamsSize := by
      rw [hparams, List.length_append, List.length_cons, List.length_replicate]
      omega
    have hread := congrArg CharArray.bytes (CharArray.ofBytes_bytes ⟨_, hsize⟩)
    rw [hm, Client.callMessage, ← hparams]
    simpa [RpcMessage.new, packParam] using hread
  have hlength : m.header.bodyLength.toInt = req.encoding.length + 1 := by
    have hlt : (req.encoding.length : ℤ) < 480 := by exact_mod_cast hfit
    have hint : (Int32.ofInt (req.encoding.length + 1)).toInt = req.encoding.length + 1 :=
      Int32.toInt_ofInt_of_le (by omega) (by omega)
    rw [hm, Client.callMessage]
    simpa [RpcMessage.new, packParam, strlen, cString_cStr, hself] using hint
  have hcopied : m.header.servicename = .ofBytes maxRpcNameSize
      (strcpy (CharArray.bzero maxRpcNameSize).bytes req.service.serviceName) := rfl
  have hname : cString m.header.servicename.bytes = req.service.serviceName := by
    rw [hcopied]
    cases req.service <;> decide
  have hterminated : (0 : UInt8) ∈ m.header.servicename.bytes := by
    rw [hcopied]
    cases req.service <;> decide
  have hsent : Server.sentBody m = req.encoding ++ [0] := by
    have hnat : m.header.bodyLength.toInt.toNat = req.encoding.length + 1 := by omega
    rw [Server.sentBody, hnat, hbytes, ← List.singleton_append, ← List.append_assoc]
    exact List.take_left' (by simp)
  refine ⟨⟨rfl, rfl, hterminated, ?_, by omega, ?_⟩, hname, fun stack => ?_⟩
  · rw [hname, services_serviceName]
    rfl
  · have hlt : (req.encoding.length : ℤ) < maxRpcParamsSize := by exact_mod_cast hfit
    omega
  · -- the array of the server begins with the string and its terminator
    have harray : (CharArray.ofBytes maxRpcParamsSize (req.encoding ++ [0])).bytes =
        (req.encoding ++ [0]) ++
          List.replicate (maxRpcParamsSize - (req.encoding.length + 1)) 0 := by
      simp only [CharArray.ofBytes, List.take_append, List.length_append, List.length_singleton,
        List.take_replicate]
      rw [List.take_of_length_le (by omega), List.take_of_length_le (by simp; omega)]
      simp
    rw [Server.parametersMemory, Server.asReceived, hsent, harray, List.append_assoc,
      List.append_assoc, List.singleton_append, cString_append_zero, hself]

/-- Asking for the result does not change what a message carries. -/
theorem Carries.needReturn {m : RpcMessage} {req : Request} (h : Carries m req) :
    Carries { m with header := { m.header with needReturn := true } } req :=
  ⟨h.wellFormed, h.servicename, h.parameters⟩

section HandleRPC

variable {m : RpcMessage} {req : Request} {rsp : Response}

/-- The object a message names is found. -/
theorem Carries.get?_services (h : Carries m req) (stack : List UInt8) :
    services.get? (cString (Server.servicenameMemory (Server.asReceived m) stack)) =
      some req.service := by
  obtain ⟨-, -, hterminated, -⟩ := h.wellFormed
  have hterminated' : 0 ∈ (Server.asReceived m).header.servicename.bytes := hterminated
  have hname : (Server.asReceived m).header.servicename = m.header.servicename := rfl
  rw [Server.cString_servicenameMemory hterminated', hname, h.servicename, services_serviceName]

/-- The object parses the request. -/
theorem requestIn_asReceived (h : Carries m req) (stack data : List UInt8) (left : Unparsed) :
    req.service.requestIn (Server.parametersMemory (Server.asReceived m) stack) data left =
      req := by
  have hparams := h.parameters stack
  cases req with
  | getValue req =>
    have hparse := KVCodecs.getValueReq.parse_serialize req
    simp only [Request.service, KVService.requestIn, parseProtoStruct, parseParam,
      deserialize_string, cString_strcpy, hparams]
    rw [Request.encoding, hparse]
    rfl
  | setValue req =>
    have hparse := KVCodecs.setValueReq.parse_serialize req
    simp only [Request.service, KVService.requestIn, parseProtoStruct, parseParam,
      deserialize_string, cString_strcpy, hparams]
    rw [Request.encoding, hparse]
    rfl

/-- A result without a zero byte passes the assertion if and only if it fits. -/
theorem toRpcResult_isSome_iff (h : 0 ∉ rsp.encoding) (res : RpcResult) :
    (rsp.toRpcResult res).isSome ↔ rsp.Fits := by
  have hself := cString_eq_self_iff.mpr h
  have hsize : ((strlen rsp.encoding + 1 : ℤ) < maxRpcReturnValue) ↔ rsp.Fits := by
    rw [strlen, hself, Response.Fits, and_iff_right h]
    exact_mod_cast Iff.rfl
  rw [← hsize]
  cases rsp with
  | getValue rsp =>
    rw [Response.toRpcResult, toRpcResult_eq, Response.encoding]
    split <;> simp_all
  | setValue rsp =>
    rw [Response.toRpcResult, toRpcResult_eq, Response.encoding]
    split <;> simp_all

/-- The callback is given what the object returned. -/
theorem responseIn_toRpcResult {res r : RpcResult} (hzero : 0 ∉ rsp.encoding)
    (h : rsp.toRpcResult res = some r) (data : List UInt8) (left : Unparsed) :
    rsp.service.responseIn r.returnBuffer.bytes data left = rsp := by
  have hfits : rsp.Fits := (toRpcResult_isSome_iff hzero res).mp (by rw [h]; rfl)
  have hself := cString_eq_self_iff.mpr hzero
  have hlt : rsp.encoding.length < maxRpcReturnValue := by
    have := hfits.2
    omega
  cases rsp with
  | getValue rsp =>
    rw [Response.encoding] at hself hlt
    rw [Response.toRpcResult] at h
    rw [Response.service, KVService.responseIn, parse_toRpcResult KVCodecs.getValueRsp hlt h]
    rw [hself, KVCodecs.getValueRsp.parse_serialize]
    rfl
  | setValue rsp =>
    rw [Response.encoding] at hself hlt
    rw [Response.toRpcResult] at h
    rw [Response.service, KVService.responseIn, parse_toRpcResult KVCodecs.setValueRsp hlt h]
    rw [hself, KVCodecs.setValueRsp.parse_serialize]
    rfl

end HandleRPC

/-! ## The longest name -/

/-- A name that gets in does not get out if and only if it has 476 bytes, and then it came with
the id 0, which takes no room. -/
theorem returned_fits_iff {id : Int32} {name : String} (h : Request.Fits (.setValue ⟨id, name⟩)) :
    Response.Fits (.getValue ⟨name⟩) ↔ ¬ (id = 0 ∧ (utf8 name).length = 476) := by
  obtain ⟨hzero, hfit⟩ := h
  have hname : (0 : UInt8) ∉ (Response.getValue ⟨name⟩).encoding := by
    rw [zero_mem_response_iff]
    intro hmem
    exact hzero ((zero_mem_encoding_iff _).mpr ⟨id, name, rfl, hmem⟩)
  rw [length_setValue] at hfit
  rw [Response.Fits, and_iff_right hname]
  simp only [maxRpcParamsSize, maxRpcReturnValue] at hfit ⊢
  by_cases hshort : (utf8 name).length < 128
  · -- a name with a short length fits both ways
    have hlength := length_getValueRsp_le hshort
    exact iff_of_true (by omega) (by omega)
  · have hle := length_utf8_le name
    have hlower : 128 ≤ (utf8 name).length := by omega
    have hlength := length_getValueRsp hlower (by omega)
    rw [hlength] at hfit ⊢
    -- the id 0 is not written, which leaves two bytes more for the name
    by_cases hid : id = 0
    · have hnone : (encodeFields (int32Field 1 id)).length = 0 := by
        rw [int32Field, if_pos hid]
        rfl
      rw [and_iff_right hid]
      omega
    · have htwo : 2 ≤ (encodeFields (int32Field 1 id)).length := two_le_length_int32Field hid
      constructor
      · rintro - ⟨heq, -⟩
        exact hid heq
      · intro _
        omega

/-! ## What the map returns -/

/-- Each name came in with its id. -/
def Stored (names : Int32 → Option String) : Prop :=
  ∀ id name, names id = some name → Request.Fits (.setValue ⟨id, name⟩)

/-- The map returns this to a request, while it holds names that came in. -/
def Returns (request : Request) (response : Response) : Prop :=
  ∃ names, Stored names ∧ response = expected names request

section Returns

variable {names : Int32 → Option String} {request : Request} {response : Response}

theorem Stored.namesAfter (h : Stored names) (hfits : request.Fits) :
    Stored (namesAfter names request) := by
  cases request with
  | getValue req => exact h
  | setValue req =>
    intro id name hname
    rw [Apps.namesAfter] at hname
    rcases eq_or_ne id req.id with rfl | hid
    · rw [Function.update_self] at hname
      obtain rfl := Option.some.inj hname
      exact hfits
    · rw [Function.update_of_ne hid] at hname
      exact h id name hname

theorem Returns.service (h : Returns request response) : response.service = request.service := by
  obtain ⟨names, -, rfl⟩ := h
  cases request <;> rfl

/-- It has no zero byte. -/
theorem Returns.zero_notMem (h : Returns request response) : 0 ∉ response.encoding := by
  obtain ⟨names, hstored, rfl⟩ := h
  cases request with
  | getValue req =>
    cases hname : names req.id with
    | none =>
      rw [expected, hname]
      exact notFound_fits.1
    | some name =>
      have hfits := hstored req.id name hname
      rw [expected, hname, Option.getD_some, zero_mem_response_iff]
      intro hzero
      exact hfits.1 ((zero_mem_encoding_iff _).mpr ⟨req.id, name, rfl, hzero⟩)
  | setValue req => exact (setValueRsp_fits _).1

/-- It fits, but for a name of 476 bytes that was asked for by the id 0. -/
theorem Returns.fits_iff (h : Returns request response) : response.Fits ↔
    ¬ (request = .getValue ⟨0⟩ ∧
      ∃ name, response = .getValue ⟨name⟩ ∧ (utf8 name).length = 476) := by
  obtain ⟨names, hstored, rfl⟩ := h
  cases request with
  | getValue req =>
    obtain ⟨id⟩ := req
    cases hname : names id with
    | none =>
      have hresponse : expected names (.getValue ⟨id⟩) = .getValue ⟨"not found"⟩ := by
        rw [expected, hname]
        rfl
      rw [hresponse]
      refine iff_of_true notFound_fits ?_
      rintro ⟨-, name, heq, hlength⟩
      cases heq
      exact absurd hlength (by decide)
    | some name =>
      have hresponse : expected names (.getValue ⟨id⟩) = .getValue ⟨name⟩ := by
        rw [expected, hname]
        rfl
      rw [hresponse, returned_fits_iff (hstored id name hname)]
      simp
  | setValue req =>
    refine iff_of_true (setValueRsp_fits _) ?_
    rintro ⟨heq, -⟩
    cases heq

end Returns

/-! ## What is logged -/

/-- What `KVSetterImpl::SetValue` passes to `log_dev`, for the code it returns. -/
def setValueFormat : List UInt8 := chars "KVSetterImpl::SetValue return %d\n"

/-- The call of `log_dev` in `GetValue` or `SetValue` is defined. -/
def Response.logged (log : LogInput) : Response → Bool
  | getValue rsp => log.defined getValueFormat [.string (cStr (utf8 rsp.name))]
  | setValue rsp => log.defined setValueFormat [.int rsp.code.toInt]

/-- A message type that writes an `int32` and then a `string`, and reads whatever has fields. What
a type has not got keeps its default. -/
def fieldsCodec {T : Type} (number k : ℕ) (hnumber : 0 < number ∧ number < 2 ^ 29)
    (hk : 0 < k ∧ k < 2 ^ 29) (id : T → Int32) (name : T → String) (mk : Int32 → String → T)
    (hmk : ∀ m, mk (id m) (name m) = m) : ProtoCodec T where
  serializeAsString m := encodeFields (int32Field number (id m) ++ stringField k (name m))
  parseFromString bytes := (readFields bytes).bind fun fields =>
    (getString k fields).map (mk (getInt32 number fields))
  parse_serialize m := by
    have hvalid : ∀ f ∈ int32Field number (id m) ++ stringField k (name m), f.Valid := by
      intro f hf
      rcases List.mem_append.mp hf with hf | hf
      · exact valid_int32Field hnumber.1 hnumber.2 f hf
      · exact valid_stringField hk.1 hk.2 f hf
    rw [readFields_encode hvalid, Option.bind_some, getString_stringField, getInt32_int32Field,
      Option.map_some, hmk]

/-- The message types, with the fields in the order in which they are declared. -/
@[reducible]
def wireCodecs : KVCodecs where
  getValueReq := fieldsCodec 1 2 (by decide) (by decide) GetValueReq.id (fun _ => "")
    (fun id _ => ⟨id⟩) fun _ => rfl
  getValueRsp := fieldsCodec 2 1 (by decide) (by decide) (fun _ => 0) GetValueRsp.name
    (fun _ name => ⟨name⟩) fun _ => rfl
  setValueReq := fieldsCodec 1 2 (by decide) (by decide) SetValueReq.id SetValueReq.name .mk
    fun _ => rfl
  setValueRsp := fieldsCodec 1 2 (by decide) (by decide) SetValueRsp.code (fun _ => "")
    (fun code _ => ⟨code⟩) fun _ => rfl
  getValueReq_encodes m := by
    rw [← List.append_nil (int32Field 1 m.id)]
    exact .refl _
  getValueRsp_encodes _ := .refl _
  setValueReq_encodes _ := .refl _
  setValueRsp_encodes m := by
    rw [← List.append_nil (int32Field 1 m.code)]
    exact .refl _

end DreamboatRpc.Apps
