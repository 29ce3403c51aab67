import DreamboatRpc.CS.Bytes

/-!
# What client and server send each other

Messages and results go over the wire as the structures lie in memory: integers lowest
byte first, and the padding that aligns the fields of a header sent along.

## Main definitions

* `RpcHeader`, `RpcBody`, `RpcMessage` — a request
* `RpcResult` — its result
* `toBytes`, `ofBytes` — the memory of a structure, and the structure read from memory

## Main results

* `RpcHeader.ofBytes_toBytes`, `RpcResult.ofBytes_toBytes` — what was sent is received
-/

namespace DreamboatRpc.Rpc

open CS

/-- `RPC_MAGIC_NUMBER` -/
def rpcMagicNumber : UInt16 := 0xabcd

/-- `RPC_VERSION` -/
def rpcVersion : UInt16 := 1

/-- `MAX_RPC_NAME_SIZE` -/
def maxRpcNameSize : ℕ := 32

/-- `MAX_RPC_PARAMS_SIZE` -/
def maxRpcParamsSize : ℕ := 480

/-- `MAX_RPC_RETURN_VALUE` -/
def maxRpcReturnValue : ℕ := 480

/-! ## Structures -/

/-- The header of a request. The compiler puts three bytes between `need_return` and
`seqno`. -/
structure RpcHeader where
  magic : UInt16
  version : UInt16
  needReturn : Bool
  padding : CharArray 3
  seqno : Int32
  bodyLength : Int32
  servicename : CharArray maxRpcNameSize
  deriving DecidableEq

/-- The encoded parameters. -/
structure RpcBody where
  parameters : CharArray maxRpcParamsSize
  deriving DecidableEq

/-- A request. -/
structure RpcMessage where
  header : RpcHeader
  body : RpcBody
  deriving DecidableEq

/-- What a service returned for the request with this number. -/
structure RpcResult where
  seqno : Int32
  returnBuffer : CharArray maxRpcReturnValue
  deriving DecidableEq

/-- The constructor of `RpcMessage`. It does not set the padding. -/
def RpcMessage.new (padding : CharArray 3) : RpcMessage where
  header :=
    { magic := rpcMagicNumber
      version := rpcVersion
      needReturn := false
      padding := padding
      seqno := 0
      bodyLength := 0
      servicename := .bzero maxRpcNameSize }
  body := ⟨.bzero maxRpcParamsSize⟩

/-! ## Memory -/

/-- `sizeof(RpcHeader)` -/
def RpcHeader.size : ℕ := 16 + maxRpcNameSize

/-- `sizeof(RpcResult)` -/
def RpcResult.size : ℕ := 4 + maxRpcReturnValue

/-- An `int` in memory. -/
def intBytes (i : Int32) : List UInt8 := toBytesLE 4 i.toUInt32.toNat

/-- The `int` at the start of memory. -/
def intOfBytes (memory : List UInt8) : Int32 :=
  (UInt32.ofNat (ofBytesLE (memory.take 4))).toInt32

/-- An `unsigned short` in memory. -/
def shortBytes (i : UInt16) : List UInt8 := toBytesLE 2 i.toNat

/-- The `unsigned short` at the start of memory. -/
def shortOfBytes (memory : List UInt8) : UInt16 := UInt16.ofNat (ofBytesLE (memory.take 2))

@[simp] theorem length_intBytes (i : Int32) : (intBytes i).length = 4 := length_toBytesLE ..

@[simp] theorem length_shortBytes (i : UInt16) : (shortBytes i).length = 2 :=
  length_toBytesLE ..

@[simp] theorem intOfBytes_intBytes (i : Int32) (rest : List UInt8) :
    intOfBytes (intBytes i ++ rest) = i := by
  have h : (intBytes i ++ rest).take 4 = intBytes i :=
    List.take_left' (length_intBytes i)
  have hlt : i.toUInt32.toNat < 256 ^ 4 := i.toUInt32.toNat_lt
  rw [intOfBytes, h, intBytes, ofBytesLE_toBytesLE_of_lt hlt]
  simp

@[simp] theorem shortOfBytes_shortBytes (i : UInt16) (rest : List UInt8) :
    shortOfBytes (shortBytes i ++ rest) = i := by
  have h : (shortBytes i ++ rest).take 2 = shortBytes i :=
    List.take_left' (length_shortBytes i)
  have hlt : i.toNat < 256 ^ 2 := i.toNat_lt
  rw [shortOfBytes, h, shortBytes, ofBytesLE_toBytesLE_of_lt hlt]
  simp

/-- A header as it lies in memory. -/
def RpcHeader.toBytes (h : RpcHeader) : List UInt8 :=
  shortBytes h.magic ++ (shortBytes h.version ++
    ((if h.needReturn then 1 else 0) :: (h.padding.bytes ++
      (intBytes h.seqno ++ (intBytes h.bodyLength ++ h.servicename.bytes)))))

/-- The header in memory. Every byte but zero is a `need_return` that is set. -/
def RpcHeader.ofBytes (memory : List UInt8) : RpcHeader where
  magic := shortOfBytes memory
  version := shortOfBytes (memory.drop 2)
  needReturn := memory.getD 4 0 != 0
  padding := .ofBytes 3 (memory.drop 5)
  seqno := intOfBytes (memory.drop 8)
  bodyLength := intOfBytes (memory.drop 12)
  servicename := .ofBytes maxRpcNameSize (memory.drop 16)

/-- A result as it lies in memory. -/
def RpcResult.toBytes (r : RpcResult) : List UInt8 := intBytes r.seqno ++ r.returnBuffer.bytes

/-- The result in memory. -/
def RpcResult.ofBytes (memory : List UInt8) : RpcResult where
  seqno := intOfBytes memory
  returnBuffer := .ofBytes maxRpcReturnValue (memory.drop 4)

@[simp] theorem RpcHeader.length_toBytes (h : RpcHeader) : h.toBytes.length = size := by
  simp [toBytes, size, h.padding.length_bytes, h.servicename.length_bytes]
  omega

@[simp] theorem RpcResult.length_toBytes (r : RpcResult) : r.toBytes.length = size := by
  simp [toBytes, size, r.returnBuffer.length_bytes]

/-- Drop the fields in front of a field. -/
private theorem drop_append {a b : List UInt8} {k n : ℕ} (hk : a.length = k) (hn : k ≤ n) :
    (a ++ b).drop n = b.drop (n - k) := by
  rw [List.drop_append, List.drop_eq_nil_of_le (by omega), List.nil_append, hk]

/-- The header that was sent is the header that is received. -/
@[simp] theorem RpcHeader.ofBytes_toBytes (h : RpcHeader) (rest : List UInt8) :
    ofBytes (h.toBytes ++ rest) = h := by
  have hpad := h.padding.length_bytes
  have hmagic := length_shortBytes h.magic
  have hversion := length_shortBytes h.version
  have hseqno := length_intBytes h.seqno
  have hlength := length_intBytes h.bodyLength
  have hflag : (h.toBytes ++ rest).getD 4 0 = if h.needReturn then 1 else 0 := by
    simp only [toBytes, List.append_assoc, List.getD_eq_getElem?_getD]
    rw [List.getElem?_append_right (by omega), List.getElem?_append_right (by omega)]
    simp [hmagic, hversion]
  -- one equation for each field: skip what lies in front of it
  have hver : (h.toBytes ++ rest).drop 2 = shortBytes h.version ++
      ((h.toBytes ++ rest).drop 4) := by
    simp only [toBytes, List.append_assoc]
    rw [drop_append hmagic (by omega), drop_append hmagic (by omega)]
    simp [hversion]
  have hpad5 : (h.toBytes ++ rest).drop 5 = h.padding.bytes ++
      ((h.toBytes ++ rest).drop 8) := by
    simp only [toBytes, List.append_assoc, List.cons_append]
    rw [drop_append hmagic (by omega), drop_append hmagic (by omega),
      drop_append hversion (by omega), drop_append hversion (by omega)]
    simp [hpad]
  have hseq8 : (h.toBytes ++ rest).drop 8 = intBytes h.seqno ++
      (intBytes h.bodyLength ++ (h.servicename.bytes ++ rest)) := by
    simp only [toBytes, List.append_assoc, List.cons_append]
    rw [drop_append hmagic (by omega), drop_append hversion (by omega)]
    simp [hpad]
  have hlen12 : (h.toBytes ++ rest).drop 12 =
      intBytes h.bodyLength ++ (h.servicename.bytes ++ rest) := by
    rw [show 12 = 8 + 4 from rfl, ← List.drop_drop, hseq8]
    simp [hseqno]
  have hname16 : (h.toBytes ++ rest).drop 16 = h.servicename.bytes ++ rest := by
    rw [show 16 = 12 + 4 from rfl, ← List.drop_drop, hlen12]
    simp [hlength]
  have hneed : ((h.toBytes ++ rest).getD 4 0 != 0) = h.needReturn := by
    rw [hflag]
    cases h.needReturn <;> rfl
  rw [ofBytes, hneed, hver, hpad5, hname16, hlen12, hseq8]
  simp [toBytes, CharArray.ofBytes_append]

/-- The result that was sent is the result that is received. -/
@[simp] theorem RpcResult.ofBytes_toBytes (r : RpcResult) (rest : List UInt8) :
    ofBytes (r.toBytes ++ rest) = r := by
  have hbuffer : (r.toBytes ++ rest).drop 4 = r.returnBuffer.bytes ++ rest := by
    simp only [toBytes, List.append_assoc]
    simp
  rw [ofBytes, hbuffer]
  simp [toBytes, CharArray.ofBytes_append]

end DreamboatRpc.Rpc
