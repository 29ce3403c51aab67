import DreamboatRpc.Rpc.Codec

/-!
# The encoding of protobuf messages

A message is a sequence of fields. A field begins with its number and the type of its value in
one varint; a value is a varint, four or eight bytes, or a length and as many bytes. Fields of
one type may come in any order and more than once, where the last one counts, and fields of
other numbers or types are skipped. A field that has its default value is not written.

## Main definitions

* `Field`, `readFields` — the fields of a message
* `int32Field`, `stringField` — a field of a message that is written
* `Encodes` — some bytes are the encoding of some fields
* `getInt32`, `getString` — what a message that was read has in a field

## Main results

* `readFields_encode` — the fields that were written are read
* `getInt32_int32Field`, `getString_stringField` — and hold what they held
* `zero_notMem_int32Field`, `zero_mem_stringField_iff` — zero bytes come from strings only
* `length_int32Field_le`, `length_stringField` — how long the fields are
-/

namespace DreamboatRpc.Rpc

open CS

/-! ## Varints -/

section Varint

variable {n k : ℕ}

theorem varint_of_lt (h : n < 128) : varint n = [UInt8.ofNat n] := by
  rw [varint, if_pos h]

theorem varint_ne_nil (n : ℕ) : varint n ≠ [] := by
  rw [varint]
  split <;> simp

/-- Seven bits go into a byte. -/
theorem length_varint_le (h : n < 128 ^ (k + 1)) : (varint n).length ≤ k + 1 := by
  induction k generalizing n with
  | zero =>
    rw [varint_of_lt (by simpa using h)]
    simp
  | succ k ih =>
    rw [varint]
    split
    · simp
    · have hdiv : n / 128 < 128 ^ (k + 1) := by
        rw [Nat.div_lt_iff_lt_mul (by omega), ← Nat.pow_succ]
        exact h
      have hrest := ih hdiv
      rw [List.length_cons]
      omega

/-- The varint of a number other than zero has no zero byte. -/
theorem zero_notMem_varint (h : 0 < n) : (0 : UInt8) ∉ varint n := by
  have hbyte : ∀ m : ℕ, 0 < m → m < 256 → (0 : UInt8) ≠ UInt8.ofNat m := by
    intro m hm hlt heq
    have hnat := congrArg UInt8.toNat heq
    simp only [UInt8.toNat_ofNat', UInt8.toNat_zero] at hnat
    omega
  induction n using varint.induct with
  | case1 n hlt =>
    rw [varint_of_lt hlt, List.mem_singleton]
    exact hbyte n h (by omega)
  | case2 n hge ih =>
    -- the mark that more bytes follow is set in all but the last
    rw [varint, if_neg hge, List.mem_cons, not_or]
    exact ⟨hbyte _ (by omega) (by omega), ih (by omega)⟩

/-- Read a varint of up to 64 bits: more than ten bytes are an error, and what does not fit is
cut off. -/
def readVarint64 (bytes : List UInt8) : Option (ℕ × List UInt8) :=
  match readVarint bytes with
  | some (n, rest) => if bytes.length ≤ rest.length + 10 then some (n % 2 ^ 64, rest) else none
  | none => none

theorem readVarint64_varint (h : n < 2 ^ 64) (rest : List UInt8) :
    readVarint64 (varint n ++ rest) = some (n, rest) := by
  have hten : (varint n).length ≤ 9 + 1 :=
    length_varint_le (lt_of_lt_of_le h (by decide))
  rw [readVarint64, readVarint_varint]
  simp only [List.length_append]
  rw [if_pos (by omega), Nat.mod_eq_of_lt h]

end Varint

/-! ## Fields -/

/-- The value of a field. Groups are not read. -/
inductive FieldValue
  | varint (n : ℕ)
  | fixed64 (bytes : List UInt8)
  | lengthDelimited (bytes : List UInt8)
  | fixed32 (bytes : List UInt8)
  deriving DecidableEq

/-- The number of the type. -/
def FieldValue.wireType : FieldValue → ℕ
  | varint _ => 0
  | fixed64 _ => 1
  | lengthDelimited _ => 2
  | fixed32 _ => 5

def FieldValue.encode : FieldValue → List UInt8
  | varint n => Rpc.varint n
  | fixed64 bytes => bytes
  | lengthDelimited bytes => Rpc.varint bytes.length ++ bytes
  | fixed32 bytes => bytes

/-- A field of a message. -/
structure Field where
  number : ℕ
  value : FieldValue
  deriving DecidableEq

namespace Field

def encode (f : Field) : List UInt8 := varint (f.number * 8 + f.value.wireType) ++ f.value.encode

/-- What can be written as a field. -/
def Valid (f : Field) : Prop :=
  (0 < f.number ∧ f.number < 2 ^ 29) ∧
    match f.value with
    | .varint n => n < 2 ^ 64
    | .fixed64 bytes => bytes.length = 8
    | .lengthDelimited _ => True
    | .fixed32 bytes => bytes.length = 4

end Field

/-- The first `n` bytes, and those behind them; `none` if there are fewer. -/
def readBytes (n : ℕ) (bytes : List UInt8) : Option (List UInt8 × List UInt8) :=
  if n ≤ bytes.length then some (bytes.take n, bytes.drop n) else none

/-- Read a value of the type with this number. -/
def readFieldValue (wireType : ℕ) (bytes : List UInt8) : Option (FieldValue × List UInt8) :=
  match wireType with
  | 0 => (readVarint64 bytes).map fun r => (.varint r.1, r.2)
  | 1 => (readBytes 8 bytes).map fun r => (.fixed64 r.1, r.2)
  | 2 => (readVarint bytes).bind fun length =>
    (readBytes length.1 length.2).map fun r => (.lengthDelimited r.1, r.2)
  | 5 => (readBytes 4 bytes).map fun r => (.fixed32 r.1, r.2)
  | _ => none

/-- Read a field. -/
def readField (bytes : List UInt8) : Option (Field × List UInt8) :=
  match readVarint64 bytes with
  | some (tag, rest) =>
    if 0 < tag / 8 ∧ tag / 8 < 2 ^ 29 then
      (readFieldValue (tag % 8) rest).map fun r => (⟨tag / 8, r.1⟩, r.2)
    else none
  | none => none

/-- Read fields to the end, at most `fuel` of them. -/
def readFieldsFrom : ℕ → List UInt8 → Option (List Field)
  | _, [] => some []
  | 0, _ :: _ => none
  | fuel + 1, b :: bytes =>
    match readField (b :: bytes) with
    | some (field, rest) => (readFieldsFrom fuel rest).map (field :: ·)
    | none => none

/-- The fields of a message; each takes a byte at least. -/
def readFields (bytes : List UInt8) : Option (List Field) := readFieldsFrom bytes.length bytes

/-- The encoding of some fields. -/
def encodeFields (fields : List Field) : List UInt8 := fields.flatMap Field.encode

/-- The bytes are the fields, in whatever order they were written. -/
def Encodes (bytes : List UInt8) (fields : List Field) : Prop :=
  ∃ written, written.Perm fields ∧ bytes = encodeFields written

theorem Encodes.refl (fields : List Field) : Encodes (encodeFields fields) fields :=
  ⟨fields, .refl _, rfl⟩

/-- The order of the fields concerns only the order of the bytes. -/
theorem Encodes.perm {bytes : List UInt8} {fields : List Field} (h : Encodes bytes fields) :
    bytes.Perm (encodeFields fields) := by
  obtain ⟨written, hperm, rfl⟩ := h
  exact hperm.flatMap_right Field.encode

section ReadFields

variable {f : Field} {fields : List Field}

@[simp] theorem readBytes_append (bytes rest : List UInt8) :
    readBytes bytes.length (bytes ++ rest) = some (bytes, rest) := by
  simp [readBytes]

theorem readFieldValue_encode (h : f.Valid) (rest : List UInt8) :
    readFieldValue f.value.wireType (f.value.encode ++ rest) = some (f.value, rest) := by
  obtain ⟨number, value⟩ := f
  obtain ⟨-, hvalue⟩ := h
  -- one type of value after another
  cases value with
  | varint n => simp [FieldValue.wireType, FieldValue.encode, readFieldValue,
      readVarint64_varint hvalue]
  | fixed64 bytes =>
    have height : bytes.length = 8 := hvalue
    simp [FieldValue.wireType, FieldValue.encode, readFieldValue, ← height]
  | lengthDelimited bytes =>
    simp [FieldValue.wireType, FieldValue.encode, readFieldValue, readVarint_varint]
  | fixed32 bytes =>
    have hfour : bytes.length = 4 := hvalue
    simp [FieldValue.wireType, FieldValue.encode, readFieldValue, ← hfour]

theorem wireType_lt (value : FieldValue) : value.wireType < 8 := by
  cases value <;> simp [FieldValue.wireType]

/-- A field that was written is read. -/
theorem readField_encode (h : f.Valid) (rest : List UInt8) :
    readField (f.encode ++ rest) = some (f, rest) := by
  obtain ⟨hpos, hlt⟩ := h.1
  have htype := wireType_lt f.value
  have hnumber : (f.number * 8 + f.value.wireType) / 8 = f.number := by omega
  have htag : (f.number * 8 + f.value.wireType) % 8 = f.value.wireType := by omega
  rw [readField, Field.encode, List.append_assoc, readVarint64_varint (by omega)]
  simp only [hnumber, htag]
  rw [if_pos ⟨hpos, hlt⟩, readFieldValue_encode h]
  rfl

theorem encode_ne_nil (f : Field) : f.encode ≠ [] :=
  List.append_ne_nil_of_left_ne_nil (varint_ne_nil _) _

theorem readFieldsFrom_encode {fuel : ℕ} (h : ∀ f ∈ fields, f.Valid)
    (hfuel : fields.length ≤ fuel) : readFieldsFrom fuel (encodeFields fields) = some fields := by
  induction fields generalizing fuel with
  | nil => cases fuel <;> rfl
  | cons f fields ih =>
    obtain ⟨hf, hfields⟩ := List.forall_mem_cons.mp h
    obtain ⟨fuel, rfl⟩ : ∃ n, fuel = n + 1 := ⟨fuel - 1, by simp at hfuel; omega⟩
    have hread := readField_encode hf (encodeFields fields)
    have hcons : encodeFields (f :: fields) = f.encode ++ encodeFields fields := rfl
    obtain ⟨b, bytes, hb⟩ := List.exists_cons_of_ne_nil
      (List.append_ne_nil_of_left_ne_nil (encode_ne_nil f) (encodeFields fields))
    rw [hcons, hb, readFieldsFrom, ← hb, hread]
    simp only
    rw [ih hfields (by simpa using hfuel)]
    rfl

/-- The fields that were written are read. -/
theorem readFields_encode (h : ∀ f ∈ fields, f.Valid) :
    readFields (encodeFields fields) = some fields := by
  refine readFieldsFrom_encode h ?_
  induction fields with
  | nil => simp
  | cons f fields ih =>
    have hpos : 0 < f.encode.length := List.length_pos_iff.mpr (encode_ne_nil f)
    have hrest := ih (List.forall_mem_cons.mp h).2
    simp only [encodeFields, List.flatMap_cons, List.length_append, List.length_cons] at hrest ⊢
    omega

end ReadFields

/-! ## Integers and strings -/

/-- An `int32` as a varint: of 64 bits, with the sign in all of the upper ones. -/
def int32Varint (i : Int32) : ℕ := (i.toInt % 2 ^ 64).toNat

/-- A field of type `int32`. -/
def int32Field (number : ℕ) (i : Int32) : List Field :=
  if i = 0 then [] else [⟨number, .varint (int32Varint i)⟩]

/-- The bytes of a string. -/
def utf8 (s : String) : List UInt8 := s.toUTF8.data.toList

/-- A field of type `string`. -/
def stringField (number : ℕ) (s : String) : List Field :=
  if s = "" then [] else [⟨number, .lengthDelimited (utf8 s)⟩]

/-- The varint in a field, if it has this number and is one. -/
def Field.int32? (number : ℕ) (f : Field) : Option Int32 :=
  match f.value with
  | .varint n => if f.number = number then some (.ofInt n) else none
  | _ => none

/-- The bytes in a field, if it has this number and is a string. -/
def Field.string? (number : ℕ) (f : Field) : Option (List UInt8) :=
  match f.value with
  | .lengthDelimited bytes => if f.number = number then some bytes else none
  | _ => none

/-- The value of a field of type `int32`: the last one counts. -/
def getInt32 (number : ℕ) (fields : List Field) : Int32 :=
  ((fields.filterMap (Field.int32? number)).getLast?).getD 0

/-- The string with these bytes. -/
def stringOfUtf8? (bytes : List UInt8) : Option String := String.fromUTF8? ⟨bytes.toArray⟩

/-- The value of a field of type `string`: the last one counts, and all must be well formed. -/
def getString (number : ℕ) (fields : List Field) : Option String :=
  ((fields.filterMap (Field.string? number)).mapM stringOfUtf8?).map fun strings =>
    (strings.getLast?).getD ""

section Values

variable {number : ℕ} {i : Int32} {s : String}

theorem stringOfUtf8?_utf8 (s : String) : stringOfUtf8? (utf8 s) = some s := by
  have hbytes : (⟨(utf8 s).toArray⟩ : ByteArray) = s.toUTF8 := by
    rw [utf8]
  rw [stringOfUtf8?, hbytes]
  simp only [String.fromUTF8?, String.toUTF8_eq_toByteArray]
  rw [dif_pos s.isValidUTF8]
  rfl

theorem utf8_eq_nil_iff : utf8 s = [] ↔ s = "" := by
  constructor
  · intro h
    have hread := stringOfUtf8?_utf8 s
    have hempty := stringOfUtf8?_utf8 ""
    rw [h] at hread
    exact Option.some.inj (hread.symm.trans hempty)
  · rintro rfl
    decide

/-- The lower 32 bits are the integer. -/
theorem ofInt_int32Varint (i : Int32) : Int32.ofInt (int32Varint i) = i := by
  have hnonneg : (0 : ℤ) ≤ i.toInt % 2 ^ 64 := Int.emod_nonneg _ (by decide)
  have hlower : -2 ^ 31 ≤ i.toInt := i.le_toInt
  have hupper : i.toInt < 2 ^ 31 := i.toInt_lt
  apply Int32.toInt_inj.mp
  rw [int32Varint, Int32.toInt_ofInt, Int.toNat_of_nonneg hnonneg, Int32.size, Int.bmod]
  omega

theorem int32Varint_lt (i : Int32) : int32Varint i < 2 ^ 64 := by
  have hlt := Int.emod_lt_of_pos i.toInt (show (0 : ℤ) < 2 ^ 64 by decide)
  have hnonneg : (0 : ℤ) ≤ i.toInt % 2 ^ 64 := Int.emod_nonneg _ (by decide)
  rw [int32Varint]
  omega

theorem int32Varint_pos (h : i ≠ 0) : 0 < int32Varint i := by
  rw [Nat.pos_iff_ne_zero]
  intro hzero
  have hi := ofInt_int32Varint i
  rw [hzero] at hi
  exact h hi.symm

/-! What has the default value is not written, and read all the same. -/

theorem filterMap_int32Field (number : ℕ) (i : Int32) :
    (int32Field number i).filterMap (Field.int32? number) = if i = 0 then [] else [i] := by
  rw [int32Field]
  split
  · rfl
  · simp [Field.int32?, ofInt_int32Varint]

theorem filterMap_stringField (number : ℕ) (s : String) :
    (stringField number s).filterMap (Field.string? number) = if s = "" then [] else [utf8 s] := by
  rw [stringField]
  split
  · rfl
  · simp [Field.string?]

/-- A string is no integer. -/
theorem filterMap_int32?_stringField (number k : ℕ) (s : String) :
    (stringField k s).filterMap (Field.int32? number) = [] := by
  rw [stringField]
  split
  · rfl
  · simp [Field.int32?]

theorem filterMap_string?_int32Field (number k : ℕ) (i : Int32) :
    (int32Field k i).filterMap (Field.string? number) = [] := by
  rw [int32Field]
  split
  · rfl
  · simp [Field.string?]

/-- A message has in a field what was written, whatever strings come with it. -/
theorem getInt32_int32Field (number k : ℕ) (i : Int32) (s : String) :
    getInt32 number (int32Field number i ++ stringField k s) = i := by
  rw [getInt32, List.filterMap_append, filterMap_int32Field, filterMap_int32?_stringField,
    List.append_nil]
  split
  · rename_i hzero
    exact hzero.symm
  · rfl

theorem getString_stringField (number k : ℕ) (i : Int32) (s : String) :
    getString number (int32Field k i ++ stringField number s) = some s := by
  rw [getString, List.filterMap_append, filterMap_string?_int32Field, filterMap_stringField,
    List.nil_append]
  split
  · rename_i hempty
    rw [hempty]
    rfl
  · simp [stringOfUtf8?_utf8]

theorem valid_int32Field (hpos : 0 < number) (hlt : number < 2 ^ 29) :
    ∀ f ∈ int32Field number i, f.Valid := by
  rw [int32Field]
  split
  · simp
  · rw [List.forall_mem_singleton]
    exact ⟨⟨hpos, hlt⟩, int32Varint_lt i⟩

theorem valid_stringField (hpos : 0 < number) (hlt : number < 2 ^ 29) :
    ∀ f ∈ stringField number s, f.Valid := by
  rw [stringField]
  split
  · simp
  · rw [List.forall_mem_singleton]
    exact ⟨⟨hpos, hlt⟩, trivial⟩

end Values

/-! ## Zero bytes -/

section Zero

variable {number : ℕ} {i : Int32} {s : String}

theorem zero_notMem_tag {f : Field} (h : 0 < f.number) :
    (0 : UInt8) ∉ varint (f.number * 8 + f.value.wireType) :=
  zero_notMem_varint (by omega)

/-- The encoding of an integer has no zero byte. -/
theorem zero_notMem_int32Field (hpos : 0 < number) :
    (0 : UInt8) ∉ encodeFields (int32Field number i) := by
  rw [int32Field]
  split
  · simp [encodeFields]
  · rename_i hi
    rw [encodeFields, List.flatMap_singleton, Field.encode, List.mem_append, not_or]
    exact ⟨zero_notMem_tag hpos, zero_notMem_varint (int32Varint_pos hi)⟩

/-- That of a string has one if and only if the string has one. -/
theorem zero_mem_stringField_iff (hpos : 0 < number) :
    (0 : UInt8) ∈ encodeFields (stringField number s) ↔ 0 ∈ utf8 s := by
  rw [stringField]
  split
  · rename_i hempty
    rw [utf8_eq_nil_iff.mpr hempty]
    simp [encodeFields]
  · rename_i hs
    have hlength : 0 < (utf8 s).length :=
      List.length_pos_iff.mpr (mt utf8_eq_nil_iff.mp hs)
    rw [encodeFields, List.flatMap_singleton, Field.encode, FieldValue.encode, List.mem_append,
      List.mem_append, or_iff_right (zero_notMem_tag hpos),
      or_iff_right (zero_notMem_varint hlength)]

end Zero

/-! ## Lengths -/

section Length

variable {number k : ℕ} {i : Int32} {s : String}

/-- The tag of a field with a small number is one byte. -/
theorem length_tag {f : Field} (h : f.number < 16) :
    (varint (f.number * 8 + f.value.wireType)).length = 1 := by
  have htype := wireType_lt f.value
  rw [varint_of_lt (by omega), List.length_singleton]

/-- An integer takes eleven bytes at most. -/
theorem length_int32Field_le (h : number < 16) :
    (encodeFields (int32Field number i)).length ≤ 11 := by
  rw [int32Field]
  split
  · simp [encodeFields]
  · -- a negative integer is written with all of its 64 bits
    have hvalue : (varint (int32Varint i)).length ≤ 9 + 1 :=
      length_varint_le (lt_of_lt_of_le (int32Varint_lt i) (by decide))
    rw [encodeFields, List.flatMap_singleton, Field.encode, List.length_append, length_tag h,
      FieldValue.encode]
    omega

/-- It takes two bytes at least, unless it is zero. -/
theorem two_le_length_int32Field (hi : i ≠ 0) :
    2 ≤ (encodeFields (int32Field number i)).length := by
  have htag := List.length_pos_iff.mpr (varint_ne_nil (number * 8 + 0))
  have hvalue := List.length_pos_iff.mpr (varint_ne_nil (int32Varint i))
  rw [int32Field, if_neg hi, encodeFields, List.flatMap_singleton, Field.encode,
    List.length_append]
  simp only [FieldValue.wireType, FieldValue.encode]
  omega

/-- A string takes its bytes, its length in front of them, and a tag. -/
theorem length_stringField (h : number < 16) (hs : s ≠ "") :
    (encodeFields (stringField number s)).length =
      1 + ((varint (utf8 s).length).length + (utf8 s).length) := by
  rw [stringField, if_neg hs, encodeFields, List.flatMap_singleton, Field.encode,
    List.length_append, length_tag h, FieldValue.encode, List.length_append]

/-- It takes as much room under any small number. -/
theorem length_stringField_congr (h : number < 16) (hk : k < 16) (s : String) :
    (encodeFields (stringField number s)).length = (encodeFields (stringField k s)).length := by
  by_cases hs : s = ""
  · rw [stringField, stringField, if_pos hs, if_pos hs]
  · rw [length_stringField h hs, length_stringField hk hs]

end Length

end DreamboatRpc.Rpc
