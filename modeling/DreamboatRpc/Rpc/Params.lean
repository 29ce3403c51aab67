import DreamboatRpc.Rpc.Codec

/-!
# Lists of parameters

`PackParam` with several arguments packs the first, moves `Out` by as many bytes as that took
and packs the rest. `ParseParam` gets type tags and pointers in turn and moves `In` likewise.
Each moves by what `Serializer` returned, which is an `int`.

## Main definitions

* `Param` — a parameter of one of the three types
* `packParams`, `parseParams` — `PackParam` and `ParseParam` with any number of arguments
* `packed` — the bytes of parameters one behind the other

## Main results

* `packParams_eq`, `parseParams_packed` — what the two do with parameters of less than
  2³¹ bytes
* `params_round_trip` — so these are parsed as they were packed
* `offset_lost` — a string of 2³¹ - 1 characters in front of another parameter is not packed
-/

namespace DreamboatRpc.Rpc

open CS

/-! ## Parameters -/

/-- An argument of `PackParam`: an `int`, the bits of a `float`, or the characters of a
`const char*` or `std::string`, which ends at its first zero. -/
inductive Param
  | int (i : Int32)
  | float (bits : UInt32)
  | string (s : List UInt8) (zeroFree : 0 ∉ s)

namespace Param

/-- The tag that the overload of `PackParam` passes on. -/
def type : Param → String
  | int _ => intType
  | float _ => floatType
  | string _ _ => stringType

/-- What `In` points to. -/
def memory : Param → List UInt8
  | int i => intBytes i
  | float bits => toBytesLE 4 bits.toNat
  | string s _ => cStr s

/-- Memory from `out` on holds the value. -/
def StoredIn : Param → List UInt8 → Prop
  | int i, out => intOfBytes out = i
  | float bits, out => UInt32.ofNat (ofBytesLE (out.take 4)) = bits
  | string s _, out => cString out = s

variable {p : Param} {rest out : List UInt8}

/-- Both directions copy the memory of the value and say how long it is. -/
theorem copyTyped_memory (p : Param) (rest out : List UInt8) :
    copyTyped (p.memory ++ rest) out p.type =
      (p.memory ++ out.drop p.memory.length, (p.memory.length : ℤ)) := by
  have hcopy := memcpy_append out p.memory rest
  cases p with
  | int i =>
    rw [show (int i).memory.length = 4 from length_intBytes i] at hcopy ⊢
    rw [← hcopy]
    rfl
  | float bits =>
    rw [show (float bits).memory.length = 4 from length_toBytesLE ..] at hcopy ⊢
    rw [← hcopy]
    rfl
  | string s hs =>
    -- the string is copied up to its terminator, and that is all of it
    have hself : cString (cStr s ++ rest) = s := by
      rw [cStr, List.append_assoc, List.singleton_append, cString_append_zero,
        cString_eq_self_iff.mpr hs]
    have hcopied := deserialize_string (cStr s ++ rest) out
    rw [deserialize, strcpy, strlen, hself] at hcopied
    change copyTyped (cStr s ++ rest) out stringType = _
    rw [hcopied]
    simp [memory, cStr]

/-- What begins with the memory of a value holds it. -/
theorem storedIn_memory_append (p : Param) (rest : List UInt8) :
    p.StoredIn (p.memory ++ rest) := by
  cases p with
  | int i => exact intOfBytes_intBytes i rest
  | float bits =>
    have htake : (toBytesLE 4 bits.toNat ++ rest).take 4 = toBytesLE 4 bits.toNat :=
      List.take_left' (length_toBytesLE ..)
    have hlt : bits.toNat < 256 ^ 4 := bits.toNat_lt
    change UInt32.ofNat (ofBytesLE ((toBytesLE 4 bits.toNat ++ rest).take 4)) = bits
    rw [htake, ofBytesLE_toBytesLE_of_lt hlt, UInt32.ofNat_toNat]
  | string s hs =>
    change cString (s ++ [0] ++ rest) = s
    rw [List.append_assoc, List.singleton_append, cString_append_zero,
      cString_eq_self_iff.mpr hs]

end Param

/-! ## One after another -/

/-- `PackParam(Out, In)` returns the size of the value as an `int`. A string is passed as a
`const char*` or a `std::string`, for which there are overloads. -/
def Param.pack (p : Param) (out : List UInt8) : List UInt8 × Int32 :=
  let size := serialize p.memory out p.type
  (size.1, .ofInt size.2)

/-- `PackParam(Out, In, Arguments...)`: what `out` holds afterwards, and the offset returned.
`none` if `Out` is moved in front of the buffer, or the sum of the offsets is no `int`. -/
def packParams (out : List UInt8) : List Param → Option (List UInt8 × Int32)
  | [] => some (out, 0)
  | [p] => some (p.pack out)
  | p :: q :: ps =>
    let first := p.pack out
    if first.2 < 0 then none
    else
      match packParams (first.1.drop first.2.toInt.toNat) (q :: ps) with
      | none => none
      | some later =>
        if first.2.toInt + later.2.toInt < 2 ^ 31 then
          some (first.1.take first.2.toInt.toNat ++ later.1, first.2 + later.2)
        else none

/-- `ParseParam(In, Type, Out, Arguments...)`: what each `Out` holds afterwards, and how far
`In` was moved. `none` if it is moved in front of the buffer. -/
def parseParams (input : List UInt8) : List (String × List UInt8) → Option (List (List UInt8) × ℕ)
  | [] => some ([], 0)
  | (type, out) :: arguments =>
    let first := deserialize input out type
    let offset := Int32.ofInt first.2
    if offset < 0 then none
    else
      match parseParams (input.drop offset.toInt.toNat) arguments with
      | none => none
      | some later => some (first.1 :: later.1, offset.toInt.toNat + later.2)

/-- The bytes that `PackParam` wrote, as many as it says. -/
def packedBytes (out : List UInt8) (ps : List Param) : Option (List UInt8) :=
  (packParams out ps).map fun written => written.1.take written.2.toInt.toNat

/-- What `PackParam` writes, `ParseParam` with the tags of the parameters stores, and it stops
where `PackParam` did. -/
def RoundTrip (out : List UInt8) (args : List (Param × List UInt8)) : Prop :=
  ∃ written offset outs stop, packParams out (args.map Prod.fst) = some (written, offset) ∧
    parseParams written (args.map fun a => (a.1.type, a.2)) = some (outs, stop) ∧
      List.Forall₂ Param.StoredIn (args.map Prod.fst) outs ∧ (stop : ℤ) = offset.toInt

/-- The bytes of parameters one behind the other. -/
def packed (ps : List Param) : List UInt8 := ps.flatMap Param.memory

variable {ps qs : List Param} {p : Param}

@[simp] theorem packed_nil : packed [] = [] := rfl

@[simp] theorem packed_cons (p : Param) (ps : List Param) :
    packed (p :: ps) = p.memory ++ packed ps := rfl

theorem packed_append (ps qs : List Param) : packed (ps ++ qs) = packed ps ++ packed qs :=
  List.flatMap_append ..

/-- A size that is an `int` is returned as it is. -/
theorem toInt_ofInt_natCast {n : ℕ} (h : n < 2 ^ 31) : (Int32.ofInt n).toInt = n :=
  Int32.toInt_ofInt_of_le (by omega) (by omega)

theorem Param.pack_eq (p : Param) (out : List UInt8) :
    p.pack out = (p.memory ++ out.drop p.memory.length, Int32.ofInt p.memory.length) := by
  have hcopy := p.copyTyped_memory [] out
  rw [List.append_nil] at hcopy
  rw [pack, serialize, hcopy]

/-- Parameters of less than 2³¹ bytes are packed one behind the other, and the rest of the
buffer stays as it was. -/
theorem packParams_eq (hfit : (packed ps).length < 2 ^ 31) (out : List UInt8) :
    packParams out ps =
      some (packed ps ++ out.drop (packed ps).length, Int32.ofInt (packed ps).length) := by
  induction ps generalizing out with
  | nil => rfl
  | cons p ps ih =>
    cases ps with
    | nil => rw [packParams, p.pack_eq, packed_cons, packed_nil, List.append_nil]
    | cons q ps =>
      rw [packed_cons, List.length_append] at hfit
      have hfirst := toInt_ofInt_natCast (n := p.memory.length) (by omega)
      have hlater := toInt_ofInt_natCast (n := (packed (q :: ps)).length) (by omega)
      have hnonneg : ¬ Int32.ofInt p.memory.length < 0 := by
        rw [Int32.lt_iff_toInt_lt, hfirst]
        simp
      have hsum : Int32.ofInt p.memory.length + Int32.ofInt (packed (q :: ps)).length =
          Int32.ofInt (p.memory ++ packed (q :: ps)).length := by
        rw [List.length_append, Nat.cast_add, Int32.ofInt_add]
      simp only [packParams, p.pack_eq, hfirst, Int.toNat_natCast, List.drop_left', hlater,
        List.take_left', ih (by omega)]
      rw [if_neg hnonneg, if_pos (by omega), hsum]
      simp [List.drop_drop, Nat.add_comm]

/-- Where parameters of less than 2³¹ bytes were packed, they are parsed, up to their end. -/
theorem parseParams_packed (args : List (Param × List UInt8))
    (hfit : (packed (args.map Prod.fst)).length < 2 ^ 31) (rest : List UInt8) :
    ∃ outs, parseParams (packed (args.map Prod.fst) ++ rest)
        (args.map fun a => (a.1.type, a.2)) =
      some (outs, (packed (args.map Prod.fst)).length) ∧
      List.Forall₂ Param.StoredIn (args.map Prod.fst) outs := by
  induction args with
  | nil => exact ⟨[], rfl, .nil⟩
  | cons a args ih =>
    rw [List.map_cons, packed_cons, List.length_append] at hfit
    obtain ⟨outs, hparse, hstored⟩ := ih (by omega)
    have hfirst := toInt_ofInt_natCast (n := a.1.memory.length) (by omega)
    have hnonneg : ¬ Int32.ofInt a.1.memory.length < 0 := by
      rw [Int32.lt_iff_toInt_lt, hfirst]
      simp
    have hcopy := a.1.copyTyped_memory (packed (args.map Prod.fst) ++ rest) a.2
    refine ⟨_ :: outs, ?_, .cons (a.1.storedIn_memory_append (a.2.drop a.1.memory.length)) hstored⟩
    rw [List.map_cons, List.map_cons, packed_cons, List.append_assoc]
    simp only [parseParams, deserialize, hcopy, hfirst, Int.toNat_natCast, List.drop_left', hparse,
      List.length_append]
    rw [if_neg hnonneg]

/-- The bytes of parameters of less than 2³¹ bytes do not depend on the buffer. -/
theorem packedBytes_eq (hfit : (packed ps).length < 2 ^ 31) (out : List UInt8) :
    packedBytes out ps = some (packed ps) := by
  rw [packedBytes, packParams_eq hfit, Option.map_some, toInt_ofInt_natCast hfit,
    Int.toNat_natCast, List.take_left' rfl]

/-- Parameters that take less than 2³¹ bytes are parsed as they were packed, `ParseParam` stops
at the offset that `PackParam` returned, and wherever the list is split, the bytes of both parts
are one behind the other. -/
theorem params_round_trip (args : List (Param × List UInt8))
    (hfit : (packed (args.map Prod.fst)).length < 2 ^ 31) :
    (∀ out, RoundTrip out args) ∧
      ∀ ps qs, args.map Prod.fst = ps ++ qs → ∀ out out₁ out₂, ∃ first later,
        packedBytes out₁ ps = some first ∧ packedBytes out₂ qs = some later ∧
          packedBytes out (ps ++ qs) = some (first ++ later) := by
  constructor
  · intro out
    obtain ⟨outs, hparse, hstored⟩ :=
      parseParams_packed args hfit (out.drop (packed (args.map Prod.fst)).length)
    exact ⟨_, _, outs, _, packParams_eq hfit out, hparse, hstored, (toInt_ofInt_natCast hfit).symm⟩
  · intro ps qs hsplit out out₁ out₂
    rw [hsplit] at hfit
    have hlength := congrArg List.length (packed_append ps qs)
    rw [List.length_append] at hlength
    refine ⟨packed ps, packed qs, packedBytes_eq (by omega) out₁, packedBytes_eq (by omega) out₂,
      ?_⟩
    rw [packedBytes_eq hfit out, packed_append]

/-- An `int`, a `float` and a string. -/
theorem params_round_trip_three :
    RoundTrip [] [(.int (-2), []), (.float 0x3f800000, []), (.string [97, 98] (by decide), [])] :=
  (params_round_trip _ (by decide)).1 []

/-- What comes behind a string of 2³¹ - 1 characters is not packed: the size of the string is no
`int`, and `Out` is moved backwards. -/
theorem offset_lost : ∃ args, ∀ out, ¬ RoundTrip out args := by
  have hfree : (0 : UInt8) ∉ List.replicate (2 ^ 31 - 1) 97 := by
    intro h
    exact absurd (List.eq_of_mem_replicate h) (by decide)
  refine ⟨[(.string _ hfree, []), (.int 0, [])], ?_⟩
  rintro out ⟨written, offset, outs, stop, hpack, -⟩
  have hlength : (Param.string _ hfree).memory.length = 2 ^ 31 := by
    rw [Param.memory, cStr, List.length_append, List.length_replicate]
    rfl
  have hback : ((Param.string _ hfree).pack out).2 < 0 := by
    rw [Param.pack_eq, hlength]
    exact of_decide_eq_true rfl
  simp only [List.map_cons, List.map_nil, packParams] at hpack
  rw [if_pos hback] at hpack
  cases hpack

end DreamboatRpc.Rpc
