import Mathlib.Data.List.Forall2
import Mathlib.Algebra.Order.Ring.Int

/-!
# Frames in a stream

Values are encoded one behind the other, without anything between them. A decoder takes one
value off the front of the stream and says how far it came; it is called again from there
until nothing is left.

## Main definitions

* `decodeAll` — a decoder, again and again
* `Decodes` — the decoder takes the encoding of a value, whatever follows it

## Main results

* `decodeAll_flatMap` — all values are decoded, and nothing is left
-/

namespace CS

variable {α β γ : Type*}

/-- Decode until nothing is left, each time where the last time ended; with every value, the
position behind it. -/
def decodeAll (decode : List γ → β × ℤ) : ℕ → ℤ → List γ → List (β × ℤ) × List γ
  | 0, _, stream => ([], stream)
  | _, _, [] => ([], [])
  | fuel + 1, position, stream =>
    let first := decode stream
    let later := decodeAll decode fuel (position + first.2) (stream.drop first.2.toNat)
    ((first.1, position + first.2) :: later.1, later.2)

/-- The positions behind values of which the first is encoded at `position`. -/
def positionsBehind (encode : α → List γ) (position : ℤ) : List α → List ℤ
  | [] => []
  | a :: as =>
    (position + (encode a).length) :: positionsBehind encode (position + (encode a).length) as

/-- The decoder takes the encoding of `a` off the front of any stream, and what it makes of it is
related to `a` by `R`. -/
structure Decodes (encode : α → List γ) (decode : List γ → β × ℤ) (R : α → β → Prop)
    (a : α) : Prop where
  nonempty : encode a ≠ []
  taken : ∀ rest, (decode (encode a ++ rest)).2 = (encode a).length
  related : ∀ rest, R a (decode (encode a ++ rest)).1

variable {encode : α → List γ} {decode : List γ → β × ℤ} {R : α → β → Prop} {a : α}

theorem decodeAll_nil (decode : List γ → β × ℤ) (fuel : ℕ) (position : ℤ) :
    decodeAll decode fuel position [] = ([], []) := by
  cases fuel <;> rfl

theorem decodeAll_of_ne_nil {stream : List γ} (h : stream ≠ []) (fuel : ℕ) (position : ℤ) :
    decodeAll decode (fuel + 1) position stream =
      (((decode stream).1, position + (decode stream).2) ::
          (decodeAll decode fuel (position + (decode stream).2)
            (stream.drop (decode stream).2.toNat)).1,
        (decodeAll decode fuel (position + (decode stream).2)
          (stream.drop (decode stream).2.toNat)).2) := by
  cases stream with
  | nil => exact absurd rfl h
  | cons b bs => rfl

/-- The value at the front, and then the rest. -/
theorem Decodes.decodeAll_append (h : Decodes encode decode R a) (fuel : ℕ) (position : ℤ)
    (rest : List γ) :
    decodeAll decode (fuel + 1) position (encode a ++ rest) =
      (((decode (encode a ++ rest)).1, position + (encode a).length) ::
          (decodeAll decode fuel (position + (encode a).length) rest).1,
        (decodeAll decode fuel (position + (encode a).length) rest).2) := by
  have hne : encode a ++ rest ≠ [] := List.append_ne_nil_of_left_ne_nil h.nonempty rest
  rw [decodeAll_of_ne_nil hne, h.taken rest, Int.toNat_natCast, List.drop_left' rfl]

/-- Values encoded one behind the other are decoded one after another, up to the end. -/
theorem decodeAll_flatMap {as : List α} (h : ∀ a ∈ as, Decodes encode decode R a) {fuel : ℕ}
    (hfuel : as.length ≤ fuel) (position : ℤ) :
    (decodeAll decode fuel position (as.flatMap encode)).2 = [] ∧
      List.Forall₂ R as ((decodeAll decode fuel position (as.flatMap encode)).1.map Prod.fst) ∧
      (decodeAll decode fuel position (as.flatMap encode)).1.map Prod.snd =
        positionsBehind encode position as := by
  induction as generalizing fuel position with
  | nil =>
    rw [List.flatMap_nil, decodeAll_nil]
    exact ⟨rfl, .nil, rfl⟩
  | cons a as ih =>
    obtain ⟨fuel, rfl⟩ := Nat.exists_eq_succ_of_ne_zero (Nat.ne_zero_of_lt hfuel)
    obtain ⟨ha, has⟩ := List.forall_mem_cons.mp h
    obtain ⟨hleft, hvalues, hpositions⟩ :=
      ih has (Nat.le_of_succ_le_succ hfuel) (position + (encode a).length)
    rw [List.flatMap_cons, ha.decodeAll_append]
    refine ⟨hleft, .cons (ha.related _) hvalues, ?_⟩
    rw [List.map_cons, hpositions, positionsBehind]

/-- The last value ends where the stream does. -/
theorem getLast?_positionsBehind (position : ℤ) (as : List α) :
    (position :: positionsBehind encode position as).getLast? =
      some (position + (as.flatMap encode).length) := by
  induction as generalizing position with
  | nil => simp [positionsBehind]
  | cons a as ih =>
    rw [positionsBehind, List.getLast?_cons_cons, ih, List.flatMap_cons, List.length_append]
    push_cast
    rw [add_assoc]

end CS
