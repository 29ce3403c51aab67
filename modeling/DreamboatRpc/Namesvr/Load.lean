import Mathlib.Algebra.Order.Ring.Rat
import Mathlib.Data.Rat.Floor
import Mathlib.Order.WithBot

/-!
# Loads

What a server reports of its load are numbers as JSON has them, integers of any size or doubles.
`discover_endpoint` adds two of them as Python does: integers exactly, and otherwise as doubles,
so that a sum is rounded and may be infinite.

## Main definitions

* `toBinary64` — the double nearest to a number
* `Load`, `Load.add` — a finite load, and `+`
-/

namespace DreamboatRpc.Namesvr

/-- The nearest integer, and of two that are as near the even one. -/
def roundHalfEven (x : ℚ) : ℤ :=
  let n := x.floor
  if x - n < 1 / 2 then n else if 1 / 2 < x - n then n + 1 else n + n % 2

/-- The exponent of the leading bit of a number that is not `0`. -/
def binaryExponent (x : ℚ) : ℤ :=
  let e : ℤ := x.num.natAbs.log2 - x.den.log2
  if |x| < (2 : ℚ) ^ e then e - 1 else e

/-- A number, or an infinity of either sign. -/
abbrev Extended := WithBot (WithTop ℚ)

/-- The double nearest to a number: 53 significant bits, the last of them even where two doubles
are as near, and none below `2 ^ (-1074)`; beyond the largest doubles are the infinities. -/
def toBinary64 (x : ℚ) : Extended :=
  let ulp : ℚ := 2 ^ max (binaryExponent x - 52) (-1074)
  let y : ℚ := roundHalfEven (x / ulp) * ulp
  if 2 ^ 1024 ≤ y then ⊤ else if y ≤ -2 ^ 1024 then ⊥ else (y : WithTop ℚ)

/-- A double that is finite. -/
structure Binary64 where
  value : ℚ
  toBinary64_value : toBinary64 value = (value : WithTop ℚ)
  deriving DecidableEq, Repr

/-- A finite load: an integer or a double. -/
inductive Load
  | int (x : ℤ)
  | float (x : Binary64)
  deriving DecidableEq, Repr

namespace Load

instance : OfNat Load 0 := ⟨.int 0⟩

/-- The number that is meant. -/
def value : Load → ℚ
  | int x => x
  | float x => x.value

@[simp] theorem value_zero : (0 : Load).value = 0 := Int.cast_zero

/-- `float(x)`, which raises for an integer beyond the doubles. -/
def toFloat : Load → Except String ℚ
  | int x =>
    match toBinary64 x with
    | ((y : ℚ) : WithTop ℚ) => .ok y
    | _ => .error "int too large to convert to float"
  | float x => .ok x.value

/-- `x + y` -/
def add : Load → Load → Except String Extended
  | int x, int y => .ok (((x + y : ℤ) : ℚ) : WithTop ℚ)
  | x, y => do
    let x ← x.toFloat
    let y ← y.toFloat
    return toBinary64 (x + y)

end Load

/-- Sums of different numbers may be the same: both are the double nearest to `71.9`. -/
example : (Load.add (.float ⟨2, by decide +kernel⟩)
      (.float ⟨2459387609009357 / 35184372088832, by decide +kernel⟩)).toOption =
    (Load.add (.float ⟨5573204538870989 / 140737488355328, by decide +kernel⟩)
      (.float ⟨2272910436938547 / 70368744177664, by decide +kernel⟩)).toOption := by
  decide +kernel

end DreamboatRpc.Namesvr
