import Mathlib.Data.List.TakeWhile
import Mathlib.Algebra.Order.Ring.Nat
import Mathlib.Tactic.Ring

/-!
# Bytes in memory

Memory is a list of bytes, and a pointer is what the memory holds from there on. An
operation that writes through a pointer gives the memory after it; where it writes more
than there was, the result is longer, so an overflow shows in the length.

## Main definitions

* `toBytesLE`, `ofBytesLE` — an unsigned integer and its bytes, lowest first
* `CharArray` — a `char` array of fixed size
* `cString`, `strlen`, `cStr` — the string up to the terminator
* `memcpy`, `strcpy` — what memory holds after a copy
* `writeAt`, `readFrom` — what a pointer into memory writes and reads

## Main results

* `ofBytesLE_toBytesLE` — what was written is read
* `cString_strcpy` — a copied string reads as the original
* `cString_eq_self_iff` — a string passes through a C string if and only if it has no
  zero byte
* `strlen_append_lt_iff` — a string ends within a region if and only if the region has a zero
-/

namespace CS

/-! ## Integers -/

/-- The lowest `k` bytes of an integer, lowest first. -/
def toBytesLE : ℕ → ℕ → List UInt8
  | 0, _ => []
  | k + 1, n => UInt8.ofNat n :: toBytesLE k (n / 256)

/-- The unsigned integer that bytes stand for, lowest first. -/
def ofBytesLE : List UInt8 → ℕ
  | [] => 0
  | b :: bs => b.toNat + 256 * ofBytesLE bs

@[simp] theorem length_toBytesLE (k n : ℕ) : (toBytesLE k n).length = k := by
  induction k generalizing n with
  | zero => rfl
  | succ k ih => simp [toBytesLE, ih]

theorem ofBytesLE_toBytesLE (k n : ℕ) : ofBytesLE (toBytesLE k n) = n % 256 ^ k := by
  induction k generalizing n with
  | zero => simp [toBytesLE, ofBytesLE, Nat.mod_one]
  | succ k ih =>
    have low : (UInt8.ofNat n).toNat = n % 256 := by simp
    rw [toBytesLE, ofBytesLE, ih, low, pow_succ, mul_comm (256 ^ k), Nat.mod_mul]

/-- An integer that fits is read as it was written. -/
theorem ofBytesLE_toBytesLE_of_lt {k n : ℕ} (h : n < 256 ^ k) :
    ofBytesLE (toBytesLE k n) = n := by
  rw [ofBytesLE_toBytesLE, Nat.mod_eq_of_lt h]

/-! ## Arrays of characters -/

/-- `char name[k]` -/
structure CharArray (k : ℕ) where
  bytes : List UInt8
  length_bytes : bytes.length = k
  deriving DecidableEq

namespace CharArray

variable {k : ℕ}

/-- After `bzero` -/
def bzero (k : ℕ) : CharArray k := ⟨List.replicate k 0, List.length_replicate⟩

/-- The first `k` bytes of memory; bytes that are not there count as zero. -/
def ofBytes (k : ℕ) (memory : List UInt8) : CharArray k :=
  ⟨(memory ++ List.replicate k 0).take k, by simp⟩

@[ext] theorem ext {a b : CharArray k} (h : a.bytes = b.bytes) : a = b := by
  cases a
  cases b
  cases h
  rfl

/-- What memory holds of an array is read as the array. -/
theorem ofBytes_append (a : CharArray k) (rest : List UInt8) :
    ofBytes k (a.bytes ++ rest) = a := by
  apply CharArray.ext
  have h := a.length_bytes
  simp [ofBytes, h]

theorem ofBytes_bytes (a : CharArray k) : ofBytes k a.bytes = a := by
  simpa using ofBytes_append a []

end CharArray

/-! ## C strings -/

/-- The characters of the C string at a pointer: those before the terminator. -/
def cString (memory : List UInt8) : List UInt8 := memory.takeWhile fun b => b ≠ 0

/-- `strlen(in)`; reading the string touches one byte more. -/
def strlen (memory : List UInt8) : ℕ := (cString memory).length

/-- `s.c_str()`: the bytes of `s` and a terminator. -/
def cStr (s : List UInt8) : List UInt8 := s ++ [0]

/-- What `out` holds after `memcpy(out, in, n)`. -/
def memcpy (out memory : List UInt8) (n : ℕ) : List UInt8 := memory.take n ++ out.drop n

/-- What `out` holds after `strcpy(out, in)`. -/
def strcpy (out memory : List UInt8) : List UInt8 :=
  cString memory ++ 0 :: out.drop (strlen memory + 1)

/-- What `out` holds after `write` was given `out + k`. -/
def writeAt (out : List UInt8) (k : ℕ) (write : List UInt8 → List UInt8) : List UInt8 :=
  out.take k ++ write (out.drop k)

/-- `n` bytes of memory that begins with `region`; what is behind it is `behind`. -/
def readFrom (region : List UInt8) (behind : ℕ → UInt8) (n : ℕ) : List UInt8 :=
  (region ++ (List.range n).map behind).take n

variable {s memory out : List UInt8} {k : ℕ}

theorem zero_notMem_cString : (0 : UInt8) ∉ cString memory := by
  intro h
  have := List.mem_takeWhile_imp h
  simp at this

theorem cString_eq_self_iff : cString s = s ↔ 0 ∉ s := by
  constructor
  · intro h
    rw [← h]
    exact zero_notMem_cString
  · intro h
    apply List.takeWhile_eq_self_iff.mpr
    intro b hb
    simp only [decide_eq_true_eq]
    rintro rfl
    exact h hb

/-- A string ends at the first terminator; what comes later is not read. -/
theorem cString_append_zero (s rest : List UInt8) : cString (s ++ 0 :: rest) = cString s := by
  induction s with
  | nil => simp [cString]
  | cons b s ih =>
    simp only [cString, List.cons_append, List.takeWhile_cons] at ih ⊢
    split
    · rw [ih]
    · rfl

theorem cString_cStr (s : List UInt8) : cString (cStr s) = cString s :=
  cString_append_zero s []

theorem cString_cString (s : List UInt8) : cString (cString s) = cString s :=
  cString_eq_self_iff.mpr zero_notMem_cString

/-- A copied string reads as the original. -/
theorem cString_strcpy (out memory : List UInt8) :
    cString (strcpy out memory) = cString memory := by
  rw [strcpy, cString_append_zero, cString_cString]

theorem strlen_le_length (memory : List UInt8) : strlen memory ≤ memory.length :=
  (List.takeWhile_prefix _).length_le

/-- A string ends within the memory if and only if there is a zero. -/
theorem strlen_lt_length_iff : strlen memory < memory.length ↔ 0 ∈ memory := by
  have hle := strlen_le_length memory
  constructor
  · intro h
    by_contra hmem
    rw [strlen, cString_eq_self_iff.mpr hmem] at h
    exact lt_irrefl _ h
  · intro hmem
    apply lt_of_le_of_ne hle
    intro heq
    have hself : cString memory = memory := (List.takeWhile_prefix _).eq_of_length heq
    exact cString_eq_self_iff.mp hself hmem

/-- A string ends within the first `k` bytes if and only if there is a zero among them. -/
theorem strlen_append_lt_iff (region rest : List UInt8) :
    strlen (region ++ rest) < region.length ↔ 0 ∈ region := by
  rw [← strlen_lt_length_iff]
  simp only [strlen, cString, List.takeWhile_append]
  have hle := strlen_le_length region
  simp only [strlen, cString] at hle
  split
  · rename_i h
    simp only [List.length_append]
    omega
  · rfl

/-- A copy that fits does not change the size of the destination. -/
theorem length_strcpy (h : strlen memory < out.length) :
    (strcpy out memory).length = out.length := by
  simp only [strcpy, strlen, List.length_append, List.length_cons, List.length_drop] at h ⊢
  omega

/-- A copied string stays in the destination if and only if it ends there. -/
theorem length_strcpy_eq_iff : (strcpy out memory).length = out.length ↔
    strlen memory < out.length := by
  refine ⟨fun h => ?_, length_strcpy⟩
  simp only [strcpy, strlen, List.length_append, List.length_cons, List.length_drop] at h ⊢
  omega

/-! ## Writing through a pointer -/

/-- What a copy leaves in memory: the bytes, and what was behind them. -/
theorem memcpy_append (out bytes rest : List UInt8) :
    memcpy out (bytes ++ rest) bytes.length = bytes ++ out.drop bytes.length := by
  rw [memcpy, List.take_left' rfl]

theorem length_memcpy {n : ℕ} (h : n ≤ memory.length) :
    (memcpy out memory n).length = max n out.length := by
  simp only [memcpy, List.length_append, List.length_take, List.length_drop]
  omega

/-- Something written behind other bytes does not change these. -/
theorem writeAt_append (bytes rest : List UInt8) (write : List UInt8 → List UInt8) :
    writeAt (bytes ++ rest) bytes.length write = bytes ++ write rest := by
  rw [writeAt, List.take_left' rfl, List.drop_left' rfl]

@[simp] theorem length_readFrom (region : List UInt8) (behind : ℕ → UInt8) (n : ℕ) :
    (readFrom region behind n).length = n := by
  simp [readFrom]

/-- What is read of a region that is long enough. -/
theorem readFrom_of_le {region : List UInt8} {n : ℕ} (behind : ℕ → UInt8)
    (h : n ≤ region.length) : readFrom region behind n = region.take n :=
  List.take_append_of_le_length h

end CS
