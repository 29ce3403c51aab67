import Mathlib.Data.List.Nodup

/-!
# Linearizability

An operation on a shared object is invoked, and returns later or never. A history of such
events is linearizable if the operations can be put into one order in which a sequential object
returns what was returned, and an operation that returned before another was invoked stands
before it. It is enough to say of every operation when it takes effect: at some point between
its two events, and then it returns what the object returns at this point.

## Main definitions

* `SequentialObject` — what operations do one after another
* `OperationEvent`, `EachOnce`, `Precedes` — the events of a history, and the order of time
* `Linearizes`, `Linearizable` — an order explains a history

## Main results

* `Linearizes.invoke`, `Linearizes.takeEffect`, `Linearizes.answer` — an order explains a history
  as long as each operation takes effect between its events
-/

namespace CS

/-- A sequential object: its first state, and what an operation leaves and returns. -/
structure SequentialObject (σ ι ο : Type*) where
  init : σ
  next : σ → ι → σ
  output : σ → ι → ο

/-- An operation is invoked, or returns. -/
inductive OperationEvent (κ ι ο : Type*)
  | invoked (operation : κ) (input : ι)
  | returned (operation : κ) (output : ο)
  deriving DecidableEq

namespace SequentialObject

variable {σ κ ι ο : Type*} (O : SequentialObject σ ι ο)

/-- The state after some operations, latest first. -/
def stateAfter : List (κ × ι) → σ
  | [] => O.init
  | x :: earlier => O.next (stateAfter earlier) x.2

variable [DecidableEq κ]

/-- What an operation returned, if it is among these. -/
def result : List (κ × ι) → κ → Option ο
  | [], _ => none
  | x :: earlier, k =>
    if k = x.1 then some (O.output (O.stateAfter earlier) x.2) else result earlier k

variable {O} {order : List (κ × ι)} {k : κ} {input : ι} {output : ο}

theorem result_cons_self (order : List (κ × ι)) (k : κ) (input : ι) :
    O.result ((k, input) :: order) k = some (O.output (O.stateAfter order) input) := by
  simp [result]

theorem result_cons_of_ne {k' : κ} (h : k' ≠ k) :
    O.result ((k, input) :: order) k' = O.result order k' := by
  simp [result, h]

theorem result_isSome_iff : (O.result order k).isSome ↔ k ∈ order.map Prod.fst := by
  induction order with
  | nil => simp [result]
  | cons x earlier ih =>
    rw [List.map_cons, List.mem_cons, result]
    split
    · rename_i heq
      simp [heq]
    · rename_i hne
      rw [ih, or_iff_right hne]

end SequentialObject

section Histories

variable {σ κ ι ο : Type*}

/-- In a history, latest event first, one operation returned before another was invoked. -/
def Precedes (history : List (OperationEvent κ ι ο)) (a b : κ) : Prop :=
  ∃ later earlier input, history = later ++ .invoked b input :: earlier ∧
    ∃ output, .returned a output ∈ earlier

/-- In a history, every operation is invoked once at most, and returns once at most, after it
was invoked. -/
def EachOnce : List (OperationEvent κ ι ο) → Prop
  | [] => True
  | .invoked k _ :: earlier => (∀ input, .invoked k input ∉ earlier) ∧ EachOnce earlier
  | .returned k _ :: earlier =>
    (∃ input, .invoked k input ∈ earlier) ∧ (∀ output, .returned k output ∉ earlier) ∧
      EachOnce earlier

variable {history : List (OperationEvent κ ι ο)} {a b k : κ} {input : ι} {output : ο}

/-- What returned before an operation that is invoked now has returned. -/
theorem precedes_invoked_iff : Precedes (.invoked k input :: history) a b ↔
    Precedes history a b ∨ b = k ∧ ∃ output, .returned a output ∈ history := by
  constructor
  · rintro ⟨later, earlier, input', heq, hreturned⟩
    cases later with
    | nil =>
      cases heq
      exact .inr ⟨rfl, hreturned⟩
    | cons x later =>
      obtain ⟨-, heq⟩ := List.cons_eq_cons.mp heq
      exact .inl ⟨later, earlier, input', heq, hreturned⟩
  · rintro (⟨later, earlier, input', rfl, hreturned⟩ | ⟨rfl, hreturned⟩)
    · exact ⟨_ :: later, earlier, input', rfl, hreturned⟩
    · exact ⟨[], history, input, rfl, hreturned⟩

/-- An operation that returns now comes before those only that are invoked later. -/
theorem precedes_returned_iff : Precedes (.returned k output :: history) a b ↔
    Precedes history a b := by
  constructor
  · rintro ⟨later, earlier, input', heq, hreturned⟩
    cases later with
    | nil => cases heq
    | cons x later =>
      obtain ⟨-, heq⟩ := List.cons_eq_cons.mp heq
      exact ⟨later, earlier, input', heq, hreturned⟩
  · rintro ⟨later, earlier, input', rfl, hreturned⟩
    exact ⟨_ :: later, earlier, input', rfl, hreturned⟩

variable [DecidableEq κ] (O : SequentialObject σ ι ο)

/-- The operations of an order, latest first, explain a history: each took effect once and was
invoked; what returned is in the order and returned what the object returns there; and the order
does not contradict time. -/
structure Linearizes (history : List (OperationEvent κ ι ο)) (order : List (κ × ι)) : Prop where
  once : (order.map Prod.fst).Nodup
  invoked : ∀ x ∈ order, .invoked x.1 x.2 ∈ history
  returned : ∀ k output, .returned k output ∈ history → O.result order k = some output
  precedes : ∀ a b, Precedes history a b →
    ∀ later input earlier, order = later ++ (b, input) :: earlier → a ∈ earlier.map Prod.fst

/-- Some order explains the history. -/
def Linearizable (history : List (OperationEvent κ ι ο)) : Prop :=
  ∃ order, Linearizes O history order

variable {O} {order : List (κ × ι)}

theorem linearizes_nil : Linearizes O ([] : List (OperationEvent κ ι ο)) [] where
  once := List.nodup_nil
  invoked _ h := by cases h
  returned _ _ h := by cases h
  precedes a b h := by
    obtain ⟨later, earlier, input, heq, -⟩ := h
    simp at heq

namespace Linearizes

theorem mem_order_of_returned (h : Linearizes O history order)
    (hreturned : .returned k output ∈ history) : k ∈ order.map Prod.fst := by
  rw [← SequentialObject.result_isSome_iff, h.returned k output hreturned]
  rfl

/-- An operation that has not taken effect is invoked. -/
theorem invoke (h : Linearizes O history order) (hk : k ∉ order.map Prod.fst) (input : ι) :
    Linearizes O (.invoked k input :: history) order where
  once := h.once
  invoked x hx := List.mem_cons_of_mem _ (h.invoked x hx)
  returned k' output hreturned := by
    rcases List.mem_cons.mp hreturned with heq | hreturned
    · cases heq
    · exact h.returned k' output hreturned
  precedes a b hprecedes later input' earlier heq := by
    rcases precedes_invoked_iff.mp hprecedes with hprecedes | ⟨rfl, -⟩
    · exact h.precedes a b hprecedes later input' earlier heq
    · exact absurd (by simp [heq]) hk

/-- An operation that was invoked takes effect. -/
theorem takeEffect (h : Linearizes O history order) (hk : k ∉ order.map Prod.fst)
    (hinvoked : .invoked k input ∈ history) : Linearizes O history ((k, input) :: order) where
  once := List.nodup_cons.mpr ⟨hk, h.once⟩
  invoked := List.forall_mem_cons.mpr ⟨hinvoked, h.invoked⟩
  returned k' output hreturned := by
    have hne : k' ≠ k := by
      rintro rfl
      exact hk (h.mem_order_of_returned hreturned)
    rw [SequentialObject.result_cons_of_ne hne]
    exact h.returned k' output hreturned
  precedes a b hprecedes later input' earlier heq := by
    cases later with
    | nil =>
      -- whatever returned before has taken effect before
      obtain ⟨hb, rfl⟩ := List.cons_eq_cons.mp heq
      obtain ⟨_, earlier', _, rfl, output, hreturned⟩ := hprecedes
      exact h.mem_order_of_returned
        (List.mem_append_right _ (List.mem_cons_of_mem _ hreturned))
    | cons x later =>
      obtain ⟨-, heq⟩ := List.cons_eq_cons.mp heq
      exact h.precedes a b hprecedes later input' earlier heq

/-- An operation that has taken effect returns what the object returned. -/
theorem answer (h : Linearizes O history order) (hresult : O.result order k = some output) :
    Linearizes O (.returned k output :: history) order where
  once := h.once
  invoked x hx := List.mem_cons_of_mem _ (h.invoked x hx)
  returned k' output' hreturned := by
    rcases List.mem_cons.mp hreturned with heq | hreturned
    · cases heq
      exact hresult
    · exact h.returned k' output' hreturned
  precedes a b hprecedes := h.precedes a b (precedes_returned_iff.mp hprecedes)

/-- An order that explains a history is one. -/
theorem linearizable (h : Linearizes O history order) : Linearizable O history := ⟨order, h⟩

end Linearizes

end Histories

end CS
