import Mathlib.Data.Multiset.AddSub
import Mathlib.Order.Lattice

/-!
# Priority queues

A priority queue is known by what it holds, a multiset, and by its top, an element of least key.
An element that is pushed takes the place of the top only if its key is strictly less: it moves up
past the elements it comes before, and no further.

## Main definitions

* `PriorityQueue` — the operations and what they do to the elements
* `PriorityQueue.sorted` — a sorted list is one

## Main results

* `top_mem`, `mem_pop` — the top, and what is left without it
* `top_push_cases` — the top after a push
-/

namespace CS

/-- A queue of elements of `α`, of which one with the least key is at the top. -/
structure PriorityQueue (α : Type) {κ : Type} [LinearOrder κ] (key : α → κ) where
  Carrier : Type
  elems : Carrier → Multiset α
  empty : Carrier
  top : Carrier → Option α
  push : Carrier → α → Carrier
  pop : Carrier → Carrier
  elems_empty : elems empty = 0
  top_eq_none_iff : ∀ q, top q = none ↔ elems q = 0
  top_le : ∀ q a, top q = some a → ∀ b ∈ elems q, key a ≤ key b
  elems_push : ∀ q a, elems (push q a) = a ::ₘ elems q
  elems_pop : ∀ q a, top q = some a → elems q = a ::ₘ elems (pop q)
  /-- An element that does not come before the top goes below it. -/
  top_push : ∀ q a b, top q = some a → key a ≤ key b → top (push q b) = some a

namespace PriorityQueue

variable {α κ : Type} [LinearOrder κ] {key : α → κ} {Q : PriorityQueue α key} {q : Q.Carrier}
  {a b : α}

theorem top_mem (h : Q.top q = some a) : a ∈ Q.elems q := by
  rw [Q.elems_pop q a h]
  exact Multiset.mem_cons_self a _

theorem mem_push : b ∈ Q.elems (Q.push q a) ↔ b = a ∨ b ∈ Q.elems q := by
  rw [Q.elems_push, Multiset.mem_cons]

/-- All but the top are left. -/
theorem mem_pop (h : Q.top q = some a) (hb : b ∈ Q.elems q) (hne : b ≠ a) :
    b ∈ Q.elems (Q.pop q) := by
  rw [Q.elems_pop q a h, Multiset.mem_cons] at hb
  exact hb.resolve_left hne

theorem mem_of_mem_pop (h : Q.top q = some a) (hb : b ∈ Q.elems (Q.pop q)) : b ∈ Q.elems q := by
  rw [Q.elems_pop q a h]
  exact Multiset.mem_cons_of_mem hb

theorem exists_top (h : a ∈ Q.elems q) : ∃ b, Q.top q = some b := by
  rw [← Option.ne_none_iff_exists']
  intro hnone
  rw [(Q.top_eq_none_iff q).mp hnone] at h
  exact Multiset.notMem_zero a h

/-- After a push the top is what it was, or the element that was pushed. -/
theorem top_push_cases (h : Q.top q = some a) :
    Q.top (Q.push q b) = some a ∨ Q.top (Q.push q b) = some b := by
  rcases le_or_gt (key a) (key b) with hle | hlt
  · exact .inl (Q.top_push q a b h hle)
  · obtain ⟨c, hc⟩ := exists_top (Q := Q) (mem_push.mpr (.inl rfl) : b ∈ Q.elems (Q.push q b))
    -- no element that was there comes before the top, and so none before the new one
    rcases mem_push.mp (top_mem hc) with rfl | hmem
    · exact .inr hc
    · have hcb := Q.top_le _ _ hc b (mem_push.mpr (.inl rfl))
      exact absurd (hcb.trans_lt hlt) (not_lt.mpr (Q.top_le q a h c hmem))

/-- An element that comes before the top takes its place. -/
theorem top_push_ne (hlt : key b < key a) :
    Q.top (Q.push q b) ≠ some a := by
  intro htop
  exact not_lt.mpr (Q.top_le _ _ htop b (mem_push.mpr (.inl rfl))) hlt

/-! ## Sorted lists -/

section Sorted

variable (key)

/-- Insert an element behind all with the same key. -/
def insertAfter (b : α) : List α → List α
  | [] => [b]
  | a :: l => if key b < key a then b :: a :: l else a :: insertAfter b l

variable {key}

theorem insertAfter_perm (b : α) (l : List α) : (insertAfter key b l).Perm (b :: l) := by
  induction l with
  | nil => exact .refl _
  | cons a l ih =>
    rw [insertAfter]
    split
    · exact .refl _
    · exact (ih.cons a).trans (.swap b a l)

theorem pairwise_insertAfter (b : α) {l : List α} (h : l.Pairwise fun x y => key x ≤ key y) :
    (insertAfter key b l).Pairwise fun x y => key x ≤ key y := by
  induction l with
  | nil => exact List.pairwise_singleton _ _
  | cons a l ih =>
    obtain ⟨hhead, htail⟩ := List.pairwise_cons.mp h
    rw [insertAfter]
    split
    · rename_i hlt
      refine List.pairwise_cons.mpr ⟨fun x hx => ?_, h⟩
      rcases List.mem_cons.mp hx with rfl | hx
      · exact hlt.le
      · exact hlt.le.trans (hhead x hx)
    · rename_i hge
      refine List.pairwise_cons.mpr ⟨fun x hx => ?_, ih htail⟩
      rcases List.mem_cons.mp ((insertAfter_perm b l).subset hx) with rfl | hx
      · exact not_lt.mp hge
      · exact hhead x hx

variable (key)

/-- The queue that keeps its elements in order. -/
def sorted : PriorityQueue α key where
  Carrier := { l : List α // l.Pairwise fun x y => key x ≤ key y }
  elems q := q.1
  empty := ⟨[], .nil⟩
  top q := q.1.head?
  push q a := ⟨insertAfter key a q.1, pairwise_insertAfter a q.2⟩
  pop q := ⟨q.1.tail, q.2.tail⟩
  elems_empty := rfl
  top_eq_none_iff q := by
    rw [List.head?_eq_none_iff, Multiset.coe_eq_zero]
  top_le := by
    rintro ⟨l, hl⟩ a htop b hb
    cases l with
    | nil => cases htop
    | cons c l =>
      obtain rfl := Option.some.inj htop
      rcases List.mem_cons.mp (Multiset.mem_coe.mp hb) with rfl | hb
      · exact le_rfl
      · exact (List.pairwise_cons.mp hl).1 b hb
  elems_push q a := Multiset.coe_eq_coe.mpr (insertAfter_perm a q.1)
  elems_pop := by
    rintro ⟨l, hl⟩ a htop
    cases l with
    | nil => cases htop
    | cons c l =>
      obtain rfl := Option.some.inj htop
      rfl
  top_push := by
    rintro ⟨l, hl⟩ a b htop hle
    cases l with
    | nil => cases htop
    | cons c l =>
      obtain rfl := Option.some.inj htop
      simp only [insertAfter, if_neg (not_lt.mpr hle), List.head?_cons]

end Sorted

end PriorityQueue

end CS
