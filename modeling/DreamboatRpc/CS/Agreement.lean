import Mathlib.Data.List.Basic
import Mathlib.Order.MinMax

/-!
# Lists that agree up to an index

Replicated logs are compared up to an index that both of them have. `AgreeTo m l l'`
says that `l` and `l'` reach index `m` and have the same elements up to it. It is a
partial equivalence, decreasing in the index, and insensitive to what is appended.
-/

namespace CS

variable {α : Type*} {l l' l'' x : List α} {m k i : ℕ} {a : α}

/-- Both lists reach index `m`, and they are the same up to it. -/
def AgreeTo (m : ℕ) (l l' : List α) : Prop := m < l.length ∧ ∀ i ≤ m, l[i]? = l'[i]?

namespace AgreeTo

theorem length_left (h : AgreeTo m l l') : m < l.length := h.1

theorem getElem? (h : AgreeTo m l l') (hi : i ≤ m) : l[i]? = l'[i]? := h.2 i hi

theorem length_right (h : AgreeTo m l l') : m < l'.length := by
  have hm := h.getElem? le_rfl
  rw [List.getElem?_eq_getElem h.1] at hm
  exact (List.getElem?_eq_some_iff.mp hm.symm).1

theorem refl (h : m < l.length) : AgreeTo m l l := ⟨h, fun _ _ => rfl⟩

theorem symm (h : AgreeTo m l l') : AgreeTo m l' l :=
  ⟨h.length_right, fun i hi => (h.2 i hi).symm⟩

theorem trans (h : AgreeTo m l l') (h' : AgreeTo m l' l'') : AgreeTo m l l'' :=
  ⟨h.1, fun i hi => (h.2 i hi).trans (h'.2 i hi)⟩

theorem mono (h : AgreeTo m l l') (hk : k ≤ m) : AgreeTo k l l' :=
  ⟨hk.trans_lt h.1, fun i hi => h.2 i (hi.trans hk)⟩

/-- Lists that agree up to their last index are the same. -/
theorem eq_of_length (h : AgreeTo m l l') (hl : l.length = m + 1) (hl' : l'.length = m + 1) :
    l = l' := by
  apply List.ext_getElem?
  intro i
  by_cases hi : i ≤ m
  · exact h.2 i hi
  · rw [List.getElem?_eq_none (by omega), List.getElem?_eq_none (by omega)]

/-- Lists with the same front agree up to its end. -/
theorem of_take (hm : m < l.length) (h : l.take (m + 1) = l'.take (m + 1)) : AgreeTo m l l' := by
  refine ⟨hm, fun i hi => ?_⟩
  rw [← List.getElem?_take_of_lt (j := m + 1) (by omega), h,
    List.getElem?_take_of_lt (by omega)]

/-- What a list is extended by does not matter to where it agreed before. -/
theorem of_extended (h : AgreeTo m l l') (hp : l' <+: l'') : AgreeTo m l l'' := by
  refine ⟨h.1, fun i hi => ?_⟩
  have hlt : i < l'.length := hi.trans_lt h.length_right
  obtain ⟨t, rfl⟩ := hp
  rw [h.2 i hi, List.getElem?_append_left hlt]

theorem of_extended_left (h : AgreeTo m l l') (hp : l <+: l'') : AgreeTo m l'' l' :=
  (h.symm.of_extended hp).symm

/-- Lists that agree up to `k` agree up to `k + 1` after the first is cut there and gets
the next element of the second. -/
theorem cut_append (h : AgreeTo k l l') (ha : l'[k + 1]? = some a) :
    AgreeTo (k + 1) (l.take (k + 1) ++ [a]) l' := by
  have hlen : (l.take (k + 1)).length = k + 1 := by
    rw [List.length_take]
    exact min_eq_left h.1
  refine ⟨by simp [hlen], fun i hi => ?_⟩
  rcases hi.lt_or_eq with hlt | rfl
  · rw [List.getElem?_append_left (by omega), List.getElem?_take_of_lt hlt]
    exact h.2 i (by omega)
  · rw [List.getElem?_append_right (by omega), ha]
    simp [hlen]

/-- A cut beyond an index, and what is appended after it, keeps the agreement there. -/
theorem of_cut (h : AgreeTo m l l') (hk : m < k) : AgreeTo m (l.take k ++ x) l' := by
  have hlen : m < (l.take k).length := by
    rw [List.length_take]
    exact lt_min hk h.1
  refine ⟨by rw [List.length_append]; omega, fun i hi => ?_⟩
  rw [List.getElem?_append_left (by omega), List.getElem?_take_of_lt (by omega)]
  exact h.2 i hi

end AgreeTo

/-- The elements of a list that was cut behind an index and got a new element there. -/
theorem getElem?_cut_append (hk : k < l.length) :
    (l.take (k + 1) ++ [a])[i]? = if i ≤ k then l[i]? else if i = k + 1 then some a else none := by
  have hcut : (l.take (k + 1)).length = k + 1 := by
    rw [List.length_take]
    omega
  split
  · rw [List.getElem?_append_left (by omega), List.getElem?_take_of_lt (by omega)]
  · rw [List.getElem?_append_right (by omega), hcut, List.getElem?_singleton]
    split <;> split <;> first | rfl | omega

/-- Cutting a list behind an index and putting back the element that was there. -/
theorem cut_append_eq_self (hlen : l.length ≤ k + 2) (ha : l[k + 1]? = some a) :
    l.take (k + 1) ++ [a] = l := by
  apply List.ext_getElem?
  intro i
  have hlt : k + 1 < l.length := (List.getElem?_eq_some_iff.mp ha).1
  have hcut : (l.take (k + 1)).length = k + 1 := by
    rw [List.length_take]
    omega
  -- before the cut, at the element put back, and behind the end of both
  rcases lt_trichotomy i (k + 1) with hi | rfl | hi
  · rw [List.getElem?_append_left (by omega), List.getElem?_take_of_lt hi]
  · rw [List.getElem?_append_right (by omega), ha]
    simp [hcut]
  · rw [List.getElem?_eq_none (by simp [hcut]; omega), List.getElem?_eq_none (by omega)]

/-- When the front of a list survives a cut behind index `k` and a new element there. -/
theorem take_prefix_cut_iff {c : ℕ} (hk : k < l.length) :
    l.take (c + 1) <+: l.take (k + 1) ++ [a] ↔
      c ≤ k ∨ l.length ≤ k + 1 ∨ ((c = k + 1 ∨ l.length = k + 2) ∧ l[k + 1]? = some a) := by
  have hcut : (l.take (k + 1)).length = k + 1 := by
    rw [List.length_take]
    omega
  constructor
  · intro hprefix
    have hlen := hprefix.length_le
    rw [List.length_take, List.length_append, hcut, List.length_singleton] at hlen
    by_cases hshort : c ≤ k ∨ l.length ≤ k + 1
    · exact hshort.elim .inl fun h => .inr (.inl h)
    · refine .inr (.inr ⟨by omega, ?_⟩)
      -- the front reaches the cut, where the new element must be the old one
      have hlast : (l.take (c + 1))[k + 1]? = l[k + 1]? := by
        rw [List.getElem?_take_of_lt (by omega)]
      have hin : k + 1 < (l.take (c + 1)).length := by
        rw [List.length_take]
        omega
      have hsame := List.prefix_iff_getElem?.mp hprefix (k + 1) hin
      rw [List.getElem?_append_right (by omega), hcut, Nat.sub_self] at hsame
      rw [← hlast, List.getElem?_eq_getElem hin, ← hsame]
      rfl
  · rintro (hck | hlen | ⟨hend, ha⟩)
    · have htake : l.take (c + 1) <+: l.take (k + 1) := List.take_prefix_take_left (by omega)
      exact htake.trans (List.prefix_append _ _)
    · rw [List.take_of_length_le hlen]
      exact (List.take_prefix _ _).trans (List.prefix_append _ _)
    · have hcut' : l.take (k + 1) ++ [a] = l.take (k + 2) := by
        rw [List.take_add_one (i := k + 1), ha]
        rfl
      -- the old element is back in its place, so the list is cut one place later
      rw [hcut']
      rcases hend with rfl | hlen
      · exact List.prefix_rfl
      · rw [List.take_of_length_le hlen.le]
        exact List.take_prefix _ _

end CS
