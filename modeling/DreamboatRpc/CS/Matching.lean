import DreamboatRpc.CS.Agreement

/-!
# Lists that match a record

Copies of lists that only grow, one list for every key. A list matches the record if each
of its elements past the first, with all before it, is as on record under the key of that
element. Two such lists agree up to every index at which they have elements of one key:
a single element stands for everything before it.

## Main definitions

* `Matching` — a list matches a record of lists

## Main results

* `Matching.agreeTo` — two matching lists with elements of one key at an index
* `Matching.extend`, `Matching.append`, `Matching.of_agreeTo` — growing records, growing
  lists and copies
-/

namespace CS

variable {α κ : Type*} {key : α → κ} {R R' : κ → List α} {l l' x : List α} {i m : ℕ} {a : α}
  {u : κ}

/-- An element past the first, with all before it, is as on record under its key. -/
def Matching (key : α → κ) (R : κ → List α) (l : List α) : Prop :=
  ∀ i a, 1 ≤ i → l[i]? = some a → AgreeTo i (R (key a)) l

namespace Matching

theorem singleton : Matching key R [a] := by
  intro i b hi hb
  have hlt := (List.getElem?_eq_some_iff.mp hb).1
  rw [List.length_singleton] at hlt
  omega

theorem nil : Matching key R [] := fun i b _ hb => by simp at hb

/-- An element of one key at one index fixes everything before it. -/
theorem agreeTo (h : Matching key R l) (h' : Matching key R l') (hhead : l[0]? = l'[0]?)
    (hl : (l[i]?).map key = some u) (hl' : (l'[i]?).map key = some u) : AgreeTo i l l' := by
  obtain ⟨a, ha, hau⟩ := Option.map_eq_some_iff.mp hl
  obtain ⟨b, hb, hbu⟩ := Option.map_eq_some_iff.mp hl'
  rcases Nat.eq_zero_or_pos i with rfl | hi
  · refine ⟨(List.getElem?_eq_some_iff.mp ha).1, fun j hj => ?_⟩
    rw [Nat.le_zero.mp hj, hhead]
  · -- both lists agree with the one on record under their common key
    have hagree := h i a hi ha
    have hagree' := h' i b hi hb
    rw [hau] at hagree
    rw [hbu] at hagree'
    exact hagree.symm.trans hagree'

/-- The lists on record may grow. -/
theorem extend (h : Matching key R l) (hR : ∀ u, R u <+: R' u) : Matching key R' l :=
  fun i a hi ha => (h i a hi ha).of_extended_left (hR _)

/-- What is appended must be on record already. -/
theorem append (h : Matching key R l) (hx : ∀ a ∈ x, R (key a) = l ++ x) :
    Matching key R (l ++ x) := by
  intro i a hi ha
  by_cases hlt : i < l.length
  · rw [List.getElem?_append_left hlt] at ha
    exact (h i a hi ha).of_extended (List.prefix_append _ _)
  · -- an element that was appended is on record with the whole list
    have hin := (List.getElem?_eq_some_iff.mp ha).1
    rw [List.getElem?_append_right (by omega)] at ha
    rw [hx a (List.mem_of_getElem? ha)]
    exact .refl hin

/-- A copy of the front of a list that matches. -/
theorem of_agreeTo (h : Matching key R l) (hagree : AgreeTo m l' l) (hlen : l'.length = m + 1) :
    Matching key R l' := by
  intro i a hi ha
  have hin := (List.getElem?_eq_some_iff.mp ha).1
  have hle : i ≤ m := by omega
  rw [hagree.getElem? hle] at ha
  exact (h i a hi ha).trans (hagree.mono hle).symm

end Matching

end CS
