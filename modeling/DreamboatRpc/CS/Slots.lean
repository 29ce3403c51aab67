import Mathlib.Data.List.FinRange
import Mathlib.Logic.Function.Basic

/-!
# Slots

A fixed number of slots, each of which is free or holds one thing: the threads of a pool
with what they work on. To say how many things of a kind there are, the contents of all
slots are listed; a change of one slot changes the list in one place.

## Main definitions

* `contents` — what the slots hold

## Main results

* `contents_update` — the contents before and after a change of one slot
* `eq_of_nodup_contents` — things that are told apart are in one slot at most
-/

namespace CS

variable {n : ℕ} {α β : Type*} {slots : Fin n → Option α} {i j : Fin n} {a b : α}

/-- What the slots hold. -/
def contents (slots : Fin n → Option α) : List α := (List.finRange n).filterMap slots

theorem mem_contents : a ∈ contents slots ↔ ∃ i, slots i = some a := by
  simp [contents]

/-- The contents of the other slots stay when one slot is changed. -/
theorem contents_update (slots : Fin n → Option α) (i : Fin n) (o : Option α) :
    ∃ rest, (contents slots).Perm ((slots i).toList ++ rest) ∧
      (contents (Function.update slots i o)).Perm (o.toList ++ rest) := by
  obtain ⟨before, after, hsplit⟩ := List.append_of_mem (List.mem_finRange i)
  have hnodup := List.nodup_finRange n
  rw [hsplit, List.nodup_middle, List.nodup_cons, List.mem_append, not_or] at hnodup
  obtain ⟨⟨hbefore, hafter⟩, -⟩ := hnodup
  -- slot `i` is listed once
  have hlist : ∀ slots' : Fin n → Option α,
      (contents slots').Perm ((slots' i).toList ++
        (before.filterMap slots' ++ after.filterMap slots')) := by
    intro slots'
    rw [contents, hsplit, List.filterMap_append, List.filterMap_cons]
    cases slots' i with
    | none => simp
    | some a => simp
  have hsame : ∀ l : List (Fin n), i ∉ l →
      l.filterMap (Function.update slots i o) = l.filterMap slots := by
    intro l hl
    apply List.filterMap_congr
    intro j hj
    exact Function.update_of_ne (fun hji => hl (by rwa [← hji])) _ _
  refine ⟨before.filterMap slots ++ after.filterMap slots, hlist slots, ?_⟩
  have hupdate := hlist (Function.update slots i o)
  rwa [Function.update_self, hsame before hbefore, hsame after hafter] at hupdate

/-- If no two of the things have the same mark, one slot at most has a thing of a mark. -/
theorem eq_of_nodup_contents {f : α → β} (h : ((contents slots).map f).Nodup)
    (hi : slots i = some a) (hj : slots j = some b) (hab : f a = f b) : i = j := by
  by_contra hne
  obtain ⟨rest, hperm, hrest⟩ := contents_update slots i none
  have hother : b ∈ rest := by
    have hmem : b ∈ contents (Function.update slots i none) := by
      refine mem_contents.mpr ⟨j, ?_⟩
      rw [Function.update_of_ne (Ne.symm hne), hj]
    simpa using hrest.mem_iff.mp hmem
  rw [(hperm.map f).nodup_iff, hi] at h
  have hnot : f a ∉ rest.map f := by simpa using h.notMem
  exact hnot (hab ▸ List.mem_map_of_mem hother)

end CS
