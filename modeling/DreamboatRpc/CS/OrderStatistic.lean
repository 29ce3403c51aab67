import Mathlib.Data.Finset.Max
import Mathlib.Data.Fintype.Card
import Mathlib.Order.Bounds.Basic

/-!
# The values a given number of members of a family reach

A family of indices is asked for the largest of them that at least `m` members reach: its
order statistic from above. When that is simply the smallest of all can be told by counting
the members that exceed the smallest.

## Main definitions

* `reachedBy` — the values of a family that at least `m` of its members reach

## Main results

* `isGreatest_reachedBy_iff` — the smallest value is the largest one that `m` members reach
  iff fewer than `m` members exceed it
-/

namespace CS

open Finset

variable {ι α : Type*} [Fintype ι] [LinearOrder α] {m : ℕ} {f : ι → α} {a b : α}

/-- The values of `f` that at least `m` members reach. -/
def reachedBy (m : ℕ) (f : ι → α) : Set α :=
  {a | a ∈ Set.range f ∧ m ≤ #{i | a ≤ f i}}

/-- All members reach the smallest value. -/
theorem card_ge_of_isLeast (h : IsLeast (Set.range f) a) : #{i | a ≤ f i} = Fintype.card ι := by
  rw [Finset.card_eq_iff_eq_univ]
  ext i
  simpa using h.2 (Set.mem_range_self i)

theorem card_ge_le_card_gt (h : a < b) : #{i | b ≤ f i} ≤ #{i | a < f i} := by
  apply Finset.card_le_card
  intro i hi
  simp only [mem_filter, mem_univ, true_and] at hi ⊢
  exact h.trans_le hi

/-- If some members exceed `a`, all of them reach the smallest value among theirs. -/
theorem exists_mem_reachedBy_of_gt (hm : 0 < m) (h : m ≤ #{i | a < f i}) :
    ∃ b ∈ reachedBy m f, a < b := by
  have hnonempty : (univ.filter fun i => a < f i).Nonempty :=
    Finset.card_pos.mp (hm.trans_le h)
  obtain ⟨i, hi, hmin⟩ := Finset.exists_min_image _ f hnonempty
  refine ⟨f i, ⟨Set.mem_range_self i, h.trans (Finset.card_le_card ?_)⟩, by simpa using hi⟩
  intro j hj
  simpa using hmin j hj

/-- The smallest value is the largest that `m` members reach iff fewer than `m` exceed it. -/
theorem isGreatest_reachedBy_iff (h : IsLeast (Set.range f) a) (hpos : 0 < m)
    (hm : m ≤ Fintype.card ι) :
    IsGreatest (reachedBy m f) a ↔ #{i | a < f i} < m := by
  constructor
  · intro hgreatest
    by_contra hge
    obtain ⟨b, hb, hlt⟩ := exists_mem_reachedBy_of_gt hpos (not_lt.mp hge)
    exact absurd (hgreatest.2 hb) (not_le.mpr hlt)
  · intro hlt
    refine ⟨⟨h.1, by rwa [card_ge_of_isLeast h]⟩, fun b hb => ?_⟩
    -- a larger value has no more members than exceed the smallest
    by_contra hba
    have hcard := card_ge_le_card_gt (f := f) (not_le.mp hba)
    have hreached := hb.2
    omega

end CS
