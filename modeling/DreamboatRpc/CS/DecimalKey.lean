import Mathlib.Algebra.Order.Ring.Int
import Mathlib.Data.List.Basic

/-!
# Keys made of a text and a number

A text and an integer, written in decimal, are joined with a separator between them. Whatever the
text is, both can be read back as long as no integer is written with the separator.

## Main results

* `toString_injective` — integers with the same text are equal
* `append_cons_inj_right` — the last separator tells what is before it from what is behind
* `join_inj` — a joined key has one text and one number
-/

namespace CS

/-! ## Decimal numbers -/

/-- The decimal digits of a number give it back. -/
theorem natRepr_injective : Function.Injective Nat.repr := by
  intro m n h
  have hdigits := congrArg String.toList h
  rw [Nat.toList_repr, Nat.toList_repr] at hdigits
  have hvalue := congrArg (fun l => Nat.ofDigitChars 10 l 0) hdigits
  simpa only [Nat.ofDigitChars_ten_toDigits] using hvalue

theorem isDigit_of_mem_repr {n : ℕ} {c : Char} (h : c ∈ n.repr.toList) : c.isDigit := by
  rw [Nat.toList_repr] at h
  exact Nat.isDigit_of_mem_toDigits (by decide) (by decide) h

/-- The text of an integer is that of its absolute value, behind a sign if it is negative. -/
theorem toList_toString (a : ℤ) : (toString a).toList =
    (if 0 ≤ a then [] else ['-']) ++ a.natAbs.repr.toList := by
  rw [Int.toString_eq_repr, Int.repr_eq_if]
  split
  · have habs : a.toNat = a.natAbs := by omega
    rw [habs, List.nil_append]
  · have habs : (-a).toNat = a.natAbs := by omega
    rw [habs, String.toList_append]
    rfl

/-- An integer is written with digits and a sign. -/
theorem not_mem_toString {c : Char} (hdigit : ¬ c.isDigit) (hsign : c ≠ '-') (a : ℤ) :
    c ∉ (toString a).toList := by
  rw [toList_toString]
  intro hmem
  rcases List.mem_append.mp hmem with hmem | hmem
  · split at hmem
    · cases hmem
    · exact hsign (List.mem_singleton.mp hmem)
  · exact hdigit (isDigit_of_mem_repr hmem)

theorem toString_injective : Function.Injective (toString : ℤ → String) := by
  intro a b h
  have hlist := congrArg String.toList h
  rw [toList_toString, toList_toString] at hlist
  have hsame : a.natAbs.repr.toList = b.natAbs.repr.toList → a.natAbs = b.natAbs :=
    fun heq => natRepr_injective (String.toList_inj.mp heq)
  have hsign : ∀ n : ℕ, ∀ l, n.repr.toList ≠ '-' :: l := by
    intro n l heq
    have hdigit : '-' ∈ n.repr.toList := heq ▸ List.mem_cons_self ..
    exact absurd (isDigit_of_mem_repr hdigit) (by decide)
  split at hlist <;> split at hlist
  · have habs := hsame hlist
    omega
  · exact absurd hlist (hsign _ _)
  · exact absurd hlist.symm (hsign _ _)
  · have habs := hsame (List.append_cancel_left hlist)
    omega

/-! ## Separators -/

section Separator

variable {α : Type*} {c : α} {l l' r r' : List α}

/-- Two lists that are cut at the last `c` are cut at the same place. -/
theorem append_cons_inj_right (hr : c ∉ r) (hr' : c ∉ r') (h : l ++ c :: r = l' ++ c :: r') :
    l = l' ∧ r = r' := by
  -- what one cut has in addition lies behind the other and so has no `c`
  rcases List.append_eq_append_iff.mp h with ⟨m, hl', hm⟩ | ⟨m, hl, hm⟩
  · cases m with
    | nil =>
      rw [List.nil_append, List.cons.injEq] at hm
      exact ⟨by rw [hl', List.append_nil], hm.2⟩
    | cons d m =>
      rw [List.cons_append, List.cons.injEq] at hm
      exact absurd (hm.2 ▸ List.mem_append_right m (List.mem_cons_self ..)) hr
  · cases m with
    | nil =>
      rw [List.nil_append, List.cons.injEq] at hm
      exact ⟨by rw [hl, List.append_nil], hm.2.symm⟩
    | cons d m =>
      rw [List.cons_append, List.cons.injEq] at hm
      exact absurd (hm.2 ▸ List.mem_append_right m (List.mem_cons_self ..)) hr'

end Separator

/-- A text and a number joined by a character that no number is written with. -/
theorem join_inj {c : Char} (hdigit : ¬ c.isDigit) (hsign : c ≠ '-') {s s' : String} {a a' : ℤ} :
    s ++ String.singleton c ++ toString a = s' ++ String.singleton c ++ toString a' ↔
      s = s' ∧ a = a' := by
  constructor
  · intro h
    have hlist := congrArg String.toList h
    simp only [String.toList_append, String.toList_singleton, List.append_assoc,
      List.singleton_append] at hlist
    obtain ⟨htext, hnumber⟩ := append_cons_inj_right (not_mem_toString hdigit hsign a)
      (not_mem_toString hdigit hsign a') hlist
    exact ⟨String.toList_inj.mp htext, toString_injective (String.toList_inj.mp hnumber)⟩
  · rintro ⟨rfl, rfl⟩
    rfl

end CS
