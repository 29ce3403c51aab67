import Mathlib.Logic.Equiv.Basic
import Mathlib.Order.Lattice

/-!
# Binary heaps

A heap of size `n` is read through a function on indices, of which the first `n` count. Moving
a value up or down changes the order along one path only, so what matters on the way is the
order everywhere but at one index.

## Main definitions

* `parent`, `Under` — the tree that the indices form
* `MinHeap` — no value is below that of its parent
* `OrderedAbove`, `OrderedBelow` — the order while a value moves up, or down

## Main results

* `MinHeap.root_le` — the root is the smallest value
* `OrderedAbove.swap`, `OrderedBelow.descend_iff` — what one move does
-/

namespace CS

/-! ## The tree of indices -/

/-- The parent of an index; the root is its own. -/
def parent (i : ℕ) : ℕ := (i - 1) / 2

/-- `i` is in the subtree of `r`. -/
inductive Under (r : ℕ) : ℕ → Prop
  | refl : Under r r
  | child {i : ℕ} : 0 < i → Under r (parent i) → Under r i

section Tree

variable {r q i k : ℕ}

theorem parent_lt (h : 0 < i) : parent i < i := by
  unfold parent
  omega

/-- The children of an index. -/
theorem parent_eq_iff (h : 0 < i) : parent i = k ↔ i = 2 * k + 1 ∨ i = 2 * k + 2 := by
  unfold parent
  omega

theorem parent_left (k : ℕ) : parent (2 * k + 1) = k := by
  unfold parent
  omega

theorem parent_right (k : ℕ) : parent (2 * k + 2) = k := by
  unfold parent
  omega

theorem Under.le (h : Under r i) : r ≤ i := by
  induction h with
  | refl => exact le_rfl
  | child hpos _ ih => exact ih.trans (parent_lt hpos).le

theorem Under.trans (h : Under r q) (h' : Under q i) : Under r i := by
  induction h' with
  | refl => exact h
  | child hpos _ ih => exact .child hpos ih

theorem under_left (k : ℕ) : Under k (2 * k + 1) :=
  .child (by omega) (by rw [parent_left]; exact .refl)

theorem under_right (k : ℕ) : Under k (2 * k + 2) :=
  .child (by omega) (by rw [parent_right]; exact .refl)

/-- Of two subtrees with an index in common, one is part of the other. -/
theorem Under.comparable (h : Under r i) (h' : Under q i) : Under r q ∨ Under q r := by
  induction h with
  | refl => exact .inr h'
  | @child i hpos hup ih =>
    cases h' with
    | refl => exact .inl (.child hpos hup)
    | child _ hup' => exact ih hup'

/-- The subtrees of the two children have nothing in common. -/
theorem not_under_left_of_right (h : Under (2 * k + 2) i) : ¬ Under (2 * k + 1) i := by
  intro h'
  rcases h.comparable h' with hup | hup
  · have := hup.le
    omega
  · -- the right child would be under the left one, and so would their parent
    generalize hright : 2 * k + 2 = right at hup
    cases hup with
    | refl => omega
    | child _ hup =>
      rw [← hright, parent_right] at hup
      have := hup.le
      omega

end Tree

/-! ## The order -/

variable {α : Type*} [LinearOrder α] {n k i : ℕ} {f g : ℕ → α}

/-- No value is below that of its parent. -/
def MinHeap (n : ℕ) (f : ℕ → α) : Prop := ∀ i, 0 < i → i < n → f (parent i) ≤ f i

instance (n : ℕ) (f : ℕ → α) : Decidable (MinHeap n f) :=
  decidable_of_iff (∀ i < n, 0 < i → f (parent i) ≤ f i)
    ⟨fun h i hpos hlt => h i hlt hpos, fun h i hlt hpos => h i hpos hlt⟩

theorem MinHeap.congr (h : MinHeap n f) (heq : ∀ i < n, g i = f i) : MinHeap n g := by
  intro i hpos hlt
  rw [heq i hlt, heq _ ((parent_lt hpos).trans hlt)]
  exact h i hpos hlt

/-- The root is the smallest value. -/
theorem MinHeap.root_le (h : MinHeap n f) (hi : i < n) : f 0 ≤ f i := by
  induction i using Nat.strong_induction_on with
  | _ i ih =>
    rcases Nat.eq_zero_or_pos i with rfl | hpos
    · exact le_rfl
    · have hup := parent_lt hpos
      exact (ih _ hup (hup.trans hi)).trans (h i hpos hi)

/-! ## A value on its way up -/

/-- The order while the value at `k` moves up: it holds but between `k` and its parent, and the
children of `k` are not below that parent. -/
structure OrderedAbove (n : ℕ) (f : ℕ → α) (k : ℕ) : Prop where
  except : ∀ i, 0 < i → i < n → i ≠ k → f (parent i) ≤ f i
  grand : 0 < k → ∀ i, 0 < i → i < n → parent i = k → f (parent k) ≤ f i

namespace OrderedAbove

/-- A value that was put at the end. -/
theorem of_last (h : MinHeap n f) : OrderedAbove (n + 1) f n where
  except i hpos hlt hne := h i hpos (by omega)
  grand hk i hpos hlt hparent := by
    have := parent_lt hpos
    omega

theorem finish (h : OrderedAbove n f k) (hstop : 0 < k → f (parent k) ≤ f k) :
    MinHeap n f := by
  intro i hpos hlt
  by_cases hi : i = k
  · subst hi
    exact hstop hpos
  · exact h.except i hpos hlt hi

/-- One move up. -/
theorem swap (h : OrderedAbove n f k) (hk : 0 < k) (hlt : k < n) (hgt : f k < f (parent k)) :
    OrderedAbove n (f ∘ Equiv.swap k (parent k)) (parent k) := by
  have hup := parent_lt hk
  generalize hp : parent k = p at *
  have hself : (f ∘ Equiv.swap k p) k = f p := by simp
  have hpar : (f ∘ Equiv.swap k p) p = f k := by simp
  have hother : ∀ i, i ≠ k → i ≠ p → (f ∘ Equiv.swap k p) i = f i := by
    intro i hik hip
    rw [Function.comp_apply, Equiv.swap_apply_of_ne_of_ne hik hip]
  constructor
  · intro i hpos hi hip
    have hiup := parent_lt hpos
    by_cases hik : i = k
    · rw [hik, hself, hp, hpar]
      exact hgt.le
    rw [hother i hik hip]
    by_cases hpk : parent i = k
    · have hgrand := h.grand hk i hpos hi hpk
      rw [hp] at hgrand
      rw [hpk, hself]
      exact hgrand
    by_cases hpp : parent i = p
    · -- the other child is not below the old parent, which is above the moving value
      rw [hpp, hpar]
      have hsibling := h.except i hpos hi hik
      rw [hpp] at hsibling
      exact hgt.le.trans hsibling
    · rw [hother _ hpk hpp]
      exact h.except i hpos hi hik
  · intro hppos i hpos hi hparent
    have hpup := parent_lt hppos
    have hgrand := h.except p hppos (by omega) (by omega)
    have hiup := parent_lt hpos
    rw [hother (parent p) (by omega) (by omega)]
    by_cases hik : i = k
    · rw [hik, hself]
      exact hgrand
    · have hsibling := h.except i hpos hi hik
      rw [hparent] at hsibling
      rw [hother i hik (by omega)]
      exact hgrand.trans hsibling

end OrderedAbove

/-! ## A value on its way down -/

/-- The order while the value at `k` moves down: it holds but between `k` and its children, and
these are not below the parent of `k`. -/
structure OrderedBelow (n : ℕ) (f : ℕ → α) (k : ℕ) : Prop where
  except : ∀ i, 0 < i → i < n → parent i ≠ k → f (parent i) ≤ f i
  grand : 0 < k → ∀ i, 0 < i → i < n → parent i = k → f (parent k) ≤ f i

namespace OrderedBelow

/-- A heap whose root was replaced. -/
theorem of_root (h : MinHeap n f) (heq : ∀ i < n, 0 < i → g i = f i) :
    OrderedBelow n g 0 where
  except i hpos hlt hne := by
    have hup := parent_lt hpos
    rw [heq i hlt hpos, heq _ (hup.trans hlt) (Nat.pos_of_ne_zero hne)]
    exact h i hpos hlt
  grand hk := absurd hk (lt_irrefl 0)

theorem finish (h : OrderedBelow n f k)
    (hstop : ∀ i, 0 < i → i < n → parent i = k → f k ≤ f i) : MinHeap n f := by
  intro i hpos hlt
  by_cases hi : parent i = k
  · rw [hi]
    exact hstop i hpos hlt hi
  · exact h.except i hpos hlt hi

/-- One move down: the values at `k` and its children `c` and `d` are exchanged in some way, and
the move goes on at `c`. The order is kept if and only if what comes to `d` is not above its
children. -/
theorem descend_iff (h : OrderedBelow n f k) {c d : ℕ} (hc : 0 < c) (hck : parent c = k)
    (hd : 0 < d) (hdk : parent d = k) (hcd : c ≠ d)
    (hother : ∀ i, i ≠ k → i ≠ c → i ≠ d → g i = f i)
    (htop : 0 < k → f (parent k) ≤ g k) (hgc : c < n → g k ≤ g c) (hgd : d < n → g k ≤ g d)
    (hbelow : ∀ i, 0 < i → i < n → parent i = c → g k ≤ f i) :
    OrderedBelow n g c ↔ ∀ i, 0 < i → i < n → parent i = d → g d ≤ f i := by
  have hkc : k < c := hck ▸ parent_lt hc
  have hkd : k < d := hdk ▸ parent_lt hd
  have hchild : ∀ i, 0 < i → parent i = k → i = c ∨ i = d := by
    intro i hpos hi
    rw [parent_eq_iff hc] at hck
    rw [parent_eq_iff hd] at hdk
    rw [parent_eq_iff hpos] at hi
    omega
  -- below the children nothing was touched
  have hdeep : ∀ i, 0 < i → parent i = c ∨ parent i = d → g i = f i := by
    intro i hpos hi
    have hup := parent_lt hpos
    refine hother i (by omega) ?_ ?_ <;> rintro rfl <;> omega
  constructor
  · intro hg i hpos hi hparent
    have hord := hg.except i hpos hi (by rw [hparent]; exact hcd.symm)
    rwa [hparent, hdeep i hpos (.inr hparent)] at hord
  · intro hright
    constructor
    · intro i hpos hi hne
      have hup := parent_lt hpos
      by_cases hik : i = k
      · subst hik
        rw [hother (parent i) (by omega) (by omega) (by omega)]
        exact htop hpos
      by_cases hpk : parent i = k
      · rw [hpk]
        rcases hchild i hpos hpk with rfl | rfl
        · exact hgc hi
        · exact hgd hi
      by_cases hpd : parent i = d
      · rw [hpd, hdeep i hpos (.inr hpd)]
        exact hright i hpos hi hpd
      · have hic : i ≠ c := by
          rintro rfl
          exact hpk hck
        have hid : i ≠ d := by
          rintro rfl
          exact hpk hdk
        rw [hother i hik hic hid, hother _ hpk hne hpd]
        exact h.except i hpos hi hpk
    · intro _ i hpos hi hparent
      rw [hck, hdeep i hpos (.inl hparent)]
      exact hbelow i hpos hi hparent

end OrderedBelow

end CS
