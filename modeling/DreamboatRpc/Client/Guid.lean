import Mathlib.Data.Finset.Card
import Mathlib.Data.List.Perm.Basic
import Mathlib.Order.Interval.Finset.Defs
import Mathlib.Data.Int.Interval
import Mathlib.Algebra.Order.Group.Int

/-!
# The allocator of ids

Ids are issued in increasing order, and ids that are no longer used wait in a heap to be
issued again before any new one is. Which of them comes first depends on the order in which
the heap is kept; that no id is lost or issued twice does not.

## Main definitions

* `Guid` — the static members of the allocator
* `Guid.getGuid`, `Guid.recycleGuid` — its two functions
* `Guid.Accounts` — the ids in use and those in the heap are the ids issued so far

## Main results

* `percolateDown_eq` — the loop that percolates down ends
* `Guid.Accounts.getGuid`, `Guid.Accounts.recycleGuid` — what the functions do to the ids in
  use
-/

namespace DreamboatRpc.Client

/-- `MAX_GUID` -/
def maxGuid : ℤ := 1024

/-- The ids to be issued again, and the largest id that was issued. -/
structure Guid where
  heap : List ℤ
  bound : ℤ
  deriving DecidableEq

/-- `GET(i)` -/
def getItem (heap : List ℤ) (i : ℕ) : ℤ := heap.getD i 0

/-! ## The heap -/

/-- One round of percolating down: the heap, and the index at which to go on. A read of
`Heap[nid]` behind the end gives some value `beyond`. -/
def percolateDownOnce (beyond : ℤ) (heap : List ℤ) (nid : ℕ) : List ℤ × ℕ :=
  let nvalue := heap.getD nid beyond
  let lid := 2 * nid + 1
  let rid := lid + 1
  let lvalue := getItem heap lid
  let rvalue := getItem heap rid
  let left := lvalue ≠ 0 ∧ nvalue > lvalue
  let heap₁ := if left then heap.swap nid lid else heap
  let nvalue₁ := if left then lvalue else nvalue
  let nextnid := if left then lid else nid
  -- the right child is compared with what is at the top now
  let right := rvalue ≠ 0 ∧ nvalue₁ > rvalue
  let heap₂ := if right then heap₁.swap nid rid else heap₁
  (heap₂, if right ∧ nextnid = nid then rid else nextnid)

/-- The loop that percolates down, for at most `fuel` rounds. -/
def percolateDown (beyond : ℤ) : ℕ → List ℤ → ℕ → List ℤ
  | 0, heap, _ => heap
  | fuel + 1, heap, nid =>
    let next := percolateDownOnce beyond heap nid
    if next.2 = nid then next.1 else percolateDown beyond fuel next.1 next.2

/-- `Popitem`: the top of the heap, and the heap without it. -/
def popItem (beyond : ℤ) (heap : List ℤ) : ℤ × List ℤ :=
  (getItem heap 0, percolateDown beyond heap.length (heap.swap 0 (heap.length - 1)).dropLast 0)

/-- The loop that percolates up, for at most `fuel` rounds. -/
def percolateUp : ℕ → List ℤ → ℕ → List ℤ
  | 0, heap, _ => heap
  | fuel + 1, heap, nid =>
    let rootid := (nid - 1) / 2
    if nid ≠ 0 ∧ getItem heap rootid > getItem heap nid then
      percolateUp fuel (heap.swap nid rootid) rootid
    else heap

/-- `Pushitem` -/
def pushItem (heap : List ℤ) (id : ℤ) : List ℤ :=
  percolateUp heap.length (heap ++ [id]) heap.length

namespace Guid

/-- Before any id was issued. -/
def init : Guid := ⟨[], 0⟩

/-- `GetGuid()` -/
def getGuid (beyond : ℤ) (g : Guid) : ℤ × Guid :=
  if g.heap = [] then
    if g.bound ≥ maxGuid then (-1, g)
    else (g.bound + 1, { g with bound := g.bound + 1 })
  else
    let item := popItem beyond g.heap
    (item.1, { g with heap := item.2 })

/-- `RecycleGuid(id)` -/
def recycleGuid (g : Guid) (id : ℤ) : Guid := { g with heap := pushItem g.heap id }

end Guid

section Heap

variable {beyond : ℤ} {heap : List ℤ} {nid fuel : ℕ} {id : ℤ}

theorem getItem_eq_zero (h : heap.length ≤ nid) : getItem heap nid = 0 := by
  rw [getItem, List.getD_eq_getElem?_getD, List.getElem?_eq_none h, Option.getD_none]

theorem percolateDownOnce_perm (beyond : ℤ) (heap : List ℤ) (nid : ℕ) :
    (percolateDownOnce beyond heap nid).1.Perm heap := by
  have hswap : ∀ (c : Prop) [Decidable c] (l : List ℤ) (i j : ℕ),
      (if c then l.swap i j else l).Perm l := by
    intro c _ l i j
    split
    · exact List.swap_perm l i j
    · exact .refl l
  exact (hswap _ _ _ _).trans (hswap _ _ _ _)

/-- The loop goes on at a child, or stops. -/
theorem percolateDownOnce_next (beyond : ℤ) (heap : List ℤ) (nid : ℕ) :
    (percolateDownOnce beyond heap nid).2 = nid ∨
    (nid < (percolateDownOnce beyond heap nid).2 ∧
      (percolateDownOnce beyond heap nid).2 < heap.length) := by
  have hin : ∀ i, getItem heap i ≠ 0 → i < heap.length := by
    intro i hi
    by_contra hge
    exact hi (getItem_eq_zero (not_lt.mp hge))
  simp only [percolateDownOnce]
  by_cases hleft : getItem heap (2 * nid + 1) ≠ 0 ∧
      heap.getD nid beyond > getItem heap (2 * nid + 1)
  · -- after a swap with the left child it goes on there, whatever the right one does
    have hlt := hin _ hleft.1
    simp only [if_pos hleft]
    split
    · omega
    · exact .inr ⟨by omega, hlt⟩
  · simp only [if_neg hleft]
    split
    · rename_i hright
      exact .inr ⟨by omega, hin _ hright.1.1⟩
    · exact .inl rfl

theorem percolateDown_perm : (percolateDown beyond fuel heap nid).Perm heap := by
  induction fuel generalizing heap nid with
  | zero => exact .refl _
  | succ fuel ih =>
    simp only [percolateDown]
    split
    · exact percolateDownOnce_perm beyond heap nid
    · exact ih.trans (percolateDownOnce_perm beyond heap nid)

/-- The loop ends: as many rounds as there are indices left are enough. -/
theorem percolateDown_eq (hfuel : heap.length ≤ nid + fuel) (more : ℕ) :
    percolateDown beyond (fuel + 1 + more) heap nid = percolateDown beyond (fuel + 1) heap nid := by
  induction fuel generalizing heap nid with
  | zero =>
    have hstop : (percolateDownOnce beyond heap nid).2 = nid :=
      (percolateDownOnce_next beyond heap nid).resolve_right (by omega)
    rw [Nat.add_right_comm]
    simp only [percolateDown, hstop, if_true]
  | succ fuel ih =>
    rw [Nat.add_right_comm (fuel + 1), percolateDown, percolateDown]
    -- the next round is at a child, with less fuel and fewer indices left
    split
    · rfl
    · rename_i hnext
      obtain hstop | ⟨hlt, -⟩ := percolateDownOnce_next beyond heap nid
      · exact absurd hstop hnext
      · have hlength := (percolateDownOnce_perm beyond heap nid).length_eq
        exact ih (by omega)

/-- The heap holds the item that is popped and those that are left. -/
theorem popItem_perm (hheap : heap ≠ []) :
    ((popItem beyond heap).1 :: (popItem beyond heap).2).Perm heap := by
  set swapped := heap.swap 0 (heap.length - 1) with hswapped
  have hpos : 0 < heap.length := List.length_pos_iff.mpr hheap
  have hne : swapped ≠ [] := by
    rw [← List.length_pos_iff, hswapped, List.length_swap]
    exact hpos
  -- the top was swapped to the end, where it is dropped
  have hlast : swapped.getLast hne = getItem heap 0 := by
    simp only [hswapped, List.getLast_eq_getElem, List.length_swap, List.getElem_swap_right]
    rw [getItem, List.getD_eq_getElem?_getD, List.getElem?_eq_getElem hpos]
    simp [hpos]
  have hperm : (swapped.dropLast ++ [getItem heap 0]).Perm heap := by
    rw [← hlast, List.dropLast_append_getLast]
    exact List.swap_perm heap _ _
  exact (percolateDown_perm.cons _).trans ((List.perm_append_singleton _ _).symm.trans hperm)

theorem percolateUp_perm : (percolateUp fuel heap nid).Perm heap := by
  induction fuel generalizing heap nid with
  | zero => exact .refl _
  | succ fuel ih =>
    simp only [percolateUp]
    split
    · exact ih.trans (List.swap_perm _ _ _)
    · exact .refl _

/-- This loop ends as well: it goes on at smaller indices. -/
theorem percolateUp_eq (hfuel : nid ≤ fuel) (more : ℕ) :
    percolateUp (fuel + more) heap nid = percolateUp fuel heap nid := by
  induction fuel generalizing heap nid with
  | zero =>
    obtain rfl := Nat.le_zero.mp hfuel
    cases more <;> simp [percolateUp]
  | succ fuel ih =>
    rw [Nat.add_right_comm, percolateUp, percolateUp]
    split
    · exact ih (by omega)
    · rfl

theorem pushItem_perm : (pushItem heap id).Perm (id :: heap) :=
  percolateUp_perm.trans (List.perm_append_singleton id heap)

end Heap

/-! ## Ids in use -/

namespace Guid

/-- The ids in use and those in the heap are the ids from 1 to the bound, without
duplicates. -/
structure Accounts (g : Guid) (live : List ℤ) : Prop where
  bound : 0 ≤ g.bound
  nodup : (live ++ g.heap).Nodup
  mem : ∀ id, id ∈ live ++ g.heap ↔ 1 ≤ id ∧ id ≤ g.bound

variable {g : Guid} {live : List ℤ} {id beyond : ℤ}

theorem Accounts.init : Guid.init.Accounts [] := by
  refine ⟨le_rfl, List.nodup_nil, fun id => ?_⟩
  simp only [Guid.init, List.append_nil, List.not_mem_nil, false_iff]
  omega

/-- There are as many ids as the bound says. -/
theorem Accounts.length_eq (h : g.Accounts live) : (live.length + g.heap.length : ℤ) = g.bound := by
  -- as a set they are the interval from 1 to the bound
  have hset : (live ++ g.heap).toFinset = Finset.Icc 1 g.bound := by
    ext id
    rw [List.mem_toFinset, h.mem, Finset.mem_Icc]
  have hcard := List.toFinset_card_of_nodup h.nodup
  rw [hset, Int.card_Icc, List.length_append] at hcard
  have hbound := h.bound
  omega

/-- The same ids in another order. -/
theorem Accounts.of_perm {g' : Guid} {live' : List ℤ} (h : g.Accounts live)
    (hperm : (live' ++ g'.heap).Perm (live ++ g.heap)) (hbound : g'.bound = g.bound) :
    g'.Accounts live' := by
  refine ⟨hbound ▸ h.bound, hperm.nodup_iff.mpr h.nodup, fun id => ?_⟩
  rw [hperm.mem_iff, h.mem, hbound]

/-- `GetGuid` gives an id that is not in use, the next new one if the heap is empty; or none
if all are in use. -/
theorem Accounts.getGuid (h : g.Accounts live) (beyond : ℤ) :
    (g.getGuid beyond = (-1, g) ∧ maxGuid ≤ live.length) ∨
    (1 ≤ (g.getGuid beyond).1 ∧ (g.getGuid beyond).1 ≤ (g.getGuid beyond).2.bound ∧
      (g.getGuid beyond).1 ∉ live ∧
      (g.getGuid beyond).2.Accounts ((g.getGuid beyond).1 :: live) ∧
      ((g.getGuid beyond).2.bound = g.bound ∨
        (g.getGuid beyond).2.bound = live.length + 1)) := by
  have hlength := h.length_eq
  have hbound := h.bound
  unfold Guid.getGuid
  -- a new id, if there is none to be issued again
  by_cases hheap : g.heap = []
  · rw [if_pos hheap]
    rw [hheap, List.length_nil] at hlength
    by_cases hfull : g.bound ≥ maxGuid
    · rw [if_pos hfull]
      exact .inl ⟨rfl, by omega⟩
    · rw [if_neg hfull]
      have hnew : g.bound + 1 ∉ live ++ g.heap := by
        rw [h.mem]
        omega
      refine .inr ⟨by simp only; omega, le_rfl, fun hmem => hnew (List.mem_append_left _ hmem),
        ⟨by simp only; omega, List.nodup_cons.mpr ⟨hnew, h.nodup⟩, fun id => ?_⟩,
        .inr (by simp only; omega)⟩
      rw [List.cons_append, List.mem_cons, h.mem]
      simp only
      omega
  · rw [if_neg hheap]
    -- an id moves from the heap to those in use
    have hperm : (((popItem beyond g.heap).1 :: live) ++ (popItem beyond g.heap).2).Perm
        (live ++ g.heap) :=
      List.perm_middle.symm.trans ((popItem_perm hheap).append_left live)
    have haccounts : ({ g with heap := (popItem beyond g.heap).2 } : Guid).Accounts
        ((popItem beyond g.heap).1 :: live) := h.of_perm hperm rfl
    have hin := (haccounts.mem (popItem beyond g.heap).1).mp (by simp)
    have hnodup := haccounts.nodup
    rw [List.cons_append, List.nodup_cons] at hnodup
    exact .inr ⟨hin.1, hin.2, fun hmem => hnodup.1 (List.mem_append_left _ hmem), haccounts,
      .inl rfl⟩

/-- `RecycleGuid` of an id in use takes it out of use. -/
theorem Accounts.recycleGuid (h : g.Accounts live) (hid : id ∈ live) :
    (g.recycleGuid id).Accounts (live.erase id) := by
  refine h.of_perm ?_ rfl
  have hpush : (live.erase id ++ pushItem g.heap id).Perm (live.erase id ++ id :: g.heap) :=
    pushItem_perm.append_left _
  exact hpush.trans (List.perm_middle.trans ((List.perm_cons_erase hid).symm.append_right g.heap))

end Guid

end DreamboatRpc.Client
