import DreamboatRpc.Client.Allocation
import Mathlib.Algebra.Order.Ring.Int

/-!
# The indices of the heap loops

The loops of the allocator walk along parent and child links with an index of type `int`, in a
vector that was made one shorter or longer just before. Here they run once more, with every
access `Heap[i]` written down together with the size of the vector at that moment.

## Main definitions

* `HeapAccess` — an access, inside the vector or not
* `downRound`, `upRound` — one round of either loop, with its accesses
* `Guid.call` — a call whose loop makes a number of rounds
* `heapSystem` — any calls, with any ids

## Main results

* `downRound_nat`, `upRound_nat` — the rounds are those of `percolateDownOnce` and
  `percolateUp`
* `popped_inside_iff`, `pushed_inside_iff` — when all accesses of a loop are inside
* `heap_index_safety` — which calls stay inside the vector
-/

namespace DreamboatRpc.Client

open CS

/-- A number as a 32-bit `int`. -/
def toInt (n : ℤ) : ℤ := n.bmod (2 ^ 32)

theorem toInt_eq {n : ℤ} (hlo : -2 ^ 31 ≤ n) (hhi : n < 2 ^ 31) : toInt n = n := by
  rw [toInt, Int.bmod_def]
  omega

theorem toInt_bounds (n : ℤ) : -2 ^ 31 ≤ toInt n ∧ toInt n < 2 ^ 31 := by
  rw [toInt, Int.bmod_def]
  omega

/-- The sizes that do not turn negative as an `int`. -/
theorem toInt_nonneg_iff (n : ℕ) : 0 ≤ toInt n ↔ n % 2 ^ 32 < 2 ^ 31 := by
  rw [toInt, Int.bmod_def]
  omega

theorem toInt_le_self (n : ℕ) : toInt n ≤ n := by
  rw [toInt, Int.bmod_def]
  omega

/-- An access `Heap[i]`, and `Heap.size()` at that moment. -/
structure HeapAccess where
  index : ℤ
  size : ℕ
  deriving DecidableEq

/-- The index is one of the vector. -/
def HeapAccess.Inside (a : HeapAccess) : Prop := 0 ≤ a.index ∧ a.index < a.size

instance (a : HeapAccess) : Decidable a.Inside := inferInstanceAs (Decidable (_ ∧ _))

/-! ## Reading and writing by index -/

/-- `Heap[i]`; outside the vector it gives some value `beyond`. -/
def readItem (beyond : ℤ) (heap : List ℤ) (i : ℤ) : ℤ :=
  if 0 ≤ i ∧ i < heap.length then heap.getD i.toNat beyond else beyond

/-- `GET(i)`: a negative `i`, taken as a `size_t`, is larger than every size. -/
def guardedItem (heap : List ℤ) (i : ℤ) : ℤ :=
  if 0 ≤ i ∧ i < heap.length then heap.getD i.toNat 0 else 0

/-- The access that `GET(i)` makes. -/
def guardedAccess (heap : List ℤ) (i : ℤ) : List HeapAccess :=
  if 0 ≤ i ∧ i < heap.length then [⟨i, heap.length⟩] else []

/-- `std::swap(Heap[i], Heap[j])`. Nothing is said of what is written outside. -/
def swapItems (heap : List ℤ) (i j : ℤ) : List ℤ :=
  if (0 ≤ i ∧ i < heap.length) ∧ 0 ≤ j ∧ j < heap.length then heap.swap i.toNat j.toNat else heap

/-- What a round of a loop leaves: the heap, the index to go on at, and its accesses. -/
structure HeapRound where
  heap : List ℤ
  nid : ℤ
  accesses : List HeapAccess
  deriving DecidableEq

/-- One round of percolating down. -/
def downRound (beyond : ℤ) (heap : List ℤ) (nid : ℤ) : HeapRound :=
  let nvalue := readItem beyond heap nid
  let lid := toInt (toInt (2 * nid) + 1)
  let rid := toInt (lid + 1)
  let lvalue := guardedItem heap lid
  let rvalue := guardedItem heap rid
  let left := lvalue ≠ 0 ∧ nvalue > lvalue
  let heap₁ := if left then swapItems heap nid lid else heap
  let nvalue₁ := if left then lvalue else nvalue
  let nextnid := if left then lid else nid
  let right := rvalue ≠ 0 ∧ nvalue₁ > rvalue
  let heap₂ := if right then swapItems heap₁ nid rid else heap₁
  { heap := heap₂
    nid := if right ∧ nextnid = nid then rid else nextnid
    accesses := [⟨nid, heap.length⟩] ++ guardedAccess heap lid ++ guardedAccess heap rid ++
      (if left then [⟨nid, heap.length⟩, ⟨lid, heap.length⟩] else []) ++
      (if right then [⟨nid, heap₁.length⟩, ⟨rid, heap₁.length⟩] else []) }

/-- One round of percolating up, at an index that is not 0; the index stays where the loop
ends. -/
def upRound (beyond : ℤ) (heap : List ℤ) (nid : ℤ) : HeapRound :=
  let rootid := (toInt (nid - 1)).tdiv 2
  if readItem beyond heap rootid > readItem beyond heap nid then
    { heap := swapItems heap nid rootid
      nid := rootid
      accesses := [⟨rootid, heap.length⟩, ⟨nid, heap.length⟩, ⟨nid, heap.length⟩,
        ⟨rootid, heap.length⟩] }
  else ⟨heap, nid, [⟨rootid, heap.length⟩, ⟨nid, heap.length⟩]⟩

/-- What a loop has done so far: the heap, all accesses, and whether the loop has ended. -/
structure HeapLoop where
  heap : List ℤ
  accesses : List HeapAccess
  ended : Bool
  deriving DecidableEq

/-- The first rounds of percolating down. -/
def downRounds (beyond : ℤ) : ℕ → List ℤ → ℤ → HeapLoop
  | 0, heap, _ => ⟨heap, [], false⟩
  | rounds + 1, heap, nid =>
    let round := downRound beyond heap nid
    if round.nid = nid then ⟨round.heap, round.accesses, true⟩
    else
      let rest := downRounds beyond rounds round.heap round.nid
      { rest with accesses := round.accesses ++ rest.accesses }

/-- The first rounds of percolating up. -/
def upRounds (beyond : ℤ) : ℕ → List ℤ → ℤ → HeapLoop
  | 0, heap, nid => ⟨heap, [], nid = 0⟩
  | rounds + 1, heap, nid =>
    if nid = 0 then ⟨heap, [], true⟩
    else
      let round := upRound beyond heap nid
      if round.nid = nid then ⟨round.heap, round.accesses, true⟩
      else
        let rest := upRounds beyond rounds round.heap round.nid
        { rest with accesses := round.accesses ++ rest.accesses }

/-- `Popitem`, its loop for so many rounds: the item that was at the top, and the rest. -/
def popRounds (beyond : ℤ) (rounds : ℕ) (heap : List ℤ) : ℤ × HeapLoop :=
  let shorter := (heap.swap 0 (heap.length - 1)).dropLast
  let loop := downRounds beyond rounds shorter 0
  (readItem beyond heap 0, { loop with accesses := ⟨0, heap.length⟩ :: loop.accesses })

/-- `Pushitem`, its loop for so many rounds. -/
def pushRounds (beyond : ℤ) (rounds : ℕ) (heap : List ℤ) (id : ℤ) : HeapLoop :=
  let longer := heap ++ [id]
  upRounds beyond rounds longer (toInt (longer.length - 1))

section Access

variable {beyond i j nid : ℤ} {heap : List ℤ} {a : HeapAccess}

@[simp] theorem swapItems_length : (swapItems heap i j).length = heap.length := by
  unfold swapItems
  split
  · exact List.length_swap
  · rfl

theorem guardedAccess_inside (h : a ∈ guardedAccess heap i) : a.Inside := by
  unfold guardedAccess at h
  split at h
  · rename_i hinside
    rw [List.mem_singleton.mp h]
    exact hinside
  · simp at h

/-- What `GET` finds is in the vector. -/
theorem inside_of_guardedItem (h : guardedItem heap i ≠ 0) : 0 ≤ i ∧ i < heap.length := by
  unfold guardedItem at h
  by_contra hout
  exact h (if_neg hout)

/-! ### Percolating down -/

@[simp] theorem downRound_length : (downRound beyond heap nid).heap.length = heap.length := by
  simp only [downRound]
  split <;> split <;> simp

/-- The round goes on where it is, or at an index that `GET` found in the vector. -/
theorem downRound_next : (downRound beyond heap nid).nid = nid ∨
    (0 ≤ (downRound beyond heap nid).nid ∧ (downRound beyond heap nid).nid < heap.length) := by
  simp only [downRound]
  split_ifs with hleft hright hright
  · exact .inr (inside_of_guardedItem hright.1.1)
  · exact .inr (inside_of_guardedItem hleft.1)
  · exact .inr (inside_of_guardedItem hright.1.1)
  · exact .inl rfl

theorem swapped_inside {c : Prop} [Decidable c] {size : ℕ} (hi : 0 ≤ i ∧ i < size)
    (hj : c → 0 ≤ j ∧ j < size)
    (h : a ∈ if c then [(⟨i, size⟩ : HeapAccess), ⟨j, size⟩] else []) : a.Inside := by
  split at h
  · rename_i hc
    rcases List.mem_pair.mp h with rfl | rfl
    · exact hi
    · exact hj hc
  · simp at h

/-- Apart from `Heap[nid]` a round reads and writes what `GET` found. -/
theorem downRound_inside_iff :
    (∀ a ∈ (downRound beyond heap nid).accesses, a.Inside) ↔ 0 ≤ nid ∧ nid < heap.length := by
  constructor
  · intro hall
    exact hall ⟨nid, heap.length⟩ (by simp [downRound])
  · intro hnid a ha
    have hlen : ∀ (c : Prop) [Decidable c] (k : ℤ),
        (if c then swapItems heap nid k else heap).length = heap.length := by
      intro c _ k
      split <;> simp
    simp only [downRound, List.mem_append, List.mem_singleton, hlen] at ha
    rcases ha with (((rfl | hleft) | hright) | hswap) | hswap
    · exact hnid
    · exact guardedAccess_inside hleft
    · exact guardedAccess_inside hright
    · exact swapped_inside hnid (fun hleft => inside_of_guardedItem hleft.1) hswap
    · exact swapped_inside hnid (fun hright => inside_of_guardedItem hright.1) hswap

/-- An index in the vector leads to indices in the vector. -/
theorem downRounds_inside (rounds : ℕ) (hnid : 0 ≤ nid ∧ nid < heap.length) :
    ∀ a ∈ (downRounds beyond rounds heap nid).accesses, a.Inside := by
  induction rounds generalizing heap nid with
  | zero => simp [downRounds]
  | succ rounds ih =>
    have hround : ∀ a ∈ (downRound beyond heap nid).accesses, a.Inside :=
      downRound_inside_iff.mpr hnid
    simp only [downRounds]
    split
    · exact hround
    · rename_i hnext
      have hinside := downRound_next.resolve_left hnext
      have hlength : (downRound beyond heap nid).heap.length = heap.length := downRound_length
      rw [← hlength] at hinside
      intro a ha
      rcases List.mem_append.mp ha with ha | ha
      · exact hround a ha
      · exact ih hinside a ha

/-- The first access of the loop is `Heap[nid]`. -/
theorem mem_downRounds (rounds : ℕ) :
    ⟨nid, heap.length⟩ ∈ (downRounds beyond (rounds + 1) heap nid).accesses := by
  have hfirst : ⟨nid, heap.length⟩ ∈ (downRound beyond heap nid).accesses := by
    simp [downRound]
  simp only [downRounds]
  split
  · exact hfirst
  · exact List.mem_append_left _ hfirst

/-- `Popitem` stays inside unless the vector is empty after the removal. -/
theorem popped_inside_iff (hheap : heap ≠ []) :
    (∀ rounds, ∀ a ∈ (popRounds beyond rounds heap).2.accesses, a.Inside) ↔ heap.length ≠ 1 := by
  have hpos := List.length_pos_iff.mpr hheap
  have hlen : (heap.swap 0 (heap.length - 1)).dropLast.length = heap.length - 1 := by
    rw [List.length_dropLast, List.length_swap]
  constructor
  · intro hall hone
    have hmem : (⟨0, heap.length - 1⟩ : HeapAccess) ∈ (popRounds beyond 1 heap).2.accesses := by
      rw [← hlen]
      exact List.mem_cons_of_mem _ (mem_downRounds 0)
    obtain ⟨-, hlt⟩ := hall 1 _ hmem
    simp only at hlt
    omega
  · intro hone rounds a ha
    rcases List.mem_cons.mp ha with rfl | ha
    · exact ⟨le_rfl, by simp only; omega⟩
    · exact downRounds_inside rounds ⟨le_rfl, by omega⟩ a ha

/-! ### Percolating up -/

/-- The parent of an index is a smaller index. -/
theorem root_bounds (hpos : 0 < nid) (hint : nid < 2 ^ 31) :
    0 ≤ (toInt (nid - 1)).tdiv 2 ∧ (toInt (nid - 1)).tdiv 2 < nid := by
  rw [toInt_eq (by omega) (by omega), Int.tdiv_eq_ediv_of_nonneg (by omega)]
  omega

theorem mem_upRound : ⟨nid, heap.length⟩ ∈ (upRound beyond heap nid).accesses := by
  simp only [upRound]
  split <;> simp

@[simp] theorem upRound_length : (upRound beyond heap nid).heap.length = heap.length := by
  simp only [upRound]
  split <;> simp

theorem upRound_inside (hnid : 0 < nid ∧ nid < heap.length) (hint : nid < 2 ^ 31) :
    ∀ a ∈ (upRound beyond heap nid).accesses, a.Inside := by
  obtain ⟨hlo, hhi⟩ := root_bounds hnid.1 hint
  have hself : (⟨nid, heap.length⟩ : HeapAccess).Inside := ⟨hnid.1.le, hnid.2⟩
  have hroot : (⟨(toInt (nid - 1)).tdiv 2, heap.length⟩ : HeapAccess).Inside :=
    ⟨hlo, hhi.trans hnid.2⟩
  simp only [upRound]
  split <;> simp [hself, hroot]

/-- The round goes on where it is, or at the parent. -/
theorem upRound_next : (upRound beyond heap nid).nid = nid ∨
    (upRound beyond heap nid).nid = (toInt (nid - 1)).tdiv 2 := by
  simp only [upRound]
  split
  · exact .inr rfl
  · exact .inl rfl

theorem upRounds_inside (rounds : ℕ) (hnid : 0 ≤ nid ∧ nid < heap.length) (hint : nid < 2 ^ 31) :
    ∀ a ∈ (upRounds beyond rounds heap nid).accesses, a.Inside := by
  induction rounds generalizing heap nid with
  | zero => simp [upRounds]
  | succ rounds ih =>
    simp only [upRounds]
    split
    · simp
    · rename_i hne
      have hpos : 0 < nid := by omega
      have hround : ∀ a ∈ (upRound beyond heap nid).accesses, a.Inside :=
        upRound_inside ⟨hpos, hnid.2⟩ hint
      split
      · exact hround
      · rename_i hnext
        have hroot := root_bounds hpos hint
        have hparent := upRound_next.resolve_left hnext
        intro a ha
        rcases List.mem_append.mp ha with ha | ha
        · exact hround a ha
        · refine ih ?_ ?_ a ha
          · rw [hparent, upRound_length]
            exact ⟨hroot.1, by omega⟩
          · rw [hparent]
            omega

theorem mem_upRounds (hne : nid ≠ 0) (rounds : ℕ) :
    ⟨nid, heap.length⟩ ∈ (upRounds beyond (rounds + 1) heap nid).accesses := by
  have hfirst : ⟨nid, heap.length⟩ ∈ (upRound beyond heap nid).accesses := mem_upRound
  simp only [upRounds, if_neg hne]
  split
  · exact hfirst
  · exact List.mem_append_left _ hfirst

/-- `Pushitem` stays inside unless the index of the new item is negative as an `int`. -/
theorem pushed_inside_iff {id : ℤ} :
    (∀ rounds, ∀ a ∈ (pushRounds beyond rounds heap id).accesses, a.Inside) ↔
      heap.length % 2 ^ 32 < 2 ^ 31 := by
  have hlast : ((heap ++ [id]).length - 1 : ℤ) = heap.length := by simp
  simp only [pushRounds, hlast]
  rw [← toInt_nonneg_iff]
  constructor
  · intro hall
    by_contra hneg
    have hne : toInt heap.length ≠ 0 := by omega
    have hmem : ⟨toInt heap.length, (heap ++ [id]).length⟩ ∈
        (upRounds beyond (0 + 1) (heap ++ [id]) (toInt heap.length)).accesses :=
      mem_upRounds hne 0
    obtain ⟨hnonneg, -⟩ := hall (0 + 1) _ hmem
    simp only at hnonneg
    exact hneg hnonneg
  · intro hnonneg rounds
    have hle := toInt_le_self heap.length
    refine upRounds_inside rounds ⟨hnonneg, ?_⟩ (toInt_bounds _).2
    rw [List.length_append, List.length_singleton]
    omega

end Access

/-! ## The rounds of the allocator -/

section Agreement

variable {beyond : ℤ} {heap : List ℤ} {nid : ℕ}

theorem readItem_nat (i : ℕ) : readItem beyond heap i = heap.getD i beyond := by
  unfold readItem
  split
  · rfl
  · rename_i hout
    rw [List.getD_eq_getElem?_getD, List.getElem?_eq_none (by omega), Option.getD_none]

theorem guardedItem_nat (i : ℕ) : guardedItem heap i = getItem heap i := by
  unfold guardedItem
  split
  · rfl
  · exact (getItem_eq_zero (by omega)).symm

theorem swapItems_nat (i j : ℕ) : swapItems heap i j = heap.swap i j := by
  unfold swapItems
  split
  · rfl
  · rename_i hout
    rcases Nat.lt_or_ge i heap.length with hi | hi
    · exact (List.swap_eq_of_ge_right (by omega)).symm
    · exact (List.swap_eq_of_ge_left hi).symm

/-- While twice the size is an `int`, a round down is one of `percolateDownOnce`. -/
theorem downRound_nat (hsize : heap.length + 1 < 2 ^ 30) (hnid : nid ≤ heap.length) :
    (downRound beyond heap nid).heap = (percolateDownOnce beyond heap nid).1 ∧
      (downRound beyond heap nid).nid = ((percolateDownOnce beyond heap nid).2 : ℕ) := by
  have hint : ∀ k : ℕ, k < 2 ^ 31 → toInt k = k := fun k hk => toInt_eq (by omega) (by omega)
  have hdouble : toInt (2 * nid) = (2 * nid : ℕ) := by
    exact_mod_cast hint (2 * nid) (by omega)
  have hlid : toInt ((2 * nid : ℕ) + 1) = (2 * nid + 1 : ℕ) := by
    exact_mod_cast hint (2 * nid + 1) (by omega)
  have hrid : toInt ((2 * nid + 1 : ℕ) + 1) = (2 * nid + 1 + 1 : ℕ) := by
    exact_mod_cast hint (2 * nid + 1 + 1) (by omega)
  simp only [downRound, percolateDownOnce, hdouble, hlid, hrid, readItem_nat, guardedItem_nat,
    swapItems_nat, ← Nat.cast_ite, Nat.cast_inj, and_self]

/-- The loop does what `percolateDown` says, and ends when the indices are used up. -/
theorem downRounds_nat (rounds : ℕ) (hsize : heap.length + 1 < 2 ^ 30) (hnid : nid ≤ heap.length) :
    (downRounds beyond rounds heap nid).heap = percolateDown beyond rounds heap nid ∧
      (heap.length < nid + rounds → (downRounds beyond rounds heap nid).ended = true) := by
  induction rounds generalizing heap nid with
  | zero => exact ⟨rfl, by omega⟩
  | succ rounds ih =>
    have hround : (downRound beyond heap nid).heap = (percolateDownOnce beyond heap nid).1 ∧
        (downRound beyond heap nid).nid = ((percolateDownOnce beyond heap nid).2 : ℕ) :=
      downRound_nat hsize hnid
    obtain ⟨hheap, hnext⟩ := hround
    have hlength := (percolateDownOnce_perm beyond heap nid).length_eq
    simp only [downRounds, percolateDown, hheap, hnext, Nat.cast_inj]
    split
    · exact ⟨rfl, fun _ => rfl⟩
    · rename_i hmove
      obtain ⟨hlt, hin⟩ := (percolateDownOnce_next beyond heap nid).resolve_left hmove
      have hsize' : (percolateDownOnce beyond heap nid).1.length + 1 < 2 ^ 30 := by omega
      have hnid' : (percolateDownOnce beyond heap nid).2 ≤
        (percolateDownOnce beyond heap nid).1.length := by omega
      obtain ⟨hsame, hended⟩ := ih hsize' hnid'
      exact ⟨hsame, fun h => hended (by omega)⟩

theorem readItem_inside {i : ℕ} (hi : i < heap.length) :
    readItem beyond heap i = getItem heap i := by
  rw [readItem_nat, getItem, List.getD_eq_getElem?_getD, List.getD_eq_getElem?_getD,
    List.getElem?_eq_getElem hi, Option.getD_some, Option.getD_some]

/-- The same of the loop up. -/
theorem upRounds_nat (rounds : ℕ) (hsize : heap.length < 2 ^ 31) (hnid : nid < heap.length) :
    (upRounds beyond rounds heap nid).heap = percolateUp rounds heap nid ∧
      (nid ≤ rounds → (upRounds beyond rounds heap nid).ended = true) := by
  induction rounds generalizing heap nid with
  | zero => exact ⟨rfl, fun h => by simp [upRounds, Nat.le_zero.mp h]⟩
  | succ rounds ih =>
    rcases Nat.eq_zero_or_pos nid with rfl | hpos
    · simp [upRounds, percolateUp]
    have hroot : (toInt ((nid : ℤ) - 1)).tdiv 2 = ((nid - 1) / 2 : ℕ) := by
      rw [toInt_eq (by omega) (by omega), Int.tdiv_eq_ediv_of_nonneg (by omega)]
      omega
    have hup : (nid - 1) / 2 < heap.length := by omega
    simp only [upRounds, percolateUp, upRound, hroot, readItem_inside hnid, readItem_inside hup,
      swapItems_nat, Nat.cast_eq_zero, if_neg hpos.ne']
    split
    · rename_i hgt
      have hne : (nid - 1) / 2 ≠ nid := by omega
      have hlength : (heap.swap nid ((nid - 1) / 2)).length = heap.length := List.length_swap
      have hsize' : (heap.swap nid ((nid - 1) / 2)).length < 2 ^ 31 := by omega
      have hnid' : (nid - 1) / 2 < (heap.swap nid ((nid - 1) / 2)).length := by omega
      obtain ⟨hsame, hended⟩ := ih hsize' hnid'
      simp only [Nat.cast_inj, if_neg hne, if_pos (And.intro hpos.ne' hgt)]
      exact ⟨hsame, fun h => hended (by omega)⟩
    · rename_i hle
      simp only [if_neg (fun h : nid ≠ 0 ∧ _ => hle h.2)]
      exact ⟨rfl, fun _ => rfl⟩

end Agreement

/-! ## Calls -/

/-- A call of the allocator; any id may be recycled. -/
inductive HeapCall
  | getGuid
  | recycleGuid (id : ℤ)
  deriving DecidableEq

/-- What a call has come to: its result, the allocator, all accesses, and whether it has
returned. -/
structure HeapCall.Outcome where
  result : ℤ
  guid : Guid
  accesses : List HeapAccess
  returned : Bool
  deriving DecidableEq

namespace Guid

/-- `GetGuid()` and `RecycleGuid(id)`, their loop for so many rounds. -/
def call (g : Guid) (beyond : ℤ) (rounds : ℕ) : HeapCall → HeapCall.Outcome
  | .getGuid =>
    if g.heap = [] then
      if g.bound ≥ maxGuid then ⟨-1, g, [], true⟩
      else ⟨g.bound + 1, { g with bound := g.bound + 1 }, [], true⟩
    else
      let item := popRounds beyond rounds g.heap
      ⟨item.1, { g with heap := item.2.heap }, item.2.accesses, item.2.ended⟩
  | .recycleGuid id =>
    let loop := pushRounds beyond rounds g.heap id
    ⟨0, { g with heap := loop.heap }, loop.accesses, loop.ended⟩

variable {g : Guid} {beyond : ℤ} {rounds : ℕ}

/-- After enough rounds `GetGuid` has returned what `getGuid` says. -/
theorem call_getGuid (hsize : g.heap.length < 2 ^ 30) (hrounds : g.heap.length ≤ rounds) :
    (g.call beyond rounds .getGuid).returned = true ∧
      ((g.call beyond rounds .getGuid).result, (g.call beyond rounds .getGuid).guid) =
        g.getGuid beyond := by
  unfold call getGuid
  by_cases hheap : g.heap = []
  · simp only [if_pos hheap]
    split <;> exact ⟨rfl, rfl⟩
  have hpos := List.length_pos_iff.mpr hheap
  set shorter := (g.heap.swap 0 (g.heap.length - 1)).dropLast with hshorter
  have hlen : shorter.length = g.heap.length - 1 := by
    rw [hshorter, List.length_dropLast, List.length_swap]
  have hsize' : shorter.length + 1 < 2 ^ 30 := by omega
  have hloop : (downRounds beyond rounds shorter (0 : ℕ)).heap =
        percolateDown beyond rounds shorter 0 ∧
      (shorter.length < 0 + rounds →
        (downRounds beyond rounds shorter (0 : ℕ)).ended = true) :=
    downRounds_nat rounds hsize' (Nat.zero_le _)
  obtain ⟨hsame, hended⟩ := hloop
  -- the rounds that the model of the loop allows are enough
  obtain ⟨more, hmore⟩ : ∃ more, rounds = g.heap.length - 1 + 1 + more :=
    ⟨rounds - g.heap.length, by omega⟩
  have hfuel : percolateDown beyond (g.heap.length - 1 + 1 + more) shorter 0 =
      percolateDown beyond (g.heap.length - 1 + 1) shorter 0 :=
    percolateDown_eq (by omega) more
  rw [← hmore, Nat.sub_add_cancel hpos] at hfuel
  have htop : readItem beyond g.heap (0 : ℕ) = getItem g.heap 0 := readItem_inside hpos
  rw [Nat.cast_zero] at hsame hended htop
  simp only [if_neg hheap, popRounds, popItem, ← hshorter]
  refine ⟨hended (by omega), ?_⟩
  rw [hsame, hfuel, htop]

/-- After enough rounds `RecycleGuid` has done what `recycleGuid` says. -/
theorem call_recycleGuid {id : ℤ} (hsize : g.heap.length < 2 ^ 30)
    (hrounds : g.heap.length ≤ rounds) :
    (g.call beyond rounds (.recycleGuid id)).returned = true ∧
      (g.call beyond rounds (.recycleGuid id)).guid = g.recycleGuid id := by
  have hlast : toInt ((g.heap ++ [id]).length - 1) = g.heap.length := by
    rw [List.length_append, List.length_singleton, toInt_eq (by omega) (by omega)]
    omega
  have hlen : (g.heap ++ [id]).length = g.heap.length + 1 := List.length_append
  have hloop : (upRounds beyond rounds (g.heap ++ [id]) g.heap.length).heap =
        percolateUp rounds (g.heap ++ [id]) g.heap.length ∧
      (g.heap.length ≤ rounds →
        (upRounds beyond rounds (g.heap ++ [id]) g.heap.length).ended = true) :=
    upRounds_nat rounds (by omega) (by omega)
  obtain ⟨hsame, hended⟩ := hloop
  obtain ⟨more, rfl⟩ : ∃ more, rounds = g.heap.length + more := ⟨rounds - g.heap.length, by omega⟩
  rw [percolateUp_eq le_rfl more] at hsame
  simp only [call, pushRounds, hlast, recycleGuid, pushItem, hsame]
  exact ⟨hended (by omega), trivial⟩

end Guid

/-- The calls one after another. After an access outside the vector nothing is promised; here the
call goes on, and what it reads outside may differ each time. -/
def heapSystem : TransitionSystem Guid HeapCall where
  init g := g = .init
  step g call g' :=
    ∃ beyond rounds, (g.call beyond rounds call).returned = true ∧
      (g.call beyond rounds call).guid = g'

/-- The calls that keep their loop inside the vector: no pop leaves it empty, and the index of a
pushed item is an `int`. -/
def HeapCall.StaysInside (g : Guid) : HeapCall → Prop
  | .getGuid => g.heap.length ≠ 1
  | .recycleGuid _ => g.heap.length % 2 ^ 32 < 2 ^ 31

/-- One call, in any state of the allocator. -/
theorem Guid.call_inside_iff (g : Guid) (call : HeapCall) :
    (∀ beyond rounds, ∀ a ∈ (g.call beyond rounds call).accesses, a.Inside) ↔
      call.StaysInside g := by
  cases call with
  | getGuid =>
    by_cases hheap : g.heap = []
    · have hnone : ∀ beyond rounds, (g.call beyond rounds .getGuid).accesses = [] := by
        intro beyond rounds
        simp only [Guid.call, if_pos hheap]
        split <;> rfl
      simp [HeapCall.StaysInside, hnone, hheap]
    · simp only [Guid.call, if_neg hheap, HeapCall.StaysInside]
      exact ⟨fun h => (popped_inside_iff hheap).mp (h 0),
        fun h _ => (popped_inside_iff hheap).mpr h⟩
  | recycleGuid id =>
    simp only [Guid.call, HeapCall.StaysInside]
    exact ⟨fun h => pushed_inside_iff.mp (h 0), fun h _ => pushed_inside_iff.mpr h⟩

/-- In every state that calls lead to, the next call stays inside the vector iff it does not take
the only id out of the heap, and does not put one in whose index is no longer an `int`. -/
theorem heap_index_safety : ∀ g, heapSystem.Reachable unguarded g → ∀ call,
    (∀ beyond rounds, ∀ a ∈ (g.call beyond rounds call).accesses, a.Inside) ↔
      call.StaysInside g :=
  fun g _ call => g.call_inside_iff call

/-- The first id is issued and comes back. -/
theorem reachable_oneRecycled : heapSystem.Reachable unguarded ⟨[1], 1⟩ := by
  have hissued : heapSystem.Reachable unguarded ⟨[], 1⟩ :=
    ⟨_, .step (e := .getGuid) (.init rfl) trivial ⟨0, 0, by decide, by decide⟩⟩
  obtain ⟨history, hrun⟩ := hissued
  exact ⟨_, .step (e := .recycleGuid 1) hrun trivial ⟨0, 0, by decide, by decide⟩⟩

theorem heap_index_safety_oneRecycled :
    (∀ beyond rounds, ∀ a ∈ ((⟨[1], 1⟩ : Guid).call beyond rounds (.recycleGuid 2)).accesses,
      a.Inside) ∧
    ¬ ∀ beyond rounds, ∀ a ∈ ((⟨[1], 1⟩ : Guid).call beyond rounds .getGuid).accesses, a.Inside :=
  ⟨(heap_index_safety _ reachable_oneRecycled (.recycleGuid 2)).mpr
      (by decide : 1 % 2 ^ 32 < 2 ^ 31),
    fun h => (heap_index_safety _ reachable_oneRecycled .getGuid).mp h rfl⟩

/-- Issue an id, return it, ask for the next: the loop reads `Heap[0]` of an empty vector. -/
theorem reads_emptyHeap : ¬ ∀ g, heapSystem.Reachable unguarded g →
    ∀ call beyond rounds, ∀ a ∈ (g.call beyond rounds call).accesses, a.Inside := by
  intro hall
  have hread : (⟨0, 0⟩ : HeapAccess) ∈ ((⟨[1], 1⟩ : Guid).call 0 1 .getGuid).accesses := by decide
  exact absurd (hall _ reachable_oneRecycled .getGuid 0 1 _ hread) (by decide)

end DreamboatRpc.Client
