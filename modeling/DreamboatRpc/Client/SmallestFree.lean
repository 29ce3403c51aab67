import DreamboatRpc.CS.BinaryHeap
import DreamboatRpc.Client.Allocation

/-!
# The smallest free id

The heap of the allocator has the smallest id on top as long as it is in order. Moving up keeps
the order. Moving down may exchange all three of an id and its children in one round, and goes
on below the left one; what came to the right is not compared with its children.

## Main definitions

* `SmallestFree` — what `GetGuid` is to return
* `siftsClean` — nothing that comes to the right is above its children
* `keepsOrder` — the condition on a call

## Main results

* `minHeap_pushItem`, `minHeap_popItem_iff` — what the two functions do to the order
* `smallest_first_iff` — when the heap stays in order, and so the smallest free id is issued
* `larger_issued` — a run in which it is not
-/

namespace DreamboatRpc.Client

open CS TransitionSystem

/-- The smallest id from 1 on that is not in use, or -1 if all are. -/
def SmallestFree (live : List ℤ) (id : ℤ) : Prop :=
  (1 ≤ id ∧ id ≤ maxGuid ∧ id ∉ live ∧ ∀ j, 1 ≤ j → j < id → j ∈ live) ∨
    (id = -1 ∧ ∀ j, 1 ≤ j → j ≤ maxGuid → j ∈ live)

/-- The order of the heap. -/
def Ordered (heap : List ℤ) : Prop := MinHeap heap.length (getItem heap)

instance (heap : List ℤ) : Decidable (Ordered heap) :=
  inferInstanceAs (Decidable (MinHeap heap.length (getItem heap)))

/-- `value` is not above the children that `nid` has. -/
def notAboveChildren (heap : List ℤ) (value : ℤ) (nid : ℕ) : Bool :=
  [2 * nid + 1, 2 * nid + 2].all fun child =>
    getItem heap child = 0 ∨ value ≤ getItem heap child

/-- The way of `v` down from `nid` in the heap: wherever it is above both children and the left
one above the right, the left one, which comes to the right, is not above its children there. -/
def siftsClean (heap : List ℤ) (v : ℤ) : ℕ → ℕ → Bool
  | 0, _ => true
  | fuel + 1, nid =>
    let lid := 2 * nid + 1
    let rid := lid + 1
    let lvalue := getItem heap lid
    let rvalue := getItem heap rid
    if lvalue ≠ 0 ∧ v > lvalue then
      (!(rvalue ≠ 0 ∧ lvalue > rvalue) || notAboveChildren heap lvalue rid) &&
        siftsClean heap v fuel lid
    else if rvalue ≠ 0 ∧ v > rvalue then siftsClean heap v fuel rid
    else true

/-! ## Items -/

section Items

variable {beyond v : ℤ} {heap heap' : List ℤ} {nid next fuel i j : ℕ} {id : ℤ}

theorem getItem_eq_getElem (h : i < heap.length) : getItem heap i = heap[i] := by
  rw [getItem, List.getD_eq_getElem?_getD, List.getElem?_eq_getElem h, Option.getD_some]

theorem getItem_mem (h : i < heap.length) : getItem heap i ∈ heap := by
  rw [getItem_eq_getElem h]
  exact List.getElem_mem h

/-- An item is zero exactly behind the end. -/
theorem getItem_ne_zero_iff (hids : ∀ id ∈ heap, id ≠ 0) :
    getItem heap i ≠ 0 ↔ i < heap.length := by
  constructor
  · intro h
    by_contra hge
    exact h (getItem_eq_zero (not_lt.mp hge))
  · exact fun h => hids _ (getItem_mem h)

theorem getItem_swap (hi : i < heap.length) (hj : j < heap.length) :
    getItem (heap.swap i j) = getItem heap ∘ Equiv.swap i j := by
  funext k
  by_cases hk : k < heap.length
  · have hk' : k < (heap.swap i j).length := by rwa [List.length_swap]
    rw [getItem_eq_getElem hk', Function.comp_apply, List.getElem_swap]
    by_cases hki : k = i
    · subst hki
      rw [dif_pos ⟨rfl, hj⟩, Equiv.swap_apply_left, getItem_eq_getElem hj]
    · rw [dif_neg (by simp [hki])]
      by_cases hkj : k = j
      · subst hkj
        rw [dif_pos ⟨rfl, hi⟩, Equiv.swap_apply_right, getItem_eq_getElem hi]
      · rw [dif_neg (by simp [hkj]), Equiv.swap_apply_of_ne_of_ne hki hkj, getItem_eq_getElem hk]
  · have hki : k ≠ i := fun h => hk (h ▸ hi)
    have hkj : k ≠ j := fun h => hk (h ▸ hj)
    rw [getItem_eq_zero (by rw [List.length_swap]; omega), Function.comp_apply,
      Equiv.swap_apply_of_ne_of_ne hki hkj, getItem_eq_zero (not_lt.mp hk)]

theorem getItem_append_left (h : i < heap.length) : getItem (heap ++ [id]) i = getItem heap i := by
  rw [getItem_eq_getElem (by rw [List.length_append]; omega), getItem_eq_getElem h,
    List.getElem_append_left h]

theorem getItem_dropLast (h : i < heap.length - 1) : getItem heap.dropLast i = getItem heap i := by
  rw [getItem_eq_getElem (by rwa [List.length_dropLast]), List.getElem_dropLast,
    getItem_eq_getElem]

/-! ## Moving up -/

theorem ordered_percolateUp (hfuel : nid ≤ fuel) (hlt : nid < heap.length)
    (h : OrderedAbove heap.length (getItem heap) nid) : Ordered (percolateUp fuel heap nid) := by
  induction fuel generalizing heap nid with
  | zero =>
    obtain rfl := Nat.le_zero.mp hfuel
    exact h.finish fun hpos => absurd hpos (lt_irrefl 0)
  | succ fuel ih =>
    rw [percolateUp]
    have hroot : (nid - 1) / 2 = CS.parent nid := rfl
    simp only [hroot]
    split
    · rename_i hmove
      obtain ⟨hne, hgt⟩ := hmove
      have hpos := Nat.pos_of_ne_zero hne
      have hup := parent_lt hpos
      apply ih (by omega) (by rw [List.length_swap]; omega)
      rw [List.length_swap, getItem_swap hlt (by omega)]
      exact h.swap hpos hlt hgt
    · rename_i hstop
      apply h.finish
      intro hpos
      by_contra hgt
      exact hstop ⟨hpos.ne', not_le.mp hgt⟩

/-- `Pushitem` keeps the order. -/
theorem ordered_pushItem (h : Ordered heap) (id : ℤ) : Ordered (pushItem heap id) := by
  apply ordered_percolateUp le_rfl (by simp)
  rw [List.length_append, List.length_singleton]
  have hsame : MinHeap heap.length (getItem (heap ++ [id])) :=
    h.congr fun i hi => getItem_append_left hi
  exact OrderedAbove.of_last hsame

/-! ## Moving down -/

/-- What a round of percolating down does with the item at `nid`: it stops; or the item goes to
a child `c` and the round goes on there, while the items of `nid` and the other child `d` are
what the children had. -/
inductive Round (heap : List ℤ) (nid : ℕ) : List ℤ → ℕ → Prop
  | stop (hleft : 2 * nid + 1 < heap.length → getItem heap nid ≤ getItem heap (2 * nid + 1))
      (hright : 2 * nid + 2 < heap.length → getItem heap nid ≤ getItem heap (2 * nid + 2)) :
      Round heap nid heap nid
  | left {heap' : List ℤ} (hlt : 2 * nid + 1 < heap.length)
      (hmoves : getItem heap (2 * nid + 1) < getItem heap nid)
      (hright : 2 * nid + 2 < heap.length →
        getItem heap (2 * nid + 1) ≤ getItem heap (2 * nid + 2))
      (hlength : heap'.length = heap.length)
      (hitems : getItem heap' = getItem heap ∘ Equiv.swap nid (2 * nid + 1)) :
      Round heap nid heap' (2 * nid + 1)
  | right {heap' : List ℤ} (hlt : 2 * nid + 2 < heap.length)
      (hleft : getItem heap nid ≤ getItem heap (2 * nid + 1))
      (hmoves : getItem heap (2 * nid + 2) < getItem heap nid)
      (hlength : heap'.length = heap.length)
      (hitems : getItem heap' = getItem heap ∘ Equiv.swap nid (2 * nid + 2)) :
      Round heap nid heap' (2 * nid + 2)
  | both {heap' : List ℤ} (hlt : 2 * nid + 2 < heap.length)
      (hmoves : getItem heap (2 * nid + 1) < getItem heap nid)
      (hright : getItem heap (2 * nid + 2) < getItem heap (2 * nid + 1))
      (hlength : heap'.length = heap.length)
      (hitems : getItem heap' =
        getItem heap ∘ Equiv.swap nid (2 * nid + 1) ∘ Equiv.swap nid (2 * nid + 2)) :
      Round heap nid heap' (2 * nid + 1)

theorem round_percolateDownOnce (hids : ∀ id ∈ heap, id ≠ 0) (hnid : nid < heap.length) :
    Round heap nid (percolateDownOnce beyond heap nid).1 (percolateDownOnce beyond heap nid).2 := by
  have hvalue : heap.getD nid beyond = getItem heap nid := by
    rw [getItem_eq_getElem hnid, List.getD_eq_getElem?_getD, List.getElem?_eq_getElem hnid,
      Option.getD_some]
  have hin : ∀ i, getItem heap i ≠ 0 ↔ i < heap.length := fun i => getItem_ne_zero_iff hids
  simp only [percolateDownOnce, hvalue, hin, show 2 * nid + 1 + 1 = 2 * nid + 2 from rfl]
  by_cases hleft : 2 * nid + 1 < heap.length ∧ getItem heap nid > getItem heap (2 * nid + 1)
  · simp only [if_pos hleft]
    have hfirst := getItem_swap hnid hleft.1
    by_cases hright : 2 * nid + 2 < heap.length ∧
        getItem heap (2 * nid + 1) > getItem heap (2 * nid + 2)
    · rw [if_pos hright, if_neg (by omega)]
      refine .both hright.1 hleft.2 hright.2 (by simp) ?_
      rw [getItem_swap (by simpa using hnid) (by simpa using hright.1), hfirst,
        Function.comp_assoc]
    · rw [if_neg hright, if_neg (by omega)]
      exact .left hleft.1 hleft.2 (fun h => not_lt.mp fun hgt => hright ⟨h, hgt⟩) (by simp) hfirst
  · simp only [if_neg hleft]
    by_cases hright : 2 * nid + 2 < heap.length ∧ getItem heap nid > getItem heap (2 * nid + 2)
    · rw [if_pos hright, if_pos ⟨hright, trivial⟩]
      refine .right hright.1 ?_ hright.2 (by simp) (getItem_swap hnid hright.1)
      exact not_lt.mp fun hgt => hleft ⟨by omega, hgt⟩
    · rw [if_neg hright, if_neg fun h => hright h.1]
      exact .stop (fun h => not_lt.mp fun hgt => hleft ⟨h, hgt⟩)
        fun h => not_lt.mp fun hgt => hright ⟨h, hgt⟩

/-- A round touches an item and its children only. -/
theorem Round.other (h : Round heap nid heap' next) (hself : i ≠ nid) (hlid : i ≠ 2 * nid + 1)
    (hrid : i ≠ 2 * nid + 2) : getItem heap' i = getItem heap i := by
  cases h with
  | stop => rfl
  | left _ _ _ _ hitems =>
    rw [hitems, Function.comp_apply, Equiv.swap_apply_of_ne_of_ne hself hlid]
  | right _ _ _ _ hitems =>
    rw [hitems, Function.comp_apply, Equiv.swap_apply_of_ne_of_ne hself hrid]
  | both _ _ _ _ hitems =>
    rw [hitems, Function.comp_apply, Function.comp_apply,
      Equiv.swap_apply_of_ne_of_ne hself hrid, Equiv.swap_apply_of_ne_of_ne hself hlid]

/-- It leaves everything alone that is not under the item it moves. -/
theorem Round.frame (h : Round heap nid heap' next) (hi : ¬ Under nid i) :
    getItem heap' i = getItem heap i :=
  h.other (fun heq => hi (heq ▸ .refl)) (fun heq => hi (heq ▸ under_left nid))
    fun heq => hi (heq ▸ under_right nid)

theorem Round.under (h : Round heap nid heap' next) : Under nid next := by
  cases h with
  | stop => exact .refl
  | left => exact under_left nid
  | right => exact under_right nid
  | both => exact under_left nid

theorem ids_percolateDownOnce (hids : ∀ id ∈ heap, id ≠ 0) :
    ∀ id ∈ (percolateDownOnce beyond heap nid).1, id ≠ 0 := fun id hid =>
  hids id ((percolateDownOnce_perm beyond heap nid).subset hid)

theorem percolateDown_frame (hids : ∀ id ∈ heap, id ≠ 0) (hnid : nid < heap.length)
    (hi : ¬ Under nid i) : getItem (percolateDown beyond fuel heap nid) i = getItem heap i := by
  induction fuel generalizing heap nid with
  | zero => rfl
  | succ fuel ih =>
    have hround : Round heap nid (percolateDownOnce beyond heap nid).1
        (percolateDownOnce beyond heap nid).2 := round_percolateDownOnce hids hnid
    have hlength := (percolateDownOnce_perm beyond heap nid).length_eq
    have hnext := percolateDownOnce_next beyond heap nid
    simp only [percolateDown]
    split
    · exact hround.frame hi
    · rw [ih (ids_percolateDownOnce hids) (by omega) fun hup => hi (hround.under.trans hup),
        hround.frame hi]

/-- The way down is read off what is strictly below where it begins. -/
theorem siftsClean_congr (h : ∀ i, Under nid i → i ≠ nid → getItem heap' i = getItem heap i) :
    siftsClean heap' v fuel nid = siftsClean heap v fuel nid := by
  induction fuel generalizing nid with
  | zero => rfl
  | succ fuel ih =>
    have hbelow : ∀ c, Under nid c → nid < c →
        ∀ i, Under c i → getItem heap' i = getItem heap i := by
      intro c hc hlt i hi
      have := hi.le
      exact h i (hc.trans hi) (by omega)
    have hleft := hbelow _ (under_left nid) (by omega)
    have hright := hbelow _ (under_right nid) (by omega)
    have hrid : 2 * nid + 1 + 1 = 2 * nid + 2 := rfl
    have habove : notAboveChildren heap' (getItem heap (2 * nid + 1)) (2 * nid + 2) =
        notAboveChildren heap (getItem heap (2 * nid + 1)) (2 * nid + 2) := by
      simp only [notAboveChildren, List.all_cons, List.all_nil,
        hright _ (under_left (2 * nid + 2)), hright _ (under_right (2 * nid + 2))]
    simp only [siftsClean, hrid, hleft _ .refl, hright _ .refl, habove,
      ih fun i hi _ => hleft i hi, ih fun i hi _ => hright i hi]

theorem notAboveChildren_iff (hids : ∀ id ∈ heap, id ≠ 0) :
    notAboveChildren heap v nid = true ↔
      ∀ i, 0 < i → i < heap.length → parent i = nid → v ≤ getItem heap i := by
  have hin : ∀ i, getItem heap i = 0 ∨ v ≤ getItem heap i ↔
      (i < heap.length → v ≤ getItem heap i) := by
    intro i
    rw [← getItem_ne_zero_iff hids]
    tauto
  simp only [notAboveChildren, List.all_eq_true, List.mem_cons, List.not_mem_nil, or_false,
    decide_eq_true_eq, hin]
  constructor
  · exact fun h i hpos hlt hparent => h i ((parent_eq_iff hpos).mp hparent) hlt
  · exact fun h i hi hlt => h i (by omega) hlt ((parent_eq_iff (by omega)).mpr hi)

/-- The item that moves, and what is below the index to which it moves. -/
theorem Round.moved (h : Round heap nid heap' next) (hne : next ≠ nid) :
    getItem heap' next = getItem heap nid ∧
      ∀ i, Under next i → i ≠ next → getItem heap' i = getItem heap i := by
  have hdeep : ∀ c, c = 2 * nid + 1 ∨ c = 2 * nid + 2 → ∀ i, Under c i → i ≠ c →
      getItem heap' i = getItem heap i := by
    intro c hc i hi hself
    have := hi.le
    refine h.other (by omega) (by omega) ?_
    rintro rfl
    rcases hc with rfl | rfl
    · exact not_under_left_of_right .refl hi
    · exact hself rfl
  cases h with
  | stop => exact absurd rfl hne
  | left _ _ _ _ hitems => exact ⟨by rw [hitems]; simp, hdeep _ (.inl rfl)⟩
  | right _ _ _ _ hitems => exact ⟨by rw [hitems]; simp, hdeep _ (.inr rfl)⟩
  | both _ _ _ _ hitems =>
    have hother : Equiv.swap nid (2 * nid + 2) (2 * nid + 1) = 2 * nid + 1 :=
      Equiv.swap_apply_of_ne_of_ne (by omega) (by omega)
    exact ⟨by rw [hitems]; simp [hother], hdeep _ (.inl rfl)⟩

/-- A move to one child that leaves the other as it was keeps the order. -/
theorem orderedBelow_swap {c d : ℕ} (h : OrderedBelow heap.length (getItem heap) nid)
    (hc : c < heap.length) (hchildren : ∀ i, i = c ∨ i = d ↔ i = 2 * nid + 1 ∨ i = 2 * nid + 2)
    (hcd : c ≠ d) (hmoves : getItem heap c < getItem heap nid)
    (hleast : d < heap.length → getItem heap c ≤ getItem heap d)
    (hitems : getItem heap' = getItem heap ∘ Equiv.swap nid c) :
    OrderedBelow heap.length (getItem heap') c := by
  have hc' := (hchildren c).mp (.inl rfl)
  have hd' := (hchildren d).mp (.inr rfl)
  have hck : parent c = nid := (parent_eq_iff (by omega)).mpr hc'
  have hdk : parent d = nid := (parent_eq_iff (by omega)).mpr hd'
  have htop : getItem heap' nid = getItem heap c := by rw [hitems]; simp
  have hmoved : getItem heap' c = getItem heap nid := by rw [hitems]; simp
  have hother : ∀ i, i ≠ nid → i ≠ c → getItem heap' i = getItem heap i := by
    intro i hi hic
    rw [hitems, Function.comp_apply, Equiv.swap_apply_of_ne_of_ne hi hic]
  refine (h.descend_iff (by omega) hck (by omega) hdk hcd (fun i hi hic _ => hother i hi hic)
    (fun hpos => ?_) (fun _ => ?_) (fun hd => ?_) fun i hpos hi hparent => ?_).mpr ?_
  · rw [htop]
    exact h.grand hpos c (by omega) hc hck
  · rw [htop, hmoved]
    exact hmoves.le
  · rw [htop, hother d (by omega) hcd.symm]
    exact hleast hd
  · rw [htop, ← hparent]
    exact h.except i hpos hi (by rw [hparent]; omega)
  · intro i hpos hi hparent
    rw [hother d (by omega) hcd.symm, ← hparent]
    exact h.except i hpos hi (by rw [hparent]; omega)

/-- After a move to the left that exchanges all three, what came to the right has to be in order
with its children. -/
theorem orderedBelow_both_iff (h : OrderedBelow heap.length (getItem heap) nid)
    (hlt : 2 * nid + 2 < heap.length) (hmoves : getItem heap (2 * nid + 1) < getItem heap nid)
    (hright : getItem heap (2 * nid + 2) < getItem heap (2 * nid + 1))
    (hitems : getItem heap' =
      getItem heap ∘ Equiv.swap nid (2 * nid + 1) ∘ Equiv.swap nid (2 * nid + 2)) :
    getItem heap' (2 * nid + 2) = getItem heap (2 * nid + 1) ∧
      (OrderedBelow heap.length (getItem heap') (2 * nid + 1) ↔
        ∀ i, 0 < i → i < heap.length → parent i = 2 * nid + 2 →
          getItem heap (2 * nid + 1) ≤ getItem heap i) := by
  have hleft : Equiv.swap nid (2 * nid + 2) (2 * nid + 1) = 2 * nid + 1 :=
    Equiv.swap_apply_of_ne_of_ne (by omega) (by omega)
  have hrid : Equiv.swap nid (2 * nid + 1) (2 * nid + 2) = 2 * nid + 2 :=
    Equiv.swap_apply_of_ne_of_ne (by omega) (by omega)
  have htop : getItem heap' nid = getItem heap (2 * nid + 2) := by rw [hitems]; simp [hrid]
  have hmoved : getItem heap' (2 * nid + 1) = getItem heap nid := by rw [hitems]; simp [hleft]
  have hcame : getItem heap' (2 * nid + 2) = getItem heap (2 * nid + 1) := by
    rw [hitems]
    simp
  refine ⟨hcame, ?_⟩
  rw [← hcame]
  refine h.descend_iff (by omega) (parent_left nid) (by omega) (parent_right nid) (by omega)
    (fun i hi hic hid => ?_) (fun hpos => ?_) (fun _ => ?_) (fun _ => ?_)
    fun i hpos hi hparent => ?_
  · rw [hitems, Function.comp_apply, Function.comp_apply, Equiv.swap_apply_of_ne_of_ne hi hid,
      Equiv.swap_apply_of_ne_of_ne hi hic]
  · rw [htop]
    exact h.grand hpos _ (by omega) hlt (parent_right nid)
  · rw [htop, hmoved]
    exact (hright.trans hmoves).le
  · rw [htop, hcame]
    exact hright.le
  · have hbelow := h.except i hpos hi (by rw [hparent]; omega)
    rw [hparent] at hbelow
    rw [htop]
    exact hright.le.trans hbelow

/-- While an item goes down on the left, what is on the right stays there, and so do its
children. -/
theorem le_right_of_ordered (hids : ∀ id ∈ heap, id ≠ 0) (hlt : 2 * nid + 1 < heap.length)
    (hordered : Ordered (percolateDown beyond fuel heap (2 * nid + 1))) (hpos : 0 < i)
    (hi : i < heap.length) (hparent : parent i = 2 * nid + 2) :
    getItem heap (2 * nid + 2) ≤ getItem heap i := by
  have hkept : ∀ j, ¬ Under (2 * nid + 1) j →
      getItem (percolateDown beyond fuel heap (2 * nid + 1)) j = getItem heap j :=
    fun j hj => percolateDown_frame hids hlt hj
  have hsame : (percolateDown beyond fuel heap (2 * nid + 1)).Perm heap := percolateDown_perm
  have hbelow : Under (2 * nid + 2) i := .child hpos (by rw [hparent]; exact .refl)
  have hord := hordered i hpos (by rw [hsame.length_eq]; exact hi)
  rwa [hparent, hkept _ (not_under_left_of_right .refl),
    hkept i (not_under_left_of_right hbelow)] at hord

/-- Percolating down restores the order if and only if nothing that comes to the right is above
its children there. -/
theorem ordered_percolateDown_iff (hids : ∀ id ∈ heap, id ≠ 0) (hnid : nid < heap.length)
    (hfuel : heap.length ≤ nid + fuel) (h : OrderedBelow heap.length (getItem heap) nid) :
    Ordered (percolateDown beyond fuel heap nid) ↔
      siftsClean heap (getItem heap nid) fuel nid = true := by
  induction fuel generalizing heap nid with
  | zero => omega
  | succ fuel ih =>
    have hround : Round heap nid (percolateDownOnce beyond heap nid).1
        (percolateDownOnce beyond heap nid).2 := round_percolateDownOnce hids hnid
    have hids' : ∀ id ∈ (percolateDownOnce beyond heap nid).1, id ≠ 0 :=
      ids_percolateDownOnce hids
    have hin : ∀ i, getItem heap i ≠ 0 ↔ i < heap.length := fun i => getItem_ne_zero_iff hids
    simp only [percolateDown, siftsClean, hin, show 2 * nid + 1 + 1 = 2 * nid + 2 from rfl]
    generalize (percolateDownOnce beyond heap nid).1 = heap' at hround hids'
    generalize (percolateDownOnce beyond heap nid).2 = next at hround
    have hother : ∀ {i}, i ≠ nid → i ≠ 2 * nid + 1 → i ≠ 2 * nid + 2 →
        getItem heap' i = getItem heap i := fun h₀ h₁ h₂ => hround.other h₀ h₁ h₂
    -- where the round goes on, the rest of the way down decides
    have hrest : ∀ hlength : heap'.length = heap.length, next ≠ nid → next < heap.length →
        OrderedBelow heap.length (getItem heap') next →
        (Ordered (percolateDown beyond fuel heap' next) ↔
          siftsClean heap (getItem heap nid) fuel next = true) := by
      intro hlength hne hlt hbelow
      obtain ⟨hvalue, hdeep⟩ := hround.moved hne
      have := hround.under.le
      rw [← siftsClean_congr hdeep, ← hvalue]
      rw [← hlength] at hbelow
      exact ih hids' (by omega) (by omega) hbelow
    cases hround with
    | stop hleft hright =>
      rw [if_pos rfl, if_neg fun hgt => hgt.2.not_ge (hleft hgt.1),
        if_neg fun hgt => hgt.2.not_ge (hright hgt.1)]
      refine iff_of_true (h.finish fun i hpos hi hparent => ?_) rfl
      rcases (parent_eq_iff hpos).mp hparent with rfl | rfl
      · exact hleft hi
      · exact hright hi
    | left hlt hmoves hright hlength hitems =>
      rw [if_neg (by omega), if_pos ⟨hlt, hmoves⟩]
      have hbelow := orderedBelow_swap h hlt (fun i => Iff.rfl) (by omega) hmoves hright hitems
      have hnot : ¬ (2 * nid + 2 < heap.length ∧
          getItem heap (2 * nid + 1) > getItem heap (2 * nid + 2)) :=
        fun hgt => hgt.2.not_ge (hright hgt.1)
      rw [hrest hlength (by omega) hlt hbelow]
      simp [hnot]
    | right hlt hleft hmoves hlength hitems =>
      rw [if_neg (by omega), if_neg fun hgt => hgt.2.not_ge hleft, if_pos ⟨hlt, hmoves⟩]
      have hbelow := orderedBelow_swap h hlt (fun i => or_comm) (by omega) hmoves
        (fun _ => hmoves.le.trans hleft) hitems
      exact hrest hlength (by omega) hlt hbelow
    | both hlt hmoves hright hlength hitems =>
      obtain ⟨hcame, hiff⟩ := orderedBelow_both_iff h hlt hmoves hright hitems
      rw [if_neg (by omega), if_pos ⟨by omega, hmoves⟩]
      simp only [hlt, gt_iff_lt, hright, and_self, decide_true, Bool.not_true, Bool.false_or,
        Bool.and_eq_true]
      rw [notAboveChildren_iff hids]
      constructor
      · intro hordered
        have hside : ∀ i, 0 < i → i < heap.length → parent i = 2 * nid + 2 →
            getItem heap (2 * nid + 1) ≤ getItem heap i := by
          intro i hpos hi hparent
          have hright' := le_right_of_ordered hids' (by omega) hordered hpos (by omega) hparent
          have := parent_lt hpos
          rwa [hcame, hother (by omega) (by omega) (by omega)] at hright'
        exact ⟨hside, (hrest hlength (by omega) (by omega) (hiff.mpr hside)).mp hordered⟩
      · rintro ⟨hside, hclean⟩
        exact (hrest hlength (by omega) (by omega) (hiff.mpr hside)).mpr hclean

/-- `Popitem` keeps the order if and only if the last item goes down that way. -/
theorem ordered_popItem_iff (hids : ∀ id ∈ heap, id ≠ 0) (hheap : heap ≠ []) (h : Ordered heap) :
    Ordered (popItem beyond heap).2 ↔
      siftsClean heap.dropLast (getItem heap (heap.length - 1)) heap.length 0 = true := by
  have hpos : 0 < heap.length := List.length_pos_iff.mpr hheap
  have hswap := getItem_swap hpos (show heap.length - 1 < heap.length by omega)
  rw [popItem]
  generalize hrest : (heap.swap 0 (heap.length - 1)).dropLast = rest
  have hlength : rest.length = heap.length - 1 := by
    rw [← hrest, List.length_dropLast, List.length_swap]
  have hitem : ∀ i, i < heap.length - 1 → 0 < i → getItem rest i = getItem heap i := by
    intro i hi hne
    rw [← hrest, getItem_dropLast (by rwa [List.length_swap]), hswap, Function.comp_apply,
      Equiv.swap_apply_of_ne_of_ne (by omega) (by omega)]
  have hdrop : ∀ i, Under 0 i → i ≠ 0 → getItem rest i = getItem heap.dropLast i := by
    intro i _ hne
    by_cases hi : i < heap.length - 1
    · rw [hitem i hi (by omega), getItem_dropLast hi]
    · rw [getItem_eq_zero (by omega), getItem_eq_zero (by rw [List.length_dropLast]; omega)]
  rw [← siftsClean_congr hdrop]
  by_cases hone : heap.length = 1
  · -- nothing is left
    obtain rfl : rest = [] := List.length_eq_zero_iff.mp (by omega)
    rw [hone]
    refine iff_of_true (fun i _ hi => ?_) (by simp [siftsClean, getItem])
    rw [percolateDown_perm.length_eq] at hi
    exact absurd hi (Nat.not_lt_zero i)
  · have hroot : getItem rest 0 = getItem heap (heap.length - 1) := by
      rw [← hrest, getItem_dropLast (by rw [List.length_swap]; omega), hswap, Function.comp_apply,
        Equiv.swap_apply_left]
    have hids' : ∀ id ∈ rest, id ≠ 0 := by
      intro id hid
      rw [← hrest] at hid
      exact hids id ((List.swap_perm heap _ _).subset (List.mem_of_mem_dropLast hid))
    have hbelow : OrderedBelow rest.length (getItem rest) 0 := by
      have hshort : MinHeap rest.length (getItem heap) := fun i hi hlt => h i hi (by omega)
      exact .of_root hshort fun i hlt hi => hitem i (by omega) hi
    rw [← hroot]
    exact ordered_percolateDown_iff hids' (by omega) (by omega) hbelow

end Items

/-! ## The smallest id -/

section Smallest

variable {g : Guid} {live : List ℤ}

theorem Guid.Accounts.ids_ne_zero (h : g.Accounts live) : ∀ id ∈ g.heap, id ≠ 0 := by
  intro id hid
  have hin := (h.mem id).mp (List.mem_append_right _ hid)
  omega

/-- As long as the heap is in order, the smallest free id is issued. -/
theorem smallestFree_getGuid (h : g.Accounts live) (hbound : g.bound ≤ maxGuid)
    (hordered : Ordered g.heap) (beyond : ℤ) : SmallestFree live (g.getGuid beyond).1 := by
  have hissued := h.getGuid beyond
  have hlength := h.length_eq
  by_cases hnone : (g.getGuid beyond).1 = -1
  · exact .inr ⟨hnone, (Guid.getGuid_eq_neg_one_iff h hbound).mp hnone⟩
  obtain ⟨heq, -⟩ | ⟨hone, hle, hfresh, -⟩ := hissued
  · rw [heq] at hnone
    exact absurd rfl hnone
  have hmax := (Guid.getGuid_bound beyond h hbound).2.1
  refine .inl ⟨hone, hle.trans hmax, hfresh, fun j hj hlt => ?_⟩
  by_cases hheap : g.heap = []
  · -- all ids up to the bound are in use
    have hnew : (g.getGuid beyond).1 ≤ g.bound + 1 := by
      rw [Guid.getGuid, if_pos hheap]
      split
      · simp only
        have := h.bound
        omega
      · exact le_rfl
    have hmem := (h.mem j).mpr ⟨hj, by omega⟩
    rwa [hheap, List.append_nil] at hmem
  · -- what is in the heap is not smaller than its top
    have htop : (g.getGuid beyond).1 = getItem g.heap 0 := by
      rw [Guid.getGuid, if_neg hheap]
      rfl
    have hpos : 0 < g.heap.length := List.length_pos_iff.mpr hheap
    have hin := ((h.mem _).mp (List.mem_append_right _ (getItem_mem hpos))).2
    rcases List.mem_append.mp ((h.mem j).mpr ⟨hj, by omega⟩) with hlive | hfree
    · exact hlive
    · obtain ⟨i, hi, rfl⟩ := List.mem_iff_getElem.mp hfree
      have hle := hordered.root_le hi
      rw [getItem_eq_getElem hi] at hle
      omega

end Smallest

/-! ## Runs -/

variable {history : List (Transition Allocation AllocatorCall)} {s t : Allocation}
  {call : AllocatorCall}

/-- What `GetGuid` takes from the heap leaves the rest in order. -/
def keepsOrder (s : Allocation) : AllocatorCall → Bool
  | .getGuid _ =>
    let heap := s.guid.heap
    siftsClean heap.dropLast (getItem heap (heap.length - 1)) heap.length 0
  | .recycleGuid _ => true

/-- The heap is in order, and the smallest free id is issued next. -/
structure SmallestFirst (s : Allocation) : Prop where
  ordered : Ordered s.guid.heap
  issues : ∀ beyond, SmallestFree s.live (s.guid.getGuid beyond).1

theorem ordered_exec_iff (haccounts : s.guid.Accounts s.live) (h : Ordered s.guid.heap)
    (hs : s.exec call = some t) : Ordered t.guid.heap ↔ keepsOrder s call = true := by
  cases call with
  | getGuid beyond =>
    simp only [Allocation.exec, Option.some.injEq] at hs
    have hguid : t.guid = (s.guid.getGuid beyond).2 := by rw [← hs]
    by_cases hheap : s.guid.heap = []
    · have hsame : t.guid.heap = [] := by
        rw [hguid, Guid.getGuid, if_pos hheap]
        split <;> exact hheap
      rw [hsame, keepsOrder, hheap]
      exact iff_of_true (fun i _ hi => absurd hi (Nat.not_lt_zero i)) rfl
    · have hpop : t.guid.heap = (popItem beyond s.guid.heap).2 := by
        rw [hguid, Guid.getGuid, if_neg hheap]
      rw [hpop]
      exact ordered_popItem_iff haccounts.ids_ne_zero hheap h
  | recycleGuid id =>
    simp only [Allocation.exec, Option.ite_none_right_eq_some, Option.some.injEq] at hs
    obtain ⟨-, rfl⟩ := hs
    exact iff_of_true (ordered_pushItem h id) rfl

/-- Whatever the order of the calls, as long as only ids in use are recycled: in all states of a
run the heap is in order and the smallest free id is issued next, iff whenever an id is taken
from the heap the last one goes down as `siftsClean` says. -/
theorem smallest_first_iff (hrun : allocatorSystem.Run unguarded history s) :
    (∀ x ∈ history, SmallestFirst x.target) ↔
      ∀ x ∈ history, keepsOrder x.source x.event = true := by
  have htargets : (∀ x ∈ history, Ordered x.target.guid.heap) ↔
      ∀ x ∈ history, keepsOrder x.source x.event = true := by
    apply hrun.targets_iff (I := fun s => Ordered s.guid.heap)
      (C := fun s call => keepsOrder s call = true)
    · rintro _ rfl i - hi
      exact absurd hi (Nat.not_lt_zero i)
    · rintro s call t ⟨before, hbefore⟩ h hstep
      exact ordered_exec_iff (allocationInv_of_run hbefore).accounts h hstep
  rw [← htargets]
  constructor
  · exact fun h x hx => (h x hx).ordered
  · intro h x hx
    obtain ⟨⟨before, hbefore⟩, hguard, hstep⟩ := hrun.of_mem hx
    have hinv := allocationInv_of_run (hbefore.step hguard hstep)
    exact ⟨h x hx, smallestFree_getGuid hinv.accounts hinv.bound (h x hx)⟩

/-- Three ids are issued, two are recycled, the larger one first, and issued again. -/
theorem smallest_first_iff_reuse :
    ∃ history s, allocatorSystem.Run (fun _ _ => true = true) history s ∧
      s.live = [2, 1, 3] ∧ ∀ x ∈ history, SmallestFirst x.target := by
  have hreplay : (replay Allocation.exec (fun _ _ => true) [] Allocation.init
      [.getGuid 0, .getGuid 0, .getGuid 0, .recycleGuid 2, .recycleGuid 1, .getGuid 7,
        .getGuid 7]).any
      (fun r => decide (r.2.live = [2, 1, 3]) &&
        r.1.all fun x => keepsOrder x.source x.event) = true := by decide
  obtain ⟨history, s, hrun, htest⟩ := exists_run_of_replay
    (fun history (s : Allocation) => decide (s.live = [2, 1, 3]) &&
      history.all fun x => keepsOrder x.source x.event) hreplay
  rw [Bool.and_eq_true, decide_eq_true_eq, List.all_eq_true] at htest
  have hrun' : allocatorSystem.Run unguarded history s := hrun.mono fun _ _ _ => trivial
  exact ⟨history, s, hrun, htest.1, (smallest_first_iff hrun').mpr htest.2⟩

/-- Eight ids are issued and recycled in another order; two of them are issued again. -/
def recycledInDisorder : List AllocatorCall :=
  List.replicate 8 (.getGuid 0) ++ [6, 3, 2, 4, 7, 1, 8, 5].map .recycleGuid ++
    List.replicate 2 (.getGuid 0)

/-- Id 3 is not in use, and a larger one is issued next. -/
def issuesLarger (s : Allocation) : Bool :=
  decide (3 ∉ s.live) && decide (3 < (s.guid.getGuid 0).1)

/-- After that, 4 is on top of the heap while 3 is free. -/
theorem larger_issued : ¬ ∀ s, allocatorSystem.Reachable unguarded s → SmallestFirst s := by
  intro hsmallest
  have hreplay : (replay Allocation.exec (fun _ _ => true) [] Allocation.init
      recycledInDisorder).any (fun r => issuesLarger r.2) = true := by decide +kernel
  obtain ⟨history, s, hrun, htest⟩ := exists_run_of_replay (fun _ s => issuesLarger s) hreplay
  simp only [issuesLarger, Bool.and_eq_true, decide_eq_true_eq] at htest
  obtain ⟨-, -, -, hbelow⟩ | ⟨hnone, -⟩ :=
    (hsmallest s ⟨history, hrun.mono fun _ _ _ => trivial⟩).issues 0
  · exact htest.1 (hbelow 3 (by omega) htest.2)
  · omega

end DreamboatRpc.Client
