import Mathlib.Data.Fintype.Prod
import Mathlib.Data.List.Basic
import Mathlib.Logic.Relation

/-!
# Point-to-point FIFO channels with loss

A network holds, for every ordered pair of parties, the messages the first has
sent the second and the second has not yet received, oldest first. A message may
be addressed to one party or to everyone, the sender included.
-/

namespace CS

/-- The messages under way from the first party to the second, oldest first. -/
abbrev FifoNetwork (ι μ : Type*) := ι → ι → List μ

namespace FifoNetwork

variable {ι μ : Type*} [DecidableEq ι] (net : FifoNetwork ι μ) {p q src dst : ι}
  {out : List (Option ι × μ)} {m : μ}

/-- Nothing is under way. -/
def empty : FifoNetwork ι μ := fun _ _ => []

/-- The part of an outbox that a given party receives: what is addressed to it,
and what is addressed to everyone. -/
def addressedTo (dst : ι) (out : List (Option ι × μ)) : List μ :=
  out.filterMap fun m => if m.1 = none ∨ m.1 = some dst then some m.2 else none

/-- Replace one channel. -/
def setChannel (src dst : ι) (queue : List μ) : FifoNetwork ι μ :=
  fun p q => if p = src ∧ q = dst then queue else net p q

/-- Put an outbox on the channels that lead from its sender. -/
def send (src : ι) (out : List (Option ι × μ)) : FifoNetwork ι μ :=
  fun p q => if p = src then net p q ++ addressedTo q out else net p q

/-- What a network can do on its own by losing, repeating and reordering messages: every
channel holds only what it held before. -/
def Rearranges (net' net : FifoNetwork ι μ) : Prop := ∀ p q, net' p q ⊆ net p q

/-- The `i`-th message under way from `src` to `dst` gets lost. -/
def lose (src dst : ι) (i : ℕ) : FifoNetwork ι μ :=
  net.setChannel src dst ((net src dst).eraseIdx i)

@[simp] theorem addressedTo_nil : addressedTo dst ([] : List (Option ι × μ)) = [] := rfl

@[simp] theorem addressedTo_append (out out' : List (Option ι × μ)) :
    addressedTo dst (out ++ out') = addressedTo dst out ++ addressedTo dst out' := by
  simp [addressedTo]

theorem mem_addressedTo :
    m ∈ addressedTo dst out ↔ (none, m) ∈ out ∨ (some dst, m) ∈ out := by
  simp only [addressedTo, List.mem_filterMap, Option.ite_none_right_eq_some,
    Option.some.injEq, Prod.exists]
  constructor
  · rintro ⟨r, _, hmem, hr, rfl⟩
    rcases hr with rfl | rfl
    · exact .inl hmem
    · exact .inr hmem
  · rintro (hmem | hmem)
    · exact ⟨none, m, hmem, .inl rfl, rfl⟩
    · exact ⟨some dst, m, hmem, .inr rfl, rfl⟩

@[simp] theorem setChannel_same (queue : List μ) :
    net.setChannel src dst queue src dst = queue := by
  simp [setChannel]

theorem setChannel_of_ne (queue : List μ) (h : ¬ (p = src ∧ q = dst)) :
    net.setChannel src dst queue p q = net p q := by
  simp [setChannel, h]

@[simp] theorem send_same : net.send src out src q = net src q ++ addressedTo q out := by
  simp [send]

theorem send_of_ne (h : p ≠ src) : net.send src out p q = net p q := by
  simp [send, h]

theorem lose_sublist (i : ℕ) : (net.lose src dst i p q).Sublist (net p q) := by
  unfold lose setChannel
  split
  · rename_i h
    rw [h.1, h.2]
    exact List.eraseIdx_sublist ..
  · exact List.Sublist.refl _

end FifoNetwork

/-! ## Losing messages one by one -/

namespace FifoNetwork

variable {ι μ : Type*} [DecidableEq ι] {net net' : FifoNetwork ι μ}

/-- One message gets lost. -/
def Loses (net net' : FifoNetwork ι μ) : Prop := ∃ src dst i, net' = net.lose src dst i

theorem setChannel_eq_self {src dst : ι} {queue : List μ} (h : net src dst = queue) :
    net.setChannel src dst queue = net := by
  funext p q
  unfold setChannel
  split
  · rename_i hpq
    rw [hpq.1, hpq.2, h]
  · rfl

theorem setChannel_setChannel (src dst : ι) (queue queue' : List μ) :
    (net.setChannel src dst queue).setChannel src dst queue' =
      net.setChannel src dst queue' := by
  funext p q
  unfold setChannel
  split <;> rfl

/-- One channel loses what is not in a sublist of it. -/
theorem lose_channel {src dst : ι} {queue queue' : List μ} (h : queue'.Sublist queue)
    (front : List μ) :
    Relation.ReflTransGen Loses (net.setChannel src dst (front ++ queue))
      (net.setChannel src dst (front ++ queue')) := by
  induction h generalizing front with
  | slnil => exact .refl
  | @cons queue' queue m _ ih =>
    -- the first message is lost, then what the rest loses
    refine .head ⟨src, dst, front.length, ?_⟩ (ih front)
    rw [lose, setChannel_same, setChannel_setChannel]
    simp [List.eraseIdx_append_of_length_le]
  | @cons_cons queue' queue m _ ih =>
    have hkept := ih (front ++ [m])
    simpa only [List.append_assoc, List.singleton_append] using hkept

/-- Whatever a network loses, it can lose message by message. -/
theorem lose_steps [Fintype ι] (h : ∀ p q, (net' p q).Sublist (net p q)) :
    Relation.ReflTransGen Loses net net' := by
  -- channel by channel; `changed` lists those that have lost their messages
  have hsome : ∀ changed : List (ι × ι), Relation.ReflTransGen Loses net
      fun p q => if (p, q) ∈ changed then net' p q else net p q := by
    intro changed
    induction changed with
    | nil => simpa using Relation.ReflTransGen.refl
    | cons x changed ih =>
      set before : FifoNetwork ι μ := fun p q => if (p, q) ∈ changed then net' p q else net p q
        with hbefore
      have hx : (net' x.1 x.2).Sublist (before x.1 x.2) := by
        rw [hbefore]
        simp only
        split
        · exact List.Sublist.refl _
        · exact h x.1 x.2
      have hlost : Relation.ReflTransGen Loses
          (before.setChannel x.1 x.2 ([] ++ before x.1 x.2))
          (before.setChannel x.1 x.2 ([] ++ net' x.1 x.2)) := lose_channel hx []
      rw [List.nil_append, List.nil_append, setChannel_eq_self rfl] at hlost
      have hafter : before.setChannel x.1 x.2 (net' x.1 x.2) =
          fun p q => if (p, q) ∈ x :: changed then net' p q else net p q := by
        funext p q
        by_cases hpq : (p, q) = x
        · subst hpq
          simp
        · have hne : ¬ (p = x.1 ∧ q = x.2) := fun hand => hpq (Prod.ext hand.1 hand.2)
          rw [setChannel_of_ne _ _ hne]
          simp [hbefore, hpq]
      rw [hafter] at hlost
      exact ih.trans hlost
  have hall := hsome (Finset.univ : Finset (ι × ι)).toList
  simpa using hall

end FifoNetwork

end CS
