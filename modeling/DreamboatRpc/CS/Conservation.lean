import Mathlib.Algebra.BigOperators.Pi
import Mathlib.Algebra.Order.BigOperators.Group.Finset
import Mathlib.Algebra.Ring.Nat
import Mathlib.Data.Fintype.BigOperators
import DreamboatRpc.CS.FifoNetwork
import DreamboatRpc.CS.Transition

/-!
# What is passed on is not multiplied

Parties hold something that can be counted, and pass it on in messages. If no step creates
any of it, then in every run what is held, together with what has left the system, is at most
what has entered it. To check this for a step one has to know what a step changes: the share
of one party, and what is on the channels that lead to it and from it.

## Main definitions

* `FifoNetwork.weight` — what all messages under way weigh together
* `FifoNetwork.outboxWeight` — what the messages of an outbox weigh, each once for everyone
  who receives it

## Main results

* `weight_send`, `weight_head`, `weight_lose_le` — what sending, receiving and losing a
  message does to the weight
* `Run.conserved` — the accounts of a run, from those of its steps
* `getElem?_unique_of_countP_le_one` — at most one place of a list is counted
-/

namespace CS

/-- Only the share of the party that changes counts. -/
theorem sum_update_add {ι α : Type*} [Fintype ι] [DecidableEq ι] (f : ι → α) (w : α → ℕ) (p : ι)
    (a : α) : (∑ q, w (Function.update f p a q)) + w (f p) = (∑ q, w (f q)) + w a := by
  have hshare : (fun q => w (Function.update f p a q)) =
      Function.update (fun q => w (f q)) p (w a) := by
    funext q
    exact Function.apply_update (fun _ => w) f p a q
  rw [hshare, Finset.sum_update_of_mem (Finset.mem_univ p), ← Finset.erase_eq,
    ← Finset.add_sum_erase _ (fun q => w (f q)) (Finset.mem_univ p)]
  omega

namespace FifoNetwork

variable {ι μ : Type*} [Fintype ι] [DecidableEq ι] {net net' : FifoNetwork ι μ} {p q : ι}
  {out : List (Option ι × μ)} {m : μ} {w : μ → ℕ}

/-- What the messages under way weigh together. -/
def weight (w : μ → ℕ) (net : FifoNetwork ι μ) : ℕ := ∑ p, ∑ q, ((net p q).map w).sum

/-- What an outbox adds to the channels. -/
def outboxWeight (w : μ → ℕ) (out : List (Option ι × μ)) : ℕ :=
  ∑ q, ((addressedTo q out).map w).sum

omit [DecidableEq ι] in
@[simp] theorem weight_empty : weight w (empty : FifoNetwork ι μ) = 0 := by
  simp [weight, empty]

/-- A message to one party is received once. -/
@[simp] theorem outboxWeight_singleton : outboxWeight w [(some q, m)] = w m := by
  have hone : ∀ r, ((addressedTo r [(some q, m)]).map w).sum = if q = r then w m else 0 := by
    intro r
    by_cases hr : q = r
    · simp [addressedTo, hr]
    · simp [addressedTo, hr]
  simp [outboxWeight, hone]

/-- Messages that weigh nothing may be sent to everyone. -/
theorem outboxWeight_eq_zero (h : ∀ m ∈ out, w m.2 = 0) : outboxWeight w out = 0 := by
  refine Finset.sum_eq_zero fun q _ => List.sum_eq_zero fun k hk => ?_
  obtain ⟨m, hm, rfl⟩ := List.mem_map.mp hk
  rcases mem_addressedTo.mp hm with hm | hm
  · exact h _ hm
  · exact h _ hm

theorem weight_send : (net.send p out).weight w = net.weight w + outboxWeight w out := by
  have hchannel : ∀ a b, ((net.send p out a b).map w).sum =
      ((net a b).map w).sum + if a = p then ((addressedTo b out).map w).sum else 0 := by
    intro a b
    by_cases ha : a = p
    · simp [send, ha]
    · simp [send, ha]
  simp only [weight, hchannel, Finset.sum_add_distrib]
  congr 1
  rw [Finset.sum_comm]
  simp [outboxWeight]

/-- The oldest message of one channel is received. -/
theorem weight_head (h : net p q = m :: net' p q)
    (hother : ∀ a b, ¬ (a = p ∧ b = q) → net' a b = net a b) :
    net.weight w = net'.weight w + w m := by
  have hchannel : ∀ a b, ((net a b).map w).sum =
      ((net' a b).map w).sum + if a = p then if b = q then w m else 0 else 0 := by
    intro a b
    by_cases hab : a = p ∧ b = q
    · obtain ⟨rfl, rfl⟩ := hab
      simp [h, Nat.add_comm]
    · rw [hother a b hab]
      simp only [← ite_and, if_neg hab, Nat.add_zero]
  simp only [weight, hchannel, Finset.sum_add_distrib]
  simp

/-- What is lost weighs nothing any more. -/
theorem weight_lose_le (i : ℕ) : (net.lose p q i).weight w ≤ net.weight w := by
  refine Finset.sum_le_sum fun a _ => Finset.sum_le_sum fun b _ => ?_
  exact ((lose_sublist net i).map w).sum_le_sum fun _ _ => Nat.zero_le _

end FifoNetwork

/-! ## Accounts of a run -/

/-- If no step gives out more than it takes in and than is held less after it, then along a
run what is held, and what was given out, is at most what was taken in. -/
theorem TransitionSystem.Run.conserved {σ ε : Type*} {T : TransitionSystem σ ε}
    {G : σ → ε → Prop} {history : List (Transition σ ε)} {s : σ} (held : σ → ℕ)
    {enters leaves : Transition σ ε → ℕ} (hinit : ∀ s, T.init s → held s = 0)
    (hstep : ∀ s e t, T.Reachable G s → T.step s e t →
      held t + leaves ⟨s, e, t⟩ ≤ held s + enters ⟨s, e, t⟩)
    (h : T.Run G history s) :
    held s + (history.map leaves).sum ≤ (history.map enters).sum := by
  induction h with
  | init h => simp [hinit _ h]
  | step hrun hguard hs ih =>
    have hlast := hstep _ _ _ ⟨_, hrun⟩ hs
    simp only [List.map_cons, List.sum_cons]
    omega

/-- Where at most one element of a list is counted, it stands in one place. -/
theorem getElem?_unique_of_countP_le_one {α : Type*} {l : List α} {f : α → Bool}
    (h : l.countP f ≤ 1) {i j : ℕ} {x y : α} (hx : l[i]? = some x) (hy : l[j]? = some y)
    (hfx : f x = true) (hfy : f y = true) : i = j := by
  induction l generalizing i j with
  | nil => simp at hx
  | cons a l ih =>
    rw [List.countP_cons] at h
    -- an element counted in the tail leaves no room for the head
    have htail : ∀ {k : ℕ} {z : α}, l[k]? = some z → f z = true → f a = false := by
      intro k z hz hfz
      have hpos : 0 < l.countP f := List.countP_pos_iff.mpr ⟨z, List.mem_of_getElem? hz, hfz⟩
      by_contra ha
      rw [Bool.not_eq_false] at ha
      rw [if_pos ha] at h
      omega
    cases i with
    | zero =>
      cases j with
      | zero => rfl
      | succ j =>
        rw [List.getElem?_cons_zero, Option.some.injEq] at hx
        rw [List.getElem?_cons_succ] at hy
        simp [htail hy hfy, ← hx] at hfx
    | succ i =>
      rw [List.getElem?_cons_succ] at hx
      cases j with
      | zero =>
        rw [List.getElem?_cons_zero, Option.some.injEq] at hy
        simp [htail hx hfx, ← hy] at hfy
      | succ j =>
        rw [List.getElem?_cons_succ] at hy
        rw [ih (by omega) hx hy]

end CS
