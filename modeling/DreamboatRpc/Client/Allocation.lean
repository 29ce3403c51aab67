import DreamboatRpc.CS.Transition
import DreamboatRpc.Client.Guid

/-!
# Ids over a whole run

Calls of `GetGuid` and `RecycleGuid` in any order, as long as an id is recycled only while it
is in use. Ids are shared out without loss, and no more different ones are ever issued than
were needed at once.

## Main definitions

* `Allocation` — the allocator and the ids in use
* `allocatorSystem` — the calls

## Main results

* `Guid.getGuid_eq_neg_one_iff` — when there is no id left
* `Allocation.exec_inv` — what one call preserves
* `id_allocator` — ids in use and ids in the heap share out the ids up to the bound, none is
  issued twice, and the bound is a number of ids that were in use together
-/

namespace DreamboatRpc.Client

open CS

/-- The allocator, and the ids that were issued and have not been recycled. -/
structure Allocation where
  guid : Guid
  live : List ℤ
  deriving DecidableEq

/-- A call of the allocator. What a read behind the end of the heap gives is part of it. -/
inductive AllocatorCall
  | getGuid (beyond : ℤ)
  | recycleGuid (id : ℤ)
  deriving DecidableEq

namespace Allocation

/-- Nothing was issued yet. -/
def init : Allocation := ⟨.init, []⟩

/-- What a call does; only ids in use are recycled. -/
def exec (s : Allocation) : AllocatorCall → Option Allocation
  | .getGuid beyond =>
    let issued := s.guid.getGuid beyond
    some ⟨issued.2, if issued.1 = -1 then s.live else issued.1 :: s.live⟩
  | .recycleGuid id =>
    if id ∈ s.live then some ⟨s.guid.recycleGuid id, s.live.erase id⟩ else none

end Allocation

/-- The allocator under any sequence of calls. -/
def allocatorSystem : TransitionSystem Allocation AllocatorCall :=
  .ofExec Allocation.init Allocation.exec

/-! ## Running out of ids -/

namespace Guid

variable {g : Guid} {live : List ℤ} {beyond : ℤ}

/-- There is no id left iff all that there can be are in use. -/
theorem getGuid_eq_neg_one_iff (h : g.Accounts live) (hbound : g.bound ≤ maxGuid) :
    (g.getGuid beyond).1 = -1 ↔ ∀ id, 1 ≤ id → id ≤ maxGuid → id ∈ live := by
  have hlength := h.length_eq
  constructor
  · intro hnone id hone hle
    obtain ⟨-, hfull⟩ | ⟨hone', -⟩ := h.getGuid beyond
    · -- nothing is left for the heap
      have hheap : g.heap = [] := by
        rw [← List.length_eq_zero_iff]
        omega
      have hmem := (h.mem id).mpr ⟨hone, by omega⟩
      rwa [hheap, List.append_nil] at hmem
    · omega
  · intro hall
    -- the bound is in use, and so is everything below it
    have hmax : g.bound = maxGuid := by
      have hlast := hall maxGuid (by decide) le_rfl
      have hin := ((h.mem maxGuid).mp (List.mem_append_left _ hlast)).2
      omega
    have hheap : g.heap = [] := by
      rw [List.eq_nil_iff_forall_not_mem]
      intro id hid
      obtain ⟨hone, hle⟩ := (h.mem id).mp (List.mem_append_right _ hid)
      have hlive := hall id hone (by omega)
      exact (List.nodup_append.mp h.nodup).2.2 id hlive id hid rfl
    simp only [Guid.getGuid, if_pos hheap, hmax, ge_iff_le, le_refl, if_true]

theorem getGuid_not_mem (h : g.Accounts live) : (g.getGuid beyond).1 ∉ live := by
  obtain ⟨heq, -⟩ | ⟨-, -, hfresh, -⟩ := h.getGuid beyond
  · intro hmem
    have hin := (h.mem _).mp (List.mem_append_left _ hmem)
    rw [heq] at hin
    omega
  · exact hfresh

/-- The bound grows only as far as the ids in use, and never beyond the largest id. -/
theorem getGuid_bound (beyond : ℤ) (h : g.Accounts live) (hbound : g.bound ≤ maxGuid) :
    (g.getGuid beyond).1 ≤ (g.getGuid beyond).2.bound ∧ (g.getGuid beyond).2.bound ≤ maxGuid ∧
      g.bound ≤ (g.getGuid beyond).2.bound := by
  have hpos := h.bound
  unfold Guid.getGuid
  by_cases hheap : g.heap = []
  · rw [if_pos hheap]
    split
    · exact ⟨by simp only; omega, hbound, le_rfl⟩
    · exact ⟨le_rfl, by simp only; omega, by simp only; omega⟩
  · rw [if_neg hheap]
    -- the top of the heap is an id that was issued before
    have htop : (popItem beyond g.heap).1 ∈ g.heap :=
      (popItem_perm hheap).subset List.mem_cons_self
    exact ⟨((h.mem _).mp (List.mem_append_right _ htop)).2, hbound, le_rfl⟩

/-- Once an id was asked for, there is a bound. -/
theorem Accounts.bound_getGuid_ne_zero (h : g.Accounts live) (beyond : ℤ) :
    (g.getGuid beyond).2.bound ≠ 0 := by
  have hlength := h.length_eq
  obtain ⟨heq, hfull⟩ | ⟨hone, hle, -⟩ := h.getGuid beyond
  · -- all ids are in use
    have hmany : (maxGuid : ℤ) = 1024 := rfl
    rw [heq]
    simp only
    omega
  · omega

end Guid

/-! ## Runs -/

variable {history : List (Transition Allocation AllocatorCall)} {s t : Allocation}
  {call : AllocatorCall}

/-- So many ids have been in use together in some state of the run. -/
def InUseTogether (history : List (Transition Allocation AllocatorCall)) (k : ℤ) : Prop :=
  ∃ x ∈ history, k ≤ x.target.live.length

theorem InUseTogether.mono {k k' : ℤ} (h : InUseTogether history k) (hk : k' ≤ k)
    (x : Transition Allocation AllocatorCall) : InUseTogether (x :: history) k' := by
  obtain ⟨y, hy, hle⟩ := h
  exact ⟨y, List.mem_cons_of_mem x hy, hk.trans hle⟩

/-- The ids are accounted for, every issued id is within the bound, and if there is a bound at
all, so many ids have been in use together. -/
structure AllocationInv (history : List (Transition Allocation AllocatorCall))
    (s : Allocation) : Prop where
  accounts : s.guid.Accounts s.live
  bound : s.guid.bound ≤ maxGuid
  peak : s.guid.bound = 0 ∨ InUseTogether history s.guid.bound
  issued : ∀ x ∈ history, ∀ beyond, x.event = .getGuid beyond →
    (x.source.guid.getGuid beyond).1 ≤ s.guid.bound ∧ s.guid.bound ≠ 0

namespace Allocation

theorem init_inv : AllocationInv [] init :=
  ⟨.init, by decide, .inl rfl, by simp⟩

theorem getGuid_inv (h : AllocationInv history s) (beyond : ℤ)
    (hs : s.exec (.getGuid beyond) = some t) :
    AllocationInv (⟨s, .getGuid beyond, t⟩ :: history) t := by
  simp only [exec, Option.some.injEq] at hs
  obtain ⟨hissued, hmax, hgrows⟩ := Guid.getGuid_bound beyond h.accounts h.bound
  have hlength := h.accounts.length_eq
  have hguid : t.guid = (s.guid.getGuid beyond).2 := by rw [← hs]
  have hpos : t.guid.bound ≠ 0 := hguid ▸ h.accounts.bound_getGuid_ne_zero beyond
  have hold : ∀ x ∈ history, ∀ b, x.event = .getGuid b →
      (x.source.guid.getGuid b).1 ≤ t.guid.bound ∧ t.guid.bound ≠ 0 := by
    intro x hx b hb
    have hx' := (h.issued x hx b hb).1
    exact ⟨by rw [hguid]; omega, hpos⟩
  have hissues : ∀ x ∈ (⟨s, .getGuid beyond, t⟩ :: history : List _), ∀ b,
      x.event = .getGuid b → (x.source.guid.getGuid b).1 ≤ t.guid.bound ∧ t.guid.bound ≠ 0 := by
    intro x hx b hb
    rcases List.mem_cons.mp hx with rfl | hx
    · obtain rfl : beyond = b := AllocatorCall.getGuid.inj hb
      exact ⟨by rw [hguid]; exact hissued, hpos⟩
    · exact hold x hx b hb
  obtain ⟨heq, hfull⟩ | ⟨hone, -, -, haccounts, hbound⟩ := h.accounts.getGuid beyond
  · -- nothing was issued, and nothing changes
    have hsame : t = s := by
      rw [← hs, heq]
      rfl
    refine ⟨hsame ▸ h.accounts, hguid ▸ hmax, ?_, hissues⟩
    rcases h.peak with hzero | hpeak
    · exact .inl (hsame ▸ hzero)
    · exact .inr (hpeak.mono (by rw [hsame]) _)
  · have hlive : t.live = (s.guid.getGuid beyond).1 :: s.live := by
      rw [← hs]
      exact if_neg (by omega)
    refine ⟨by rw [hguid, hlive]; exact haccounts, hguid ▸ hmax, .inr ?_, hissues⟩
    rcases hbound with hsame | hnew
    · -- an id that was issued before
      rcases h.peak with hzero | hpeak
      · rw [hguid, hsame] at hpos
        exact absurd hzero hpos
      · exact hpeak.mono (by rw [hguid, hsame]) _
    · -- a new one: now all ids up to the bound are in use
      refine ⟨_, List.mem_cons_self .., ?_⟩
      simp only [hguid, hnew, hlive, List.length_cons]
      omega

theorem recycleGuid_inv (h : AllocationInv history s) (id : ℤ)
    (hs : s.exec (.recycleGuid id) = some t) :
    AllocationInv (⟨s, .recycleGuid id, t⟩ :: history) t := by
  simp only [exec, Option.ite_none_right_eq_some, Option.some.injEq] at hs
  obtain ⟨hlive, rfl⟩ := hs
  refine ⟨h.accounts.recycleGuid hlive, h.bound, ?_, fun x hx beyond hevent => ?_⟩
  · rcases h.peak with hzero | hpeak
    · exact .inl hzero
    · exact .inr (hpeak.mono le_rfl _)
  · rcases List.mem_cons.mp hx with rfl | hx
    · simp at hevent
    · exact h.issued x hx beyond hevent

theorem exec_inv (h : AllocationInv history s) (hs : s.exec call = some t) :
    AllocationInv (⟨s, call, t⟩ :: history) t := by
  cases call with
  | getGuid beyond => exact getGuid_inv h beyond hs
  | recycleGuid id => exact recycleGuid_inv h id hs

end Allocation

theorem allocationInv_of_run (h : allocatorSystem.Run unguarded history s) :
    AllocationInv history s := by
  refine TransitionSystem.Run.invariant (I := AllocationInv) ?_ ?_ h
  · rintro _ rfl
    exact Allocation.init_inv
  · intro history s call t hinv _ hstep
    exact Allocation.exec_inv hinv hstep

/-- Whatever the order of the calls, as long as only ids in use are recycled: the ids in use
and those in the heap are the ids from 1 to the bound, without duplicates; `GetGuid` never
gives an id in use, and none at all exactly if all there can be are in use; and no id was ever
issued that is larger than the number of ids in use in some state of the run. -/
theorem id_allocator (h : allocatorSystem.Run unguarded history s) :
    s.guid.Accounts s.live ∧
    (∀ beyond, (s.guid.getGuid beyond).1 ∉ s.live ∧
      ((s.guid.getGuid beyond).1 = -1 ↔ ∀ id, 1 ≤ id → id ≤ maxGuid → id ∈ s.live)) ∧
    ∀ x ∈ history, ∀ beyond, x.event = .getGuid beyond →
      InUseTogether history (x.source.guid.getGuid beyond).1 := by
  have hinv := allocationInv_of_run h
  refine ⟨hinv.accounts, fun beyond => ⟨Guid.getGuid_not_mem hinv.accounts,
    Guid.getGuid_eq_neg_one_iff hinv.accounts hinv.bound⟩, fun x hx beyond hevent => ?_⟩
  obtain ⟨hle, hne⟩ := hinv.issued x hx beyond hevent
  obtain ⟨y, hy, hpeak⟩ := hinv.peak.resolve_left hne
  exact ⟨y, hy, hle.trans hpeak⟩

/-- Two ids are issued, the first is recycled and issued again. -/
theorem id_allocator_reuse :
    ∃ history s, allocatorSystem.Run (fun _ _ => true = true) history s ∧
      s.live = [1, 2] ∧ s.guid.Accounts s.live := by
  have hreplay : (replay Allocation.exec (fun _ _ => true) [] Allocation.init
      [.getGuid 0, .getGuid 0, .recycleGuid 1, .getGuid 7]).any
      (fun r => r.2.live = [1, 2]) = true := by decide
  obtain ⟨history, s, hrun, hlive⟩ :=
    exists_run_of_replay (fun _ (s : Allocation) => s.live = [1, 2]) hreplay
  have hrun' : allocatorSystem.Run unguarded history s := hrun.mono fun _ _ _ => trivial
  exact ⟨history, s, hrun, of_decide_eq_true hlive, (id_allocator hrun').1⟩

end DreamboatRpc.Client
