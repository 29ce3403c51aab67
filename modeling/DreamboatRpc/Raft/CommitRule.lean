import DreamboatRpc.CS.OrderStatistic
import DreamboatRpc.Raft.Steps

/-!
# Which index a leader commits

After every acknowledge a leader looks for an index that more than half of the nodes have
reached. Its loop runs through the match indices downwards and overwrites its result each
time it finds one, so it ends with the smallest match index, which all nodes have reached:
one node that lags behind keeps everything from being committed.

## Main definitions

* `Node.majorityReached` — the match indices that more than half of the nodes have reached
* `Node.CommitsMajority` — the block after an acknowledge commits the largest of these
* `Node.fewAhead` — at most half of the nodes are ahead of the last one

## Main results

* `commitCommittable_commitIndex` — the commit index after the block
* `commitsMajority_iff` — when the block commits what a majority has reached
-/

namespace DreamboatRpc.Raft

open CS

variable {n : ℕ} {V : Type*}

namespace Node

/-- The match indices that more than half of the nodes have reached. -/
def majorityReached (nd : Node n V) : Set ℕ := reachedBy (n / 2 + 1) nd.matchIndex

/-- What the block after an acknowledge is there for: it determines the largest index that
more than half of the nodes have reached, and the commit index rises to it. -/
def CommitsMajority (nd : Node n V) : Prop :=
  IsGreatest nd.majorityReached nd.maxCommittableIndex ∧
    nd.commitCommittable.commitIndex = max nd.commitIndex nd.maxCommittableIndex

/-- At most half of the nodes are ahead of the one that lags behind most. -/
def fewAhead (nd : Node n V) : Bool :=
  decide ((Finset.univ.filter fun q => ∃ r, nd.matchIndex r < nd.matchIndex q).card ≤ n / 2)

variable {nd : Node n V}

theorem lt_maxCommittableIndex_iff {k : ℕ} :
    k < nd.maxCommittableIndex ↔ ∀ q, k < nd.matchIndex q := by
  obtain ⟨⟨r, hr⟩, hle⟩ := nd.maxCommittableIndex_isLeast nd.myId
  refine ⟨fun h q => h.trans_le (hle (Set.mem_range_self q)), fun h => ?_⟩
  rw [← hr]
  exact h r

theorem maxCommittableIndex_lt_iff {k : ℕ} :
    nd.maxCommittableIndex < k ↔ ∃ q, nd.matchIndex q < k := by
  obtain ⟨⟨r, hr⟩, hle⟩ := nd.maxCommittableIndex_isLeast nd.myId
  refine ⟨fun h => ⟨r, by rwa [hr]⟩, fun ⟨q, hq⟩ => ?_⟩
  exact (hle (Set.mem_range_self q)).trans_lt hq

/-- The smallest match index is the largest a majority has reached iff few nodes are ahead
of it. -/
theorem isGreatest_majorityReached_iff :
    IsGreatest nd.majorityReached nd.maxCommittableIndex ↔ nd.fewAhead = true := by
  have hleast := nd.maxCommittableIndex_isLeast nd.myId
  have hmajority : n / 2 + 1 ≤ Fintype.card (Fin n) := by
    rw [Fintype.card_fin]
    have := nd.myId.pos
    omega
  have hahead : (Finset.univ.filter fun q => ∃ r, nd.matchIndex r < nd.matchIndex q) =
      Finset.univ.filter fun q => nd.maxCommittableIndex < nd.matchIndex q := by
    ext q
    simp only [Finset.mem_filter, Finset.mem_univ, true_and, maxCommittableIndex_lt_iff]
  rw [majorityReached, isGreatest_reachedBy_iff hleast (Nat.succ_pos _) hmajority, fewAhead,
    decide_eq_true_iff, hahead, Nat.lt_succ_iff]

/-- A leader whose log does not reach the index it wants to commit raises. -/
theorem commitCommittable_commitIndex (nd : Node n V) :
    nd.commitCommittable.commitIndex =
      if nd.commitIndex < nd.maxCommittableIndex ∧ nd.maxCommittableIndex < nd.log.length then
        nd.maxCommittableIndex
      else nd.commitIndex := by
  unfold commitCommittable
  by_cases hlt : nd.commitIndex < nd.maxCommittableIndex
  · rw [if_pos hlt, broadcastCommmitEntries]
    by_cases hlen : nd.maxCommittableIndex < nd.log.length
    · -- the commit itself, then a message to every node
      obtain ⟨talker, htalker⟩ := sendCommittal_foldl_eq
        (nd.commitEntry nd.maxCommittableIndex (nd.log[nd.maxCommittableIndex]).term)
        (List.finRange n)
      rw [if_pos ⟨hlt, hlen⟩, List.getElem?_eq_getElem hlen]
      exact congrArg Node.commitIndex htalker
    · rw [if_neg (by simp [hlen]), List.getElem?_eq_none (by omega)]
  · rw [if_neg hlt, if_neg (by simp [hlt])]

theorem commitCommittable_commitIndex_eq_max_iff :
    nd.commitCommittable.commitIndex = max nd.commitIndex nd.maxCommittableIndex ↔
      (nd.commitIndex < nd.maxCommittableIndex →
        nd.maxCommittableIndex < nd.log.length) := by
  rw [commitCommittable_commitIndex]
  by_cases hlt : nd.commitIndex < nd.maxCommittableIndex
  · rw [max_eq_right hlt.le]
    by_cases hlen : nd.maxCommittableIndex < nd.log.length
    · simp [hlt, hlen]
    · simp only [hlt, hlen, and_false, if_false, forall_const, iff_false]
      omega
  · rw [max_eq_left (not_lt.mp hlt)]
    simp [hlt]

/-- The block after an acknowledge commits the largest index that a majority has reached
iff at most half of the nodes are ahead of the last one, and the log reaches the smallest
match index if that is still to be committed. -/
theorem commitsMajority_iff (nd : Node n V) :
    nd.CommitsMajority ↔ nd.fewAhead = true ∧
      ((∀ q, nd.commitIndex < nd.matchIndex q) → ∃ q, nd.matchIndex q < nd.log.length) := by
  rw [CommitsMajority, isGreatest_majorityReached_iff, commitCommittable_commitIndex_eq_max_iff,
    lt_maxCommittableIndex_iff, maxCommittableIndex_lt_iff]

end Node

/-- Node `0` of three wins with the vote of node `1`, which stores its first entry and
acknowledges it; nothing reaches node `2`. -/
def storedByTwo : List (Event 3 (List ℕ)) :=
  [.run 0, .run 1, .follower 0 none true, .run 0, .candidate 0 (some 0) false,
    .candidate 0 (some 0) false, .follower 1 (some 0) false, .candidate 0 (some 1) false, .run 0,
    .follower 1 (some 0) false, .follower 1 (some 0) false,
    .leader 0 false (fun _ => false) (some 1)]

/-- The entry is on two nodes of three, and is not what the leader finds committable. -/
theorem minority_blocks_commit :
    ∃ s : Cluster 3 (List ℕ), (clusterSystem 3 (List ℕ)).Reachable unguarded s ∧
      (s.nodes 0).loop = .leader ∧ 1 ∈ (s.nodes 0).majorityReached ∧
      (s.nodes 0).commitIndex = 0 ∧ ¬ (s.nodes 0).CommitsMajority := by
  have hreplay : (replay Cluster.exec (fun _ _ => true) [] Cluster.init storedByTwo).any
      (fun r => (r.2.nodes 0).loop = .leader ∧ (r.2.nodes 0).commitIndex = 0 ∧
        (r.2.nodes 0).matchIndex = fun p => if p = 2 then 0 else 1) = true := by decide
  obtain ⟨history, s, hrun, htest⟩ := exists_run_of_replay (fun _ (s : Cluster 3 (List ℕ)) =>
    (s.nodes 0).loop = .leader ∧ (s.nodes 0).commitIndex = 0 ∧
      (s.nodes 0).matchIndex = fun p => if p = 2 then 0 else 1) hreplay
  obtain ⟨hloop, hcommit, hmatch⟩ := of_decide_eq_true htest
  refine ⟨s, ⟨history, hrun.mono fun _ _ _ => trivial⟩, hloop, ?_, hcommit, ?_⟩
  · rw [Node.majorityReached, hmatch]
    exact ⟨⟨0, rfl⟩, by decide⟩
  · intro hmajority
    have hfew := Node.isGreatest_majorityReached_iff.mp hmajority.1
    rw [Node.fewAhead, hmatch] at hfew
    exact absurd hfew (by decide)

end DreamboatRpc.Raft
