import DreamboatRpc.Raft.StateMachineSafety

/-!
# Match indices

What a leader believes of the other nodes. A match index starts from the commit index
of the new leader, which is an assumption, and is then set to whatever the next index is
when a positive acknowledge arrives. In runs that meet the conditions of `commitsSafely`
both are right: a commit index is stored by all nodes, and an acknowledge that is
credited answers the entry at the next index.

## Main definitions

* `MatchSound` — nodes agree with their leader up to its match index

## Main results

* `match_index_sound` — match indices are sound under the conditions
* `match_index_unsound` — a leader in an unrestricted run that counts an entry as stored
  on a node that lacks it
-/

namespace DreamboatRpc.Raft

open CS

variable {n : ℕ} {V : Type*}

/-- As long as a node is in the term of a leader, it has the log of the leader up to its
match index. -/
def MatchSound (s : Cluster n V) : Prop :=
  ∀ l p, (s.nodes l).currentRole = .leader → (s.nodes l).loop = .leader →
    (s.nodes p).currentTerm = (s.nodes l).currentTerm →
    AgreeTo ((s.nodes l).matchIndex p) (s.nodes p).log (s.nodes l).log

/-- What a node has stored for the leader of its present term, it still has. -/
theorem ReplicationInv.agreeTo_leader [EmptyCollection V] {s : Cluster n V} {A : Archive n V}
    {l p : Fin n} {m : ℕ} (h : ReplicationInv s A) (hlead : (s.nodes l).currentRole = .leader)
    (hterm : (s.nodes p).currentTerm = (s.nodes l).currentTerm) (hpos : 1 ≤ m)
    (hm : m ≤ A.stored p (s.nodes l).currentTerm) :
    AgreeTo m (s.nodes p).log (s.nodes l).log := by
  rw [← (h.nodes l).leading hlead, ← hterm]
  rw [← hterm] at hm
  exact (h.nodes p).storedCurrent m hpos hm

/-- Match indices are sound in all runs that meet the conditions. -/
theorem match_index_sound [EmptyCollection V] {s : Cluster n V}
    (h : (clusterSystem n V).Reachable (fun s e => commitsSafely s e = true) s) :
    MatchSound s := by
  obtain ⟨history, hrun⟩ := h
  obtain ⟨L, A, c, hacc, hcommit⟩ := exists_commitInv hrun
  intro l p hlead hloop hterm
  have hbacked := (hacc.replication.nodes l).backed ⟨hlead, .inl hloop⟩ p
  -- index `0` is committed from the start, so a match index that is not is positive
  rcases hbacked with hcommitted | hstored
  · have hle := hcommitted.trans (hcommit.nodes l).commitIndex
    exact hcommit.agreeTo hacc.replication hle p l
  · rcases Nat.eq_zero_or_pos ((s.nodes l).matchIndex p) with hzero | hpos
    · rw [hzero]
      exact hcommit.agreeTo hacc.replication (Nat.zero_le c) p l
    · exact hacc.replication.agreeTo_leader hlead hterm hpos hstored

/-- Node `0` leads node `1`, which is in its term, and counts it in up to index `1`. -/
def countsFirst (s : Cluster 2 (List ℕ)) : Bool :=
  decide ((s.nodes 0).currentRole = .leader ∧ (s.nodes 0).loop = .leader ∧
    (s.nodes 1).currentTerm = (s.nodes 0).currentTerm ∧ (s.nodes 0).matchIndex 1 = 1)

theorem match_index_sound_wonElection :
    ∃ s : Cluster 2 (List ℕ), countsFirst s ∧ MatchSound s := by
  have hreplay : (replay Cluster.exec commitsSafely [] (Cluster.init : Cluster 2 (List ℕ))
      (wonElection ++ [.run 0, .follower 1 (some 0) false, .follower 1 (some 0) false,
        .leader 0 false (fun _ => false) (some 1)])).any (fun r => countsFirst r.2) = true := by
    decide
  obtain ⟨history, s, hrun, htest⟩ := exists_run_of_replay (fun _ s => countsFirst s) hreplay
  exact ⟨s, htest, match_index_sound ⟨history, hrun⟩⟩

/-- Node `0` leads node `1` in its term and counts the entry at index `2` as stored there,
but node `1` has no such entry. -/
def countsMissing (s : Cluster 2 (List ℕ)) : Bool :=
  decide ((s.nodes 0).currentRole = .leader ∧ (s.nodes 0).loop = .leader ∧
    (s.nodes 1).currentTerm = (s.nodes 0).currentTerm ∧ (s.nodes 0).matchIndex 1 = 2 ∧
    (s.nodes 1).log.length = 2)

/-- Without the conditions the second answer to an entry that was sent twice is credited to
the entry after it. -/
theorem match_index_unsound :
    ¬ ∀ (n : ℕ) (s : Cluster n (List ℕ)),
      (clusterSystem n (List ℕ)).Reachable unguarded s → MatchSound s := by
  intro hsound
  have hreplay : (replay Cluster.exec (fun _ _ => true) [] Cluster.init
      (creditedTwice.take 17)).any (fun r => countsMissing r.2) = true := by decide
  obtain ⟨history, s, hrun, htest⟩ := exists_run_of_replay (fun _ s => countsMissing s) hreplay
  obtain ⟨hlead, hloop, hterm, hmatch, hlength⟩ := of_decide_eq_true htest
  have hreach : (clusterSystem 2 (List ℕ)).Reachable unguarded s :=
    ⟨history, hrun.mono fun _ _ _ => trivial⟩
  have hagree := hsound 2 s hreach 0 1 hlead hloop hterm
  have hlt := hagree.length_left
  rw [hmatch, hlength] at hlt
  exact absurd hlt (by decide)

end DreamboatRpc.Raft
