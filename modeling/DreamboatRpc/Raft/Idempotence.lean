import DreamboatRpc.CS.Agreement
import DreamboatRpc.Raft.ElectionSafety
import DreamboatRpc.Raft.Handling

/-!
# Receiving an entry again

A follower cuts its log behind the predecessor of an entry before it appends the entry, and
does not look at what it cuts off. A leader sends an entry again when the answer is late, and goes
back when it is refused; an entry the follower already has costs it everything behind.

## Main definitions

* `KeepsAgreeing` — an entry that is there already changes nothing, and only an entry of
  another term in its place makes room for it
* `NothingBehind` — the condition on the log and the entry

## Main results

* `keepsAgreeing_cut_iff` — when cutting a log and appending an entry keeps what agrees
* `followerAppendEntries_keepsAgreeing_iff` — the same for a follower that accepts an entry
-/

namespace DreamboatRpc.Raft

open CS

variable {n : ℕ} {V : Type*}

/-- From `log` to `log'`, with an entry that belongs behind index `k`: nothing changes if it
is there already, and entries from there on are lost only if the one in its place is of
another term. -/
structure KeepsAgreeing (log log' : List (Entry V)) (k : ℕ) (e : Entry V) : Prop where
  unchanged : log[k + 1]? = some e → log' = log
  conflict : ∀ i a, k < i → log[i]? = some a → log'[i]? ≠ some a →
    ∃ b, log[k + 1]? = some b ∧ b.term ≠ e.term

/-- The log ends at index `k`; or the entry behind is of another term than `e`, or it is `e`
itself and the last one. -/
def NothingBehind (log : List (Entry V)) (k : ℕ) (e : Entry V) : Prop :=
  log.length ≤ k + 1 ∨
    ∃ b, log[k + 1]? = some b ∧ (b.term ≠ e.term ∨ (b = e ∧ log.length = k + 2))

section Log

variable {log : List (Entry V)} {k : ℕ} {e : Entry V}

/-- A log that is cut and extended ends with the new entry. -/
theorem length_cut_append (hk : k < log.length) : (log.take (k + 1) ++ [e]).length = k + 2 := by
  rw [List.length_append, List.length_take, List.length_singleton]
  omega

theorem KeepsAgreeing.nothingBehind (hk : k < log.length)
    (h : KeepsAgreeing log (log.take (k + 1) ++ [e]) k e) : NothingBehind log k e := by
  by_cases hlen : log.length ≤ k + 1
  · exact .inl hlen
  obtain ⟨b, hb⟩ : ∃ b, log[k + 1]? = some b := ⟨_, List.getElem?_eq_getElem (by omega)⟩
  refine .inr ⟨b, hb, ?_⟩
  by_cases hterm : b.term = e.term
  swap
  · exact .inl hterm
  -- an entry of the same term has to survive, so it is the new one
  have hsame : (log.take (k + 1) ++ [e])[k + 1]? = some b := by
    by_contra hlost
    obtain ⟨b', hb', hne⟩ := h.conflict (k + 1) b (Nat.lt_succ_self k) hb hlost
    rw [hb, Option.some.injEq] at hb'
    subst hb'
    exact hne hterm
  rw [getElem?_cut_append hk, if_neg (by omega), if_pos rfl, Option.some.injEq] at hsame
  subst hsame
  exact .inr ⟨rfl, by rw [← h.unchanged hb, length_cut_append hk]⟩

theorem NothingBehind.keepsAgreeing (h : NothingBehind log k e) :
    KeepsAgreeing log (log.take (k + 1) ++ [e]) k e := by
  rcases h with hlen | ⟨b, hb, hterm | ⟨rfl, hlen⟩⟩
  · -- nothing is there to be removed
    have hend : ∀ i a, k < i → log[i]? ≠ some a := by
      intro i a hi ha
      have hlt := (List.getElem?_eq_some_iff.mp ha).1
      omega
    exact ⟨fun ha => absurd ha (hend _ _ (Nat.lt_succ_self k)),
      fun i a hi ha => absurd ha (hend i a hi)⟩
  · refine ⟨fun he => ?_, fun _ _ _ _ _ => ⟨b, hb, hterm⟩⟩
    rw [hb, Option.some.injEq] at he
    exact absurd (congrArg Entry.term he) hterm
  · have hself : log.take (k + 1) ++ [b] = log := cut_append_eq_self hlen.le hb
    refine ⟨fun _ => hself, fun i a _ ha hlost => ?_⟩
    rw [hself] at hlost
    exact absurd ha hlost

theorem keepsAgreeing_cut_iff (hk : k < log.length) :
    KeepsAgreeing log (log.take (k + 1) ++ [e]) k e ↔ NothingBehind log k e :=
  ⟨fun h => h.nothingBehind hk, fun h => h.keepsAgreeing⟩

end Log

/-- A follower that accepts an entry keeps what agrees with it iff nothing is behind. -/
theorem followerAppendEntries_keepsAgreeing_iff (nd : Node n V) (term : ℕ) (leaderId : Fin n)
    (prevLogIndex prevLogTerm : ℕ) (entries : Entry V) (leaderCommit : ℕ)
    (h : nd.acceptsAppendEntries term prevLogIndex prevLogTerm = true) :
    KeepsAgreeing nd.log
      (nd.followerAppendEntries term leaderId prevLogIndex prevLogTerm entries leaderCommit).log
      prevLogIndex entries ↔ NothingBehind nd.log prevLogIndex entries := by
  obtain ⟨prev, hprev, -⟩ := Node.term_of_acceptsAppendEntries h
  rw [Node.followerAppendEntries_log, if_pos h]
  exact keepsAgreeing_cut_iff (List.getElem?_eq_some_iff.mp hprev).1

/-- A follower with the initial entry alone is sent one more. -/
theorem followerAppendEntries_keepsAgreeing_first :
    KeepsAgreeing [Node.initialEntry]
      ((Node.init 1 : Node 2 (List ℕ)).followerAppendEntries 1 0 0 1 ⟨1, [7], 1⟩ 0).log 0
      ⟨1, [7], 1⟩ :=
  (followerAppendEntries_keepsAgreeing_iff (Node.init 1 : Node 2 (List ℕ)) 1 0 0 1 ⟨1, [7], 1⟩ 0
    (by decide)).mpr (.inl (by decide))

/-- Node `0` of two leads term 2 with one entry on both nodes, and a second one that gets
lost. Paused and woken up it wins term 3, and sends its third entry twice. Node `1` refuses
both, so node `0` goes back to the second and to the first entry, and node `1` has stored the
second one when the first arrives. -/
def goesBackTwice : List (Event 2 (List ℕ)) :=
  wonElection ++
    [.run 0, .follower 1 (some 0) false, .follower 1 (some 0) false,
      .leader 0 false (fun _ => false) (some 1), .clientRequest 0 [7] 1,
      .leader 0 false (fun _ => false) none, .lose 0 1 1, .pause 0, .unPause 0,
      .leader 0 false (fun _ => false) none, .run 0, .follower 0 none true, .run 0] ++
    List.replicate 6 (.candidate 0 (some 0) false) ++
    [.follower 1 (some 0) false, .follower 1 (some 0) false, .candidate 0 (some 1) false, .run 0,
      .leader 0 false (fun _ => true) none] ++
    List.replicate 3 (.follower 1 (some 0) false) ++
    [.leader 0 false (fun _ => false) (some 1), .leader 0 false (fun _ => false) (some 1),
      .follower 1 (some 0) false]

/-- Node `1` reads an entry that it has, with another one behind it. -/
def readsStoredEntry (s : Cluster 2 (List ℕ)) : Bool :=
  decide ((s.exec (.follower 1 (some 0) false)).isSome = true ∧
    s.received 1 (some 0) = some (0, .appendEntries 3 0 0 1 ⟨2, [], -1⟩ 1) ∧
    (s.nodes 1).acceptsAppendEntries 3 0 1 = true ∧
    (s.nodes 1).log = [⟨1, [], -1⟩, ⟨2, [], -1⟩, ⟨2, [7], 1⟩])

/-- It then has the entry and loses the one behind. -/
theorem stored_entry_removed :
    ∃ s : Cluster 2 (List ℕ), (clusterSystem 2 (List ℕ)).Reachable unguarded s ∧
      (s.exec (.follower 1 (some 0) false)).isSome = true ∧
      s.received 1 (some 0) = some (0, .appendEntries 3 0 0 1 ⟨2, [], -1⟩ 1) ∧
      (s.nodes 1).acceptsAppendEntries 3 0 1 = true ∧
      ¬ KeepsAgreeing (s.nodes 1).log
        ((s.nodes 1).followerAppendEntries 3 0 0 1 ⟨2, [], -1⟩ 1).log 0 ⟨2, [], -1⟩ := by
  have hreplay : (replay Cluster.exec (fun _ _ => true) [] Cluster.init goesBackTwice).any
      (fun r => readsStoredEntry r.2) = true := by decide +kernel
  obtain ⟨history, s, hrun, htest⟩ :=
    exists_run_of_replay (fun _ s => readsStoredEntry s) hreplay
  obtain ⟨hexec, hreceived, haccepts, hlog⟩ := of_decide_eq_true htest
  refine ⟨s, ⟨history, hrun.mono fun _ _ _ => trivial⟩, hexec, hreceived, haccepts, ?_⟩
  intro hkeeps
  have hsame := hkeeps.unchanged (by rw [hlog]; rfl)
  rw [Node.followerAppendEntries_log, if_pos haccepts, hlog] at hsame
  exact absurd hsame (by decide)

end DreamboatRpc.Raft
