import Mathlib.Data.Prod.Lex
import DreamboatRpc.Raft.Ballots
import DreamboatRpc.Raft.CommitRule
import DreamboatRpc.Raft.Handling

/-!
# Whom a node votes for

A candidate asks for votes with the index and term it has last applied, and not with those
of the end of its log. A follower compares the two numbers one by one with what it has
applied itself, whatever the term of the request; a candidate or leader compares nothing
but terms.

## Main definitions

* `Node.lastLog` — term and index of the last entry, which decide whose log is ahead
* `Node.voteRequest` — what a candidate asks for votes with
* `Node.GrantsTo` — a node answers a message with a granted vote
* `Node.GrantsOnlyUpToDate` — only a candidate that is not behind, in term or log, is voted for
* `Node.safeBallot` — the condition on the two nodes

## Main results

* `grantsTo_iff` — the test that stands before a granted vote in each loop
* `grantsOnlyUpToDate_iff` — when a vote goes only to a candidate that is not behind
-/

namespace DreamboatRpc.Raft

open CS FifoNetwork

variable {n : ℕ} {V : Type*}

namespace Node

/-- The term of the last entry and its index, compared in this order. -/
def lastLog (nd : Node n V) : ℕ ×ₗ ℕ := toLex (nd.lastLogTerm, nd.logMaxIndex)

/-- What a node asks for votes with. -/
def voteRequest (c : Node n V) : Message n V :=
  .requestVotes c.currentTerm c.lastAppliedIndex c.lastAppliedTerm

theorem sendRequestVote_eq (c : Node n V) : c.sendRequestVote = c.sendMessage none c.voteRequest :=
  rfl

/-- In handling a message the node sends its sender a granted vote. -/
def GrantsTo (nd : Node n V) (sender : Fin n) (message : Message n V) : Prop :=
  ∃ out term cause, (nd.handle sender message).talker = nd.talker ++ out ∧
    (some sender, ⟨.vote term true, cause⟩) ∈ out

/-- The node votes for `c`, if it does, only as long as the request is not of an earlier
term than its own and the log of `c` does not end before its own. -/
def GrantsOnlyUpToDate (nd c : Node n V) : Prop :=
  nd.GrantsTo c.myId c.voteRequest →
    nd.currentTerm ≤ c.currentTerm ∧ nd.lastLog ≤ c.lastLog

/-- The test that stands before a granted vote in the loop the node is in. -/
def wouldGrant (nd c : Node n V) : Bool :=
  match nd.loop with
  | .follower =>
    (if c.currentTerm > nd.currentTerm then nd.incrementTerm (some c.currentTerm)
      else nd).mayGrant c.lastAppliedIndex c.lastAppliedTerm
  | .candidate _ _ | .leader => decide (nd.currentTerm < c.currentTerm)
  | .run | .crashed => false

/-- The condition on voter and candidate under which a vote is never given wrongly: the
loop the voter is in refuses, or what it does not compare is in order all the same. -/
def safeBallot (nd c : Node n V) : Prop :=
  match nd.loop with
  | .follower =>
    (nd.votedFor ≠ none ∧ c.currentTerm ≤ nd.currentTerm) ∨
      c.lastAppliedIndex < nd.lastAppliedIndex ∨ c.lastAppliedTerm < nd.lastAppliedTerm ∨
      (nd.currentTerm ≤ c.currentTerm ∧ nd.lastLog ≤ c.lastLog)
  | .candidate _ _ | .leader => c.currentTerm ≤ nd.currentTerm ∨ nd.lastLog ≤ c.lastLog
  | .run | .crashed => True

variable {nd nd' : Node n V} {c : Node n V} {sender : Fin n} {message : Message n V}

/-- A node whose only answer is a vote has granted it iff that vote is granted. -/
theorem grantsTo_of_sendVote {term : ℕ} (granted : Bool)
    {cause : Option (Message n V)} (h : (nd.handle sender message).talker =
      nd.talker ++ [(some sender, ⟨.vote term granted, cause⟩)]) :
    nd.GrantsTo sender message ↔ granted = true := by
  constructor
  · rintro ⟨out, term', cause', hout, hmem⟩
    rw [h, List.append_cancel_left_eq] at hout
    rw [← hout] at hmem
    simp only [List.mem_singleton, Prod.mk.injEq, Packet.mk.injEq, Message.vote.injEq] at hmem
    exact hmem.2.1.2.symm
  · rintro rfl
    exact ⟨_, term, cause, h, List.mem_singleton_self _⟩

theorem not_grantsTo_of_talker (h : (nd.handle sender message).talker = nd.talker) :
    ¬ nd.GrantsTo sender message := by
  rintro ⟨out, term, cause, hout, hmem⟩
  rw [h, List.self_eq_append_right] at hout
  simp [hout] at hmem

/-- A follower answers every request, and grants its vote if the test passes. -/
theorem followerRequestVotes_talker (nd : Node n V) (sender : Fin n) (term i u : ℕ) :
    ∃ term' cause, (nd.followerRequestVotes sender term i u).talker = nd.talker ++
      [(some sender, ⟨.vote term' ((if term > nd.currentTerm then nd.incrementTerm (some term)
        else nd).mayGrant i u), cause⟩)] := by
  unfold followerRequestVotes
  -- moving to a later term sends nothing
  have htalker : (if term > nd.currentTerm then nd.incrementTerm (some term) else nd).talker =
      nd.talker := by
    split <;> rfl
  rw [← htalker]
  generalize (if term > nd.currentTerm then nd.incrementTerm (some term) else nd) = nd₁
  by_cases hgrant : nd₁.votedFor = none ∧ i ≥ nd₁.lastAppliedIndex ∧ u ≥ nd₁.lastAppliedTerm
  · refine ⟨nd₁.currentTerm, nd₁.incomingMessage, ?_⟩
    rw [mayGrant, decide_eq_true hgrant]
    simp only [if_pos hgrant]
    rfl
  · refine ⟨nd₁.currentTerm, nd₁.incomingMessage, ?_⟩
    rw [mayGrant, decide_eq_false hgrant]
    simp only [if_neg hgrant]
    rfl

/-- What a candidate or leader does with a request, which it answers only if it yields. -/
theorem grantsTo_of_yield (h : nd.handle c.myId c.voteRequest =
    if c.currentTerm > nd.currentTerm then nd.yieldTo c.myId c.currentTerm else nd) :
    nd.GrantsTo c.myId c.voteRequest ↔ decide (nd.currentTerm < c.currentTerm) = true := by
  by_cases hlt : nd.currentTerm < c.currentTerm
  · rw [if_pos hlt] at h
    rw [grantsTo_of_sendVote true (by rw [h]; rfl)]
    simp [hlt]
  · rw [if_neg hlt] at h
    simp [not_grantsTo_of_talker (by rw [h]), hlt]

/-- A request is answered with a granted vote iff the test in the present loop passes. -/
theorem grantsTo_iff (nd c : Node n V) :
    nd.GrantsTo c.myId c.voteRequest ↔ nd.wouldGrant c = true := by
  cases hloop : nd.loop with
  | follower =>
    obtain ⟨term, cause, htalker⟩ := nd.followerRequestVotes_talker c.myId c.currentTerm
      c.lastAppliedIndex c.lastAppliedTerm
    have hhandle : nd.handle c.myId c.voteRequest = nd.followerRequestVotes c.myId
        c.currentTerm c.lastAppliedIndex c.lastAppliedTerm := handle_follower _ _ hloop
    rw [← hhandle] at htalker
    rw [grantsTo_of_sendVote _ htalker]
    simp only [wouldGrant, hloop]
  | candidate k m =>
    simp only [wouldGrant, hloop]
    exact grantsTo_of_yield (handle_candidate _ _ hloop)
  | leader =>
    simp only [wouldGrant, hloop]
    exact grantsTo_of_yield (handle_leader _ _ hloop)
  | _ =>
    have hidle : nd.handle c.myId c.voteRequest = nd := by simp only [handle, hloop]
    simp [not_grantsTo_of_talker (by rw [hidle]), wouldGrant, hloop]

/-- The test of a follower, on the fields it reads. -/
theorem mayGrant_incrementTerm_iff (nd : Node n V) (term i u : ℕ) :
    (if term > nd.currentTerm then nd.incrementTerm (some term) else nd).mayGrant i u = true ↔
      (nd.votedFor = none ∨ nd.currentTerm < term) ∧ nd.lastAppliedIndex ≤ i ∧
        nd.lastAppliedTerm ≤ u := by
  by_cases hlt : nd.currentTerm < term
  · -- the vote is cleared with the term
    simp [hlt, mayGrant, incrementTerm]
  · simp [hlt, mayGrant]

/-- A node votes only for candidates that are not behind in term or log iff its loop refuses
the request, or what the loop does not compare is in order. -/
theorem grantsOnlyUpToDate_iff (nd c : Node n V) :
    nd.GrantsOnlyUpToDate c ↔ nd.safeBallot c := by
  -- a candidate or leader that grants its vote has seen a later term
  have hlater : (nd.currentTerm < c.currentTerm →
      nd.currentTerm ≤ c.currentTerm ∧ nd.lastLog ≤ c.lastLog) ↔
      (c.currentTerm ≤ nd.currentTerm ∨ nd.lastLog ≤ c.lastLog) := by
    rw [← not_lt (a := nd.currentTerm), ← imp_iff_not_or]
    exact ⟨fun h hlt => (h hlt).2, fun h hlt => ⟨hlt.le, h hlt⟩⟩
  rw [GrantsOnlyUpToDate, grantsTo_iff]
  cases hloop : nd.loop with
  | follower =>
    simp only [wouldGrant, safeBallot, hloop, mayGrant_incrementTerm_iff]
    simp only [imp_iff_not_or, not_and_or, not_or, not_le, not_lt, or_assoc, ne_eq]
  | candidate k m =>
    simp only [wouldGrant, safeBallot, hloop, decide_eq_true_iff]
    exact hlater
  | leader =>
    simp only [wouldGrant, safeBallot, hloop, decide_eq_true_iff]
    exact hlater
  | _ => simp [wouldGrant, safeBallot, hloop]

end Node

/-- Node `0` of three leads term 2 and node `1` stores its first entry. Node `2`, which has
heard of nothing, asks for votes a second time, and node `1` has refused the first request. -/
def shortCandidate : List (Event 3 (List ℕ)) :=
  storedByTwo ++
    [.run 2, .follower 2 none true, .run 2, .candidate 2 none true, .run 2,
      .follower 1 (some 2) false]

/-- Node `1` is about to read the request of node `2`, which lacks the last entry. -/
def asksWithoutEntry (s : Cluster 3 (List ℕ)) : Bool :=
  decide ((s.exec (.follower 1 (some 2) false)).isSome = true ∧ (s.nodes 2).myId = 2 ∧
    s.received 1 (some 2) = some (2, (s.nodes 2).voteRequest) ∧
    ({ s.nodes 1 with incomingMessage := some (s.nodes 2).voteRequest } : Node 3
      (List ℕ)).wouldGrant (s.nodes 2) = true ∧
    (s.nodes 1).log = [⟨1, [], -1⟩, ⟨2, [], -1⟩] ∧ (s.nodes 2).log = [⟨1, [], -1⟩])

/-- Node `1` then votes for node `2`, although its own log ends later. -/
theorem votes_for_short_log :
    ∃ s : Cluster 3 (List ℕ), (clusterSystem 3 (List ℕ)).Reachable unguarded s ∧
      (s.exec (.follower 1 (some 2) false)).isSome = true ∧
      ∃ nd, s.handling (.follower 1 (some 2) false) =
          some (nd, (s.nodes 2).myId, (s.nodes 2).voteRequest) ∧
        ¬ nd.GrantsOnlyUpToDate (s.nodes 2) := by
  have hreplay : (replay Cluster.exec (fun _ _ => true) [] Cluster.init shortCandidate).any
      (fun r => asksWithoutEntry r.2) = true := by decide +kernel
  obtain ⟨history, s, hrun, htest⟩ :=
    exists_run_of_replay (fun _ s => asksWithoutEntry s) hreplay
  obtain ⟨hexec, hid, hreceived, hgrants, hlog, hlog'⟩ := of_decide_eq_true htest
  refine ⟨s, ⟨history, hrun.mono fun _ _ _ => trivial⟩, hexec,
    { s.nodes 1 with incomingMessage := some (s.nodes 2).voteRequest }, ?_, fun honly => ?_⟩
  · rw [Cluster.handling, hreceived, hid]
    rfl
  · have hle := (honly ((Node.grantsTo_iff _ _).mpr hgrants)).2
    rw [Node.lastLog, Node.lastLog, Prod.Lex.toLex_le_toLex] at hle
    simp [Node.lastLogTerm, Node.logMaxIndex, hlog, hlog'] at hle

end DreamboatRpc.Raft
