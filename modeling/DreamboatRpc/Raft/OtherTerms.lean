import DreamboatRpc.Raft.ElectionSafety
import DreamboatRpc.Raft.Handling

/-!
# Messages of other terms

What a node does with a message that is not of its own term. Of a higher term, only
requests for votes and, unless the node leads, heartbeats make it follow in that term;
everything else is handled as if it were of its own term. The same goes for lower terms:
only an `AppendEntries` is refused because of its term.

## Main definitions

* `Node.Follows` — a node is a follower in at least a given term
* `Node.adopts` — which messages of a higher term make a node follow
* `Node.Unaffected` — the fields that a stale message should leave alone
* `Node.ignoresStale` — when it does

## Main results

* `higher_term_adopted_iff`, `stale_message_inert_iff` — exactly when a message of another
  term is handled as the protocol wants it, in every step of every run
* `newer_leader_ignored`, `stale_vote_counted` — that it is not always so
-/

namespace DreamboatRpc.Raft

open CS

variable {n : ℕ} {V : Type*} {nd nd' : Node n V}

/-! ## Higher terms -/

/-- The node is a follower, in term `t` or a later one. -/
def Node.Follows (nd : Node n V) (t : ℕ) : Prop :=
  t ≤ nd.currentTerm ∧ nd.currentRole = .follower

/-- The messages of a higher term by which a node lets itself be told of it. -/
def Node.adopts (nd : Node n V) : Message n V → Bool
  | .requestVotes _ _ _ => true
  | .heartbeat _ _ => decide (nd.currentRole ≠ .leader)
  | .vote _ _ | .appendEntries _ _ _ _ _ _ | .committal _ _ _ | .acknowledge _ _
  | .clientRequest _ _ => false

/-- A node that keeps its term follows in no higher one. -/
theorem not_follows_of_currentTerm {t : ℕ} (ht : nd.currentTerm < t)
    (hterm : nd'.currentTerm = nd.currentTerm) : ¬ nd'.Follows t := by
  rintro ⟨hle, -⟩
  rw [hterm] at hle
  omega

theorem followerMessage_follows_iff (hrole : nd.currentRole = .follower) (q : Fin n)
    {message : Message n V} (ht : nd.currentTerm < message.term) :
    (nd.followerMessage q message).Follows message.term ↔ nd.adopts message = true := by
  cases message with
  | requestVotes t i u =>
    have hgt : t > nd.currentTerm := ht
    -- whether the vote is granted or not, the term is adopted
    simp only [Node.followerMessage, Node.followerRequestVotes, if_pos hgt, Node.adopts, iff_true]
    split
    · exact ⟨le_rfl, hrole⟩
    · exact ⟨le_rfl, hrole⟩
  | heartbeat t l =>
    have hgt : t > nd.currentTerm := ht
    have hadopts : nd.adopts (.heartbeat t l) = true := by simp [Node.adopts, hrole]
    -- it forwards a client request if it has one
    simp only [hadopts, iff_true, Node.followerMessage, Node.followerHeartbeat, if_pos hgt,
      Node.forwardClientRequest]
    split
    · exact ⟨le_rfl, hrole⟩
    · exact ⟨le_rfl, hrole⟩
  | appendEntries t l k u e c =>
    -- a later term is not adopted here, whether the entry is accepted or not
    simp only [Node.adopts, Bool.false_eq_true, iff_false]
    exact not_follows_of_currentTerm ht
      (ElectionInv.followerAppendEntries_frame nd t l k u e c).1.currentTerm
  | _ =>
    simp only [Node.adopts, Bool.false_eq_true, iff_false]
    exact not_follows_of_currentTerm ht rfl

theorem candidateMessage_follows_iff (hrole : nd.currentRole = .candidate) (k m : ℕ) (q : Fin n)
    {message : Message n V} (ht : nd.currentTerm < message.term) :
    (nd.candidateMessage k m q message).Follows message.term ↔ nd.adopts message = true := by
  cases message with
  | vote t granted =>
    simp only [Node.adopts, Bool.false_eq_true, iff_false]
    refine not_follows_of_currentTerm ht ?_
    simp only [Node.candidateMessage, Node.candidateVote]
    split
    · split <;> rfl
    · split <;> rfl
  | requestVotes t i u =>
    have hgt : t > nd.currentTerm := ht
    simp only [Node.candidateMessage, if_pos hgt, Node.adopts, iff_true]
    exact ⟨le_rfl, rfl⟩
  | heartbeat t l =>
    have hge : t ≥ nd.currentTerm := ht.le
    have hadopts : nd.adopts (.heartbeat t l) = true := by simp [Node.adopts, hrole]
    simp only [hadopts, iff_true, Node.candidateMessage, if_pos hge]
    exact ⟨le_rfl, rfl⟩
  | _ =>
    simp only [Node.adopts, Bool.false_eq_true, iff_false]
    exact not_follows_of_currentTerm ht rfl

theorem leaderMessage_follows_iff (hready : nd.Ready) (hrole : nd.currentRole = .leader)
    (q : Fin n) {message : Message n V} (ht : nd.currentTerm < message.term) :
    (nd.leaderMessage q message).Follows message.term ↔ nd.adopts message = true := by
  obtain hops | ⟨t, i, u, rfl, hlt, heq⟩ :=
    Node.leaderMessage_cases (O := fun _ => True) (C := fun _ _ => True) hready q message
      (fun _ _ _ => trivial) (fun _ _ _ _ => trivial)
  · have hadopts : ¬ nd.adopts message = true := by
      cases message with
      | requestVotes t i u =>
        -- a leader yields to a candidate of a higher term, which no operation does
        have hgt : t > nd.currentTerm := ht
        have hterm := hops.currentTerm
        simp only [Node.leaderMessage, if_pos hgt] at hterm
        have hsame : t = nd.currentTerm := hterm
        omega
      | heartbeat t l => simp [Node.adopts, hrole]
      | _ => simp [Node.adopts]
    exact iff_of_false (not_follows_of_currentTerm ht hops.currentTerm) hadopts
  · rw [heq]
    simp only [Node.adopts, iff_true]
    exact ⟨le_rfl, rfl⟩

/-- In every step of every run in which a node handles a message of a higher term, the node
follows in that term afterwards iff the message is a request for votes, or a heartbeat and
the node was not leading. -/
theorem higher_term_adopted_iff [EmptyCollection V] {s s' : Cluster n V} {e : Event n V}
    {q : Fin n} {message : Message n V} (hreach : (clusterSystem n V).Reachable unguarded s)
    (hs : s.exec e = some s') (hhandling : s.handling e = some (nd, q, message))
    (ht : nd.currentTerm < message.term) :
    (nd.handle q message).Follows message.term ↔ nd.adopts message = true := by
  have hready := (Cluster.Ready.of_reachable hreach).handling hs hhandling
  obtain ⟨-, -, -, -, -, hcases, -⟩ := Cluster.handling_cases hs hhandling
  obtain ⟨hrole, hloop⟩ | ⟨hrole, k, m, hloop⟩ | ⟨hrole, hloop⟩ := hcases
  · rw [Node.handle_follower q message hloop]
    exact followerMessage_follows_iff hrole q ht
  · rw [Node.handle_candidate q message hloop]
    exact candidateMessage_follows_iff hrole k m q ht
  · rw [Node.handle_leader q message hloop]
    exact leaderMessage_follows_iff hready hrole q ht

/-- Node `0` of three wins term 2 with the vote of node `2`. Node `1`, which has heard of
none of this, starts two elections, and wins term 3 with the vote of node `2`. Its request
for votes does not reach node `0`, but its first heartbeat will. -/
def newerLeader : List (Event 3 V) :=
  [.run 0, .run 1, .run 2, .follower 0 none true, .run 0, .candidate 0 (some 0) false,
    .candidate 0 (some 0) false, .follower 2 (some 0) false, .candidate 0 (some 2) false,
    .run 0, .follower 1 none true, .run 1, .candidate 1 none true, .run 1, .lose 1 2 0,
    .follower 2 (some 1) false, .lose 1 1 0, .lose 1 1 0, .candidate 1 (some 1) false,
    .candidate 1 (some 1) false, .candidate 1 (some 2) false, .run 1, .lose 1 0 0, .lose 1 0 0]

/-- Node `2` grants a candidate of a higher term its vote, and follows. -/
def hearsOfHigher (s : Cluster 3 (List ℕ)) (e : Event 3 (List ℕ)) : Bool :=
  (s.exec e).isSome && (s.handling e).any fun (nd, _, message) =>
    decide (nd.currentTerm < message.term) && nd.adopts message

theorem higher_term_adopted_iff_newerLeader :
    ∃ (nd : Node 3 (List ℕ)) (q : Fin 3) (message : Message 3 (List ℕ)),
      nd.currentTerm < message.term ∧ (nd.handle q message).Follows message.term := by
  have hreplay : (replay Cluster.exec (fun _ _ => true) []
      (Cluster.init : Cluster 3 (List ℕ)) (newerLeader.take 15)).any
      (fun r => hearsOfHigher r.2 (.follower 2 (some 1) false)) = true := by decide +kernel
  obtain ⟨history, s, hrun, htest⟩ := exists_run_of_replay
    (fun _ s => hearsOfHigher s (.follower 2 (some 1) false)) hreplay
  simp only [hearsOfHigher, Bool.and_eq_true, Option.any_eq_true, Option.isSome_iff_exists,
    decide_eq_true_eq] at htest
  obtain ⟨⟨s', hs⟩, ⟨nd, q, message⟩, hhandling, hlt, hadopts⟩ := htest
  exact ⟨nd, q, message, hlt, (higher_term_adopted_iff ⟨history, hrun.mono fun _ _ _ => trivial⟩
    hs hhandling hlt).mpr hadopts⟩

/-- The event in which node `0` gets the heartbeat of node `1`. -/
def hearsNewerLeader : Event 3 (List ℕ) := .leader 0 false (fun _ => false) (some 1)

/-- Node `0` handles a heartbeat of a higher term, and goes on leading. -/
def goesOnLeading (s : Cluster 3 (List ℕ)) : Bool :=
  (s.exec hearsNewerLeader).isSome && (s.handling hearsNewerLeader).any fun (nd, q, message) =>
    decide (nd.currentTerm < message.term ∧ message = .heartbeat 3 1 ∧
      (nd.handle q message).currentRole = .leader)

/-- A leader does not care about the heartbeat of a newer one. -/
theorem newer_leader_ignored :
    ¬ ∀ (n : ℕ) (s s' : Cluster n (List ℕ)) (e : Event n (List ℕ)) (nd : Node n (List ℕ))
      (q : Fin n) (message : Message n (List ℕ)),
      (clusterSystem n (List ℕ)).Reachable unguarded s → s.exec e = some s' →
      s.handling e = some (nd, q, message) → nd.currentTerm < message.term →
      (nd.handle q message).Follows message.term := by
  intro hadopted
  have hreplay : (replay Cluster.exec (fun _ _ => true) []
      (Cluster.init : Cluster 3 (List ℕ)) newerLeader).any (fun r => goesOnLeading r.2) = true := by
    decide +kernel
  obtain ⟨history, s, hrun, htest⟩ := exists_run_of_replay (fun _ s => goesOnLeading s) hreplay
  simp only [goesOnLeading, Bool.and_eq_true, Option.any_eq_true, Option.isSome_iff_exists,
    decide_eq_true_eq] at htest
  obtain ⟨⟨s', hs⟩, ⟨nd, q, message⟩, hhandling, hlt, -, hleads⟩ := htest
  have hfollows := hadopted 3 s s' _ nd q message ⟨history, hrun.mono fun _ _ _ => trivial⟩ hs
    hhandling hlt
  have hrole : (nd.handle q message).currentRole = .follower := hfollows.2
  rw [hleads] at hrole
  simp at hrole

/-! ## Lower terms -/

/-- The votes a candidate has counted, granted ones and all. -/
def Node.tally (nd : Node n V) : Option (ℕ × ℕ) :=
  match nd.loop with
  | .candidate votesForMe totalVotes => some (votesForMe, totalVotes)
  | .run | .follower | .leader | .crashed => none

/-- `nd'` has the term, vote, role, leader, log, indices and tally of `nd`. -/
structure Node.Unaffected (nd nd' : Node n V) : Prop where
  currentTerm : nd'.currentTerm = nd.currentTerm
  votedFor : nd'.votedFor = nd.votedFor
  currentRole : nd'.currentRole = nd.currentRole
  leaderId : nd'.leaderId = nd.leaderId
  log : nd'.log = nd.log
  commitIndex : nd'.commitIndex = nd.commitIndex
  lastAppliedIndex : nd'.lastAppliedIndex = nd.lastAppliedIndex
  lastAppliedTerm : nd'.lastAppliedTerm = nd.lastAppliedTerm
  matchIndex : nd'.matchIndex = nd.matchIndex
  tally : nd'.tally = nd.tally

/-- All nodes have been credited with more than is committed, and one of them with an index
of the log: then the next acknowledge makes a leader commit. -/
def Node.commitDue (nd : Node n V) : Bool :=
  decide (∀ q, nd.commitIndex < nd.matchIndex q) && decide (∃ q, nd.matchIndex q < nd.log.length)

/-- A follower ignores a stale message if it sets a field to the value it has. -/
def Node.followerIgnores (nd : Node n V) (sender : Fin n) : Message n V → Bool
  | .requestVotes _ _ _ => decide (nd.votedFor = some sender)
  | .heartbeat _ leaderId => decide (nd.leaderId = some leaderId)
  | .committal _ prevLogIndex prevLogTerm =>
    decide (nd.commitIndex = prevLogIndex ∧ nd.lastAppliedIndex = prevLogIndex ∧
      nd.lastAppliedTerm = prevLogTerm)
  | .vote _ _ | .appendEntries _ _ _ _ _ _ | .acknowledge _ _ | .clientRequest _ _ => true

/-- A leader ignores a stale acknowledge of a node that is up to date; any other one if it
credits the node with what it has been credited with, and no commit is due. -/
def Node.leaderIgnores (nd : Node n V) (sender : Fin n) : Message n V → Bool
  | .acknowledge _ success =>
    match nd.nextIndex sender with
    | none => true
    | some index => (!success || decide (nd.matchIndex sender = index)) && !nd.commitDue
  | .clientRequest _ _ => false
  | .requestVotes _ _ _ | .vote _ _ | .heartbeat _ _ | .appendEntries _ _ _ _ _ _
  | .committal _ _ _ => true

/-- The messages of a lower term that leave a node unaffected. -/
def Node.ignoresStale (nd : Node n V) (sender : Fin n) (message : Message n V) : Bool :=
  match nd.loop, message with
  | .follower, _ => nd.followerIgnores sender message
  | .candidate _ _, .vote _ _ => false
  | .leader, _ => nd.leaderIgnores sender message
  | .candidate _ _, _ | .run, _ | .crashed, _ => true

theorem Node.Unaffected.refl : nd.Unaffected nd :=
  ⟨rfl, rfl, rfl, rfl, rfl, rfl, rfl, rfl, rfl, rfl⟩

/-! ### Followers -/

theorem followerMessage_unaffected_iff (q : Fin n) {message : Message n V}
    (ht : message.term < nd.currentTerm) :
    nd.Unaffected (nd.followerMessage q message) ↔ nd.followerIgnores q message = true := by
  cases message with
  | requestVotes t i u =>
    have hle : ¬ t > nd.currentTerm := (show t < nd.currentTerm from ht).not_gt
    simp only [Node.followerMessage, Node.followerRequestVotes, if_neg hle, Node.followerIgnores,
      decide_eq_true_eq]
    -- granted or refused, the vote is recorded
    have hvote : ∀ granted, nd.Unaffected (nd.sendVote q granted) ↔ nd.votedFor = some q := by
      intro granted
      constructor
      · intro h
        exact h.votedFor.symm
      · intro hvoted
        exact ⟨rfl, hvoted.symm, rfl, rfl, rfl, rfl, rfl, rfl, rfl, rfl⟩
    split
    · exact hvote true
    · exact hvote false
  | heartbeat t l =>
    have hle : ¬ t > nd.currentTerm := (show t < nd.currentTerm from ht).not_gt
    simp only [Node.followerMessage, Node.followerHeartbeat, if_neg hle, Node.followerIgnores,
      decide_eq_true_eq, Node.forwardClientRequest]
    -- the sender is noted as leader, whatever its term
    constructor
    · intro h
      have hleader := h.leaderId
      split at hleader
      · exact hleader.symm
      · exact hleader.symm
    · intro hleader
      split
      · exact ⟨rfl, rfl, rfl, hleader.symm, rfl, rfl, rfl, rfl, rfl, rfl⟩
      · exact ⟨rfl, rfl, rfl, hleader.symm, rfl, rfl, rfl, rfl, rfl, rfl⟩
  | appendEntries t l k u e c =>
    have hlt : t < nd.currentTerm := ht
    -- an entry of a lower term is refused before anything else is looked at
    have hrefuse : ¬ nd.acceptsAppendEntries t k u = true := by
      simp [Node.acceptsAppendEntries, hlt]
    simp only [Node.followerMessage, Node.followerAppendEntries, if_neg hrefuse,
      Node.followerIgnores, iff_true]
    exact ⟨rfl, rfl, rfl, rfl, rfl, rfl, rfl, rfl, rfl, rfl⟩
  | committal t i u =>
    simp only [Node.followerMessage, Node.followerIgnores, decide_eq_true_eq]
    -- a commit is carried out without a look at its term
    constructor
    · intro h
      exact ⟨h.commitIndex.symm, h.lastAppliedIndex.symm, h.lastAppliedTerm.symm⟩
    · rintro ⟨hcommit, hindex, hterm⟩
      exact ⟨rfl, rfl, rfl, rfl, rfl, hcommit.symm, hindex.symm, hterm.symm, rfl, rfl⟩
  | _ =>
    simp only [Node.followerMessage, Node.followerIgnores, iff_true]
    exact .refl

/-! ### Candidates -/

theorem candidateMessage_unaffected_iff {k m : ℕ} (hrole : nd.currentRole = .candidate)
    (hloop : nd.loop = .candidate k m) (q : Fin n) {message : Message n V}
    (ht : message.term < nd.currentTerm) :
    nd.Unaffected (nd.candidateMessage k m q message) ↔ nd.ignoresStale q message = true := by
  cases message with
  | vote t granted =>
    have hnot : ¬ nd.ignoresStale q (.vote t granted) = true := by
      simp [Node.ignoresStale, hloop]
    refine iff_of_false (fun h => ?_) hnot
    -- the vote is counted, or it wins the election
    have hkeep := h.currentRole
    have htally := h.tally
    simp only [Node.candidateMessage, Node.candidateVote] at hkeep htally
    generalize (if granted then k + 1 else k) = k' at hkeep htally
    by_cases hwins : k' > n / 2 ∨ n = 1
    · rw [if_pos hwins, hrole] at hkeep
      simp at hkeep
    · rw [if_neg hwins] at htally
      simp [Node.tally, hloop] at htally
  | requestVotes t i u =>
    have hle : ¬ t > nd.currentTerm := (show t < nd.currentTerm from ht).not_gt
    simp only [Node.candidateMessage, if_neg hle, Node.ignoresStale, hloop, iff_true]
    exact .refl
  | heartbeat t l =>
    have hlt : ¬ t ≥ nd.currentTerm := (show t < nd.currentTerm from ht).not_ge
    simp only [Node.candidateMessage, if_neg hlt, Node.ignoresStale, hloop, iff_true]
    exact .refl
  | _ =>
    simp only [Node.candidateMessage, Node.ignoresStale, hloop, iff_true]
    exact .refl

/-! ### Leaders -/

/-- A commit is due iff the index a leader may commit is new to it and in its log. -/
theorem commitDue_iff (q : Fin n) : nd.commitDue = true ↔
    nd.commitIndex < nd.maxCommittableIndex ∧ nd.maxCommittableIndex < nd.log.length := by
  obtain ⟨⟨r, hr⟩, hle⟩ := nd.maxCommittableIndex_isLeast q
  simp only [Node.commitDue, Bool.and_eq_true, decide_eq_true_eq]
  constructor
  · rintro ⟨hall, q, hq⟩
    rw [← hr]
    exact ⟨hall r, (hr.trans_le (hle (Set.mem_range_self q))).trans_lt hq⟩
  · rintro ⟨hlt, hin⟩
    exact ⟨fun q => hlt.trans_le (hle (Set.mem_range_self q)), r, hr.trans_lt hin⟩

theorem Node.Unaffected.symm (h : nd.Unaffected nd') : nd'.Unaffected nd :=
  ⟨h.currentTerm.symm, h.votedFor.symm, h.currentRole.symm, h.leaderId.symm, h.log.symm,
    h.commitIndex.symm, h.lastAppliedIndex.symm, h.lastAppliedTerm.symm, h.matchIndex.symm,
    h.tally.symm⟩

theorem Node.Unaffected.trans {nd'' : Node n V} (h : nd.Unaffected nd')
    (h' : nd'.Unaffected nd'') : nd.Unaffected nd'' :=
  ⟨h'.currentTerm.trans h.currentTerm, h'.votedFor.trans h.votedFor,
    h'.currentRole.trans h.currentRole, h'.leaderId.trans h.leaderId, h'.log.trans h.log,
    h'.commitIndex.trans h.commitIndex, h'.lastAppliedIndex.trans h.lastAppliedIndex,
    h'.lastAppliedTerm.trans h.lastAppliedTerm, h'.matchIndex.trans h.matchIndex,
    h'.tally.trans h.tally⟩

/-- A leader that looks for something to commit is unaffected iff there is nothing. -/
theorem commitCommittable_unaffected_iff (q : Fin n) (hloop : nd.loop = .leader) :
    nd.Unaffected nd.commitCommittable ↔ ¬ nd.commitDue = true := by
  have htally : nd.tally = none := by simp [Node.tally, hloop]
  rw [commitDue_iff q]
  unfold Node.commitCommittable Node.broadcastCommmitEntries
  constructor
  · -- a commit that is due moves the commit index
    rintro h ⟨hlt, hin⟩
    have hcommit := h.commitIndex
    rw [if_pos hlt, List.getElem?_eq_getElem hin] at hcommit
    obtain ⟨talker, heq⟩ := Node.sendCommittal_foldl_eq
      (nd.commitEntry nd.maxCommittableIndex nd.log[nd.maxCommittableIndex].term) (List.finRange n)
    dsimp only at hcommit
    rw [heq] at hcommit
    have hsame : nd.maxCommittableIndex = nd.commitIndex := hcommit
    omega
  · intro hnone
    split
    · rename_i hlt
      -- there is no such index in the log, so the thread ends
      have hout : nd.log[nd.maxCommittableIndex]? = none :=
        List.getElem?_eq_none (by by_contra hin; exact hnone ⟨hlt, not_le.mp hin⟩)
      rw [hout]
      exact ⟨rfl, rfl, rfl, rfl, rfl, rfl, rfl, rfl, rfl, htally.symm⟩
    · exact .refl

theorem commitCommittable_matchIndex (nd : Node n V) :
    nd.commitCommittable.matchIndex = nd.matchIndex := by
  unfold Node.commitCommittable Node.broadcastCommmitEntries
  split
  · split
    · rfl
    · rename_i e _
      obtain ⟨talker, heq⟩ := Node.sendCommittal_foldl_eq
        (nd.commitEntry nd.maxCommittableIndex e.term) (List.finRange n)
      rw [heq]
      rfl
  · rfl

/-- Sending a node its next entry changes next indices only. -/
theorem bringUpToDate_eq (hready : nd.Ready) (q : Fin n) :
    ∃ talker next, nd.bringUpToDate q = { nd with talker := talker, nextIndex := next } := by
  unfold Node.bringUpToDate
  split
  · exact ⟨_, _, rfl⟩
  · rename_i next hnext
    split
    · exact ⟨_, _, rfl⟩
    · rename_i hle
      have hpos := List.length_pos_iff.mpr hready.log
      have hlt : next < nd.log.length := by
        unfold Node.logMaxIndex at hle
        omega
      have hprev : next - 1 < nd.log.length := (Nat.sub_le _ _).trans_lt hlt
      rw [Node.sendEntryAt, List.getElem?_eq_getElem hprev, List.getElem?_eq_getElem hlt]
      exact ⟨_, _, rfl⟩

/-- An acknowledge that counts sets the match index of its sender, and then the leader looks
for something to commit. -/
theorem leaderAcknowledge_eq (hready : nd.Ready) (hloop : nd.loop = .leader) {q : Fin n}
    {index : ℕ} (hnext : nd.nextIndex q = some index) (success : Bool) :
    ∃ talker next, nd.leaderAcknowledge q success = ({ nd with
      matchIndex := if success then Function.update nd.matchIndex q index else nd.matchIndex
      nextIndex := next, talker := talker } : Node n V).commitCommittable := by
  -- first the indices of the sender, then the next entry for it, then the commit
  have hcredit : ∃ next, nd.creditAcknowledge q index success = { nd with
      matchIndex := if success then Function.update nd.matchIndex q index else nd.matchIndex
      nextIndex := next } := by
    unfold Node.creditAcknowledge
    cases success with
    | true => exact ⟨_, rfl⟩
    | false =>
      simp only [Bool.false_eq_true, if_false]
      split
      · exact ⟨_, rfl⟩
      · exact ⟨_, rfl⟩
  obtain ⟨next, hcredit⟩ := hcredit
  have hops : Node.LeaderOps (fun _ => True) (fun _ _ => True) nd
      (nd.creditAcknowledge q index success) :=
    Node.creditAcknowledge_ops hready (hready.nextIndex q index hnext) fun _ => trivial
  obtain ⟨talker, next', hsent⟩ := bringUpToDate_eq (hready.ops hops) q
  have hgoes : ¬ nd.loop = .crashed := by simp [hloop]
  rw [hcredit] at hsent
  refine ⟨talker, next', ?_⟩
  unfold Node.leaderAcknowledge
  rw [hnext]
  dsimp only
  rw [hcredit, hsent]
  exact if_neg hgoes

theorem leaderAcknowledge_unaffected_iff (hready : nd.Ready) (hloop : nd.loop = .leader)
    (q : Fin n) (t : ℕ) (success : Bool) :
    nd.Unaffected (nd.leaderAcknowledge q success) ↔
      nd.leaderIgnores q (.acknowledge t success) = true := by
  cases hnext : nd.nextIndex q with
  | none =>
    simp only [Node.leaderAcknowledge, hnext, Node.leaderIgnores, iff_true]
    exact .refl
  | some index =>
    obtain ⟨talker, next, heq⟩ := leaderAcknowledge_eq hready hloop hnext success
    set credited : Node n V := { nd with
      matchIndex := if success then Function.update nd.matchIndex q index else nd.matchIndex
      nextIndex := next, talker := talker } with hcredited
    have hcommit : credited.Unaffected credited.commitCommittable ↔ ¬ credited.commitDue = true :=
      commitCommittable_unaffected_iff q hloop
    -- crediting leaves the match indices iff the index was credited already
    have hmatch : credited.matchIndex = nd.matchIndex ↔
        (success = true → nd.matchIndex q = index) := by
      cases success with
      | false => simp [hcredited]
      | true =>
        simp only [hcredited, if_true, forall_const]
        rw [Function.update_eq_self_iff]
        exact eq_comm
    have hsame : credited.matchIndex = nd.matchIndex →
        nd.Unaffected credited ∧ credited.commitDue = nd.commitDue := by
      intro h
      refine ⟨⟨rfl, rfl, rfl, rfl, rfl, rfl, rfl, rfl, h, rfl⟩, ?_⟩
      simp only [Node.commitDue, h]
      rfl
    -- the match indices stay, and then no commit is due
    have hgoal : nd.Unaffected credited.commitCommittable ↔
        (success = true → nd.matchIndex q = index) ∧ ¬ nd.commitDue = true := by
      rw [← hmatch]
      constructor
      · intro h
        have hkeep : credited.matchIndex = nd.matchIndex := by
          rw [← commitCommittable_matchIndex credited]
          exact h.matchIndex
        obtain ⟨hframe, hdue⟩ := hsame hkeep
        refine ⟨hkeep, ?_⟩
        rw [← hdue]
        exact hcommit.mp (hframe.symm.trans h)
      · rintro ⟨hkeep, hnot⟩
        obtain ⟨hframe, hdue⟩ := hsame hkeep
        rw [← hdue] at hnot
        exact hframe.trans (hcommit.mpr hnot)
    rw [heq, hgoal]
    simp only [Node.leaderIgnores, hnext]
    cases success with
    | false => simp
    | true => simp

theorem leaderMessage_unaffected_iff (hready : nd.Ready) (hloop : nd.loop = .leader)
    (q : Fin n) {message : Message n V} (ht : message.term < nd.currentTerm) :
    nd.Unaffected (nd.leaderMessage q message) ↔ nd.leaderIgnores q message = true := by
  cases message with
  | acknowledge t success => exact leaderAcknowledge_unaffected_iff hready hloop q t success
  | clientRequest t e =>
    simp only [Node.leaderIgnores, Bool.false_eq_true, iff_false]
    -- the entry is appended
    intro h
    have hlog := h.log
    obtain ⟨talker, next, reached, heq⟩ := Node.broadcastAppendEntries_eq nd e
    simp [Node.leaderMessage, heq, Node.appended] at hlog
  | requestVotes t i u =>
    have hle : ¬ t > nd.currentTerm := (show t < nd.currentTerm from ht).not_gt
    simp only [Node.leaderMessage, if_neg hle, Node.leaderIgnores, iff_true]
    exact .refl
  | _ =>
    simp only [Node.leaderMessage, Node.leaderIgnores, iff_true]
    exact .refl

/-- In every step of every run in which a node handles a message of a lower term, the node
is unaffected iff the message is one it ignores. -/
theorem stale_message_inert_iff [EmptyCollection V] {s s' : Cluster n V} {e : Event n V}
    {q : Fin n} {message : Message n V} (hreach : (clusterSystem n V).Reachable unguarded s)
    (hs : s.exec e = some s') (hhandling : s.handling e = some (nd, q, message))
    (ht : message.term < nd.currentTerm) :
    nd.Unaffected (nd.handle q message) ↔ nd.ignoresStale q message = true := by
  have hready := (Cluster.Ready.of_reachable hreach).handling hs hhandling
  obtain ⟨-, -, -, -, -, hcases, -⟩ := Cluster.handling_cases hs hhandling
  obtain ⟨hrole, hloop⟩ | ⟨hrole, k, m, hloop⟩ | ⟨hrole, hloop⟩ := hcases
  · rw [Node.handle_follower q message hloop, followerMessage_unaffected_iff q ht]
    simp only [Node.ignoresStale, hloop]
  · rw [Node.handle_candidate q message hloop]
    exact candidateMessage_unaffected_iff hrole hloop q ht
  · rw [Node.handle_leader q message hloop, leaderMessage_unaffected_iff hready hloop q ht]
    simp only [Node.ignoresStale, hloop]

/-- Node `0` of two starts an election and, as nobody answers, another one. -/
def secondElection : List (Event 2 V) :=
  [.run 0, .follower 0 none true, .run 0, .candidate 0 none true, .run 0]

/-- The event in which node `0` reads the oldest message it has sent itself. -/
def readsOwn : Event 2 (List ℕ) := .candidate 0 (some 0) false

/-- Node `0` handles a message of a lower term. -/
def readsStale (ignored : Bool) (s : Cluster 2 (List ℕ)) : Bool :=
  (s.exec readsOwn).isSome && (s.handling readsOwn).any fun (nd, q, message) =>
    decide (message.term < nd.currentTerm) && (nd.ignoresStale q message == ignored) &&
      (ignored || decide ((nd.handle q message).tally ≠ nd.tally))

theorem stale_message_inert_iff_secondElection :
    ∃ (nd : Node 2 (List ℕ)) (q : Fin 2) (message : Message 2 (List ℕ)),
      message.term < nd.currentTerm ∧ nd.Unaffected (nd.handle q message) := by
  have hreplay : (replay Cluster.exec (fun _ _ => true) []
      (Cluster.init : Cluster 2 (List ℕ)) secondElection).any
      (fun r => readsStale true r.2) = true := by decide +kernel
  obtain ⟨history, s, hrun, htest⟩ := exists_run_of_replay (fun _ s => readsStale true s) hreplay
  simp only [readsStale, Bool.and_eq_true, Option.any_eq_true, Option.isSome_iff_exists,
    decide_eq_true_eq, beq_iff_eq, Bool.true_or, and_true] at htest
  obtain ⟨⟨s', hs⟩, ⟨nd, q, message⟩, hhandling, hlt, hignores⟩ := htest
  exact ⟨nd, q, message, hlt, (stale_message_inert_iff ⟨history, hrun.mono fun _ _ _ => trivial⟩
    hs hhandling hlt).mpr hignores⟩

/-- The vote of the first election is counted in the second. -/
theorem stale_vote_counted :
    ¬ ∀ (n : ℕ) (s s' : Cluster n (List ℕ)) (e : Event n (List ℕ)) (nd : Node n (List ℕ))
      (q : Fin n) (message : Message n (List ℕ)),
      (clusterSystem n (List ℕ)).Reachable unguarded s → s.exec e = some s' →
      s.handling e = some (nd, q, message) → message.term < nd.currentTerm →
      nd.Unaffected (nd.handle q message) := by
  intro hinert
  have hreplay : (replay Cluster.exec (fun _ _ => true) []
      (Cluster.init : Cluster 2 (List ℕ)) (secondElection ++ [readsOwn])).any
      (fun r => readsStale false r.2) = true := by decide +kernel
  obtain ⟨history, s, hrun, htest⟩ := exists_run_of_replay (fun _ s => readsStale false s) hreplay
  simp only [readsStale, Bool.and_eq_true, Option.any_eq_true, Option.isSome_iff_exists,
    decide_eq_true_eq, Bool.false_or] at htest
  obtain ⟨⟨s', hs⟩, ⟨nd, q, message⟩, hhandling, ⟨hlt, -⟩, htally⟩ := htest
  have hunaffected := hinert 2 s s' readsOwn nd q message
    ⟨history, hrun.mono fun _ _ _ => trivial⟩ hs hhandling hlt
  exact htally hunaffected.tally

end DreamboatRpc.Raft
