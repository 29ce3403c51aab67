import DreamboatRpc.Raft.LeaderOps

/-!
# One step of the cluster

What an enabled event does to the cluster, and that the logs and next indices of all
nodes stay usable.

## Main results

* `exec_cases` — a step replaces one node and hands what it sent to the network, or it
  loses a message
* `Ready.exec` — no log is ever empty and no next index is zero
-/

namespace DreamboatRpc.Raft

open CS FifoNetwork

variable {n : ℕ} {V : Type*}

/-! ## The loops of followers and candidates -/

namespace Node

variable {nd : Node n V}

theorem Ready.congr {nd' : Node n V} (h : nd.Ready) (hlog : nd'.log = nd.log)
    (hnext : nd'.nextIndex = nd.nextIndex) : nd'.Ready :=
  ⟨by rw [hlog]; exact h.log, by rw [hnext]; exact h.nextIndex⟩

/-- Only an `AppendEntries` changes the log of a follower. -/
theorem followerMessage_log (nd : Node n V) (sender : Fin n) {message : Message n V}
    (h : ∀ t l i u e c, message ≠ .appendEntries t l i u e c) :
    (nd.followerMessage sender message).log = nd.log := by
  cases message with
  | requestVotes term i t =>
    simp only [followerMessage, followerRequestVotes]
    split <;> split <;> rfl
  | heartbeat term leaderId =>
    simp only [followerMessage, followerHeartbeat, forwardClientRequest]
    split <;> split <;> rfl
  | appendEntries t l i u e c => exact absurd rfl (h t l i u e c)
  | _ => rfl

theorem followerMessage_nextIndex (nd : Node n V) (sender : Fin n) (message : Message n V) :
    (nd.followerMessage sender message).nextIndex = nd.nextIndex := by
  cases message with
  | requestVotes term i t =>
    simp only [followerMessage, followerRequestVotes]
    split <;> split <;> rfl
  | heartbeat term leaderId =>
    simp only [followerMessage, followerHeartbeat, forwardClientRequest]
    split <;> split <;> rfl
  | appendEntries term l i u e c =>
    simp only [followerMessage, followerAppendEntries, appendEntry]
    split
    · split <;> rfl
    · rfl
  | _ => rfl

/-- A follower that accepts an entry has its predecessor. -/
theorem term_of_acceptsAppendEntries {term prevLogIndex prevLogTerm : ℕ}
    (h : nd.acceptsAppendEntries term prevLogIndex prevLogTerm = true) :
    ∃ prev, nd.log[prevLogIndex]? = some prev ∧ prev.term = prevLogTerm := by
  simp only [acceptsAppendEntries, Bool.and_eq_true] at h
  have hverify := h.2
  unfold verifyEntry at hverify
  split at hverify
  · simp at hverify
  · rename_i prev hprev
    exact ⟨prev, hprev, by simpa using hverify⟩

/-- The log a follower has after an `AppendEntries` it accepts. -/
theorem followerAppendEntries_log (nd : Node n V) (term : ℕ) (leaderId : Fin n)
    (prevLogIndex prevLogTerm : ℕ) (entries : Entry V) (leaderCommit : ℕ) :
    (nd.followerAppendEntries term leaderId prevLogIndex prevLogTerm entries leaderCommit).log =
      if nd.acceptsAppendEntries term prevLogIndex prevLogTerm then
        nd.log.take (prevLogIndex + 1) ++ [entries]
      else nd.log := by
  simp only [followerAppendEntries, appendEntry]
  split
  · split <;> rfl
  · rfl

/-- The commit index a follower has after an `AppendEntries` it accepts: that of the
predecessor, if the leader has committed more than the follower. -/
theorem followerAppendEntries_commitIndex {term prevLogIndex prevLogTerm : ℕ}
    (h : nd.acceptsAppendEntries term prevLogIndex prevLogTerm = true) (leaderId : Fin n)
    (entries : Entry V) (leaderCommit : ℕ) :
    (nd.followerAppendEntries term leaderId prevLogIndex prevLogTerm entries
      leaderCommit).commitIndex =
        if leaderCommit > nd.commitIndex then prevLogIndex else nd.commitIndex := by
  simp only [followerAppendEntries, if_pos h, appendEntry, cutLog, decide_eq_true_eq]
  split <;> rfl

theorem Ready.followerMessage (h : nd.Ready) (sender : Fin n) (message : Message n V) :
    (nd.followerMessage sender message).Ready := by
  refine ⟨?_, by rw [followerMessage_nextIndex]; exact h.nextIndex⟩
  by_cases happend : ∀ t l i u e c, message ≠ .appendEntries t l i u e c
  · rw [followerMessage_log nd sender happend]
    exact h.log
  · -- what is cut is never the first entry
    simp only [ne_eq, not_forall, not_not] at happend
    obtain ⟨t, l, i, u, e, c, rfl⟩ := happend
    simp only [Node.followerMessage, followerAppendEntries_log]
    split
    · simp
    · exact h.log

theorem Ready.follower (h : nd.Ready) (incoming : Option (Fin n × Message n V))
    (timeout : Bool) : (nd.follower incoming timeout).Ready := by
  unfold Node.follower
  split
  · have hmessage : (nd.receive Node.followerMessage incoming).Ready := by
      cases incoming with
      | none => exact h
      | some m =>
        have hhold : ({ nd with incomingMessage := some m.2 } : Node n V).Ready := h.congr rfl rfl
        exact hhold.followerMessage m.1 m.2
    simp only
    split
    · exact hmessage.congr rfl rfl
    · exact hmessage
  · exact h.congr rfl rfl

/-- A candidate changes where it is in an election, and sends. -/
theorem candidateMessage_eq (nd : Node n V) (k m : ℕ) (sender : Fin n) (message : Message n V) :
    ∃ role leader term voted talker loop, nd.candidateMessage k m sender message =
      { nd with
        currentRole := role, leaderId := leader, currentTerm := term, votedFor := voted
        talker := talker, loop := loop } := by
  cases message with
  | vote term granted =>
    simp only [candidateMessage, candidateVote]
    split <;> split <;> exact ⟨_, _, _, _, _, _, rfl⟩
  | requestVotes term i t =>
    simp only [candidateMessage]
    split <;> exact ⟨_, _, _, _, _, _, rfl⟩
  | heartbeat term leaderId =>
    simp only [candidateMessage]
    split <;> exact ⟨_, _, _, _, _, _, rfl⟩
  | _ => exact ⟨_, _, _, _, _, _, rfl⟩

/-- So does an iteration of `_candidate`, whatever message it takes: the log, the indices and
the client queue stay as they are. -/
theorem candidate_eq (nd : Node n V) (k m : ℕ) (incoming : Option (Fin n × Message n V))
    (timeout : Bool) :
    ∃ role leader term voted talker loop held, nd.candidate k m incoming timeout =
      { nd with
        currentRole := role, leaderId := leader, currentTerm := term, votedFor := voted
        talker := talker, loop := loop, incomingMessage := held } := by
  have hreceive : ∃ role leader term voted talker loop held,
      nd.receive (fun nd => nd.candidateMessage k m) incoming =
        { nd with
          currentRole := role, leaderId := leader, currentTerm := term, votedFor := voted
          talker := talker, loop := loop, incomingMessage := held } := by
    cases incoming with
    | none => exact ⟨_, _, _, _, _, _, _, rfl⟩
    | some x =>
      obtain ⟨role, leader, term, voted, talker, loop, heq⟩ :=
        candidateMessage_eq { nd with incomingMessage := some x.2 } k m x.1 x.2
      exact ⟨role, leader, term, voted, talker, loop, _, heq⟩
  obtain ⟨role, leader, term, voted, talker, loop, held, heq⟩ := hreceive
  unfold Node.candidate
  split
  · simp only [heq]
    split
    · exact ⟨_, _, _, _, _, _, _, rfl⟩
    · exact ⟨_, _, _, _, _, _, _, rfl⟩
  · exact ⟨_, _, _, _, _, _, _, rfl⟩

theorem Ready.candidate (h : nd.Ready) (k m : ℕ) (incoming : Option (Fin n × Message n V))
    (timeout : Bool) : (nd.candidate k m incoming timeout).Ready := by
  obtain ⟨role, leader, term, voted, talker, loop, held, heq⟩ :=
    nd.candidate_eq k m incoming timeout
  rw [heq]
  exact h.congr rfl rfl

theorem Ready.broadcastAppendEntries (h : nd.Ready) (entry : Entry V) :
    (nd.broadcastAppendEntries entry).Ready :=
  h.ops (broadcastAppendEntries_ops (O := fun _ => True) (C := fun _ _ => True) h entry trivial)

theorem Ready.leader (h : nd.Ready) (heartbeat : Bool) (expired : Fin n → Bool)
    (incoming : Option (Fin n × Message n V)) : (nd.leader heartbeat expired incoming).Ready := by
  by_cases hrole : nd.currentRole = .leader
  · obtain ⟨nd₁, hops, hcases⟩ := leader_cases (O := fun _ => True) (C := fun _ _ => True)
      hrole h heartbeat expired incoming (fun _ _ _ _ => trivial) (fun _ _ _ _ _ => trivial)
    have h₁ := h.ops hops
    obtain heq | ⟨q, term, i, t, -, -, heq⟩ | ⟨entry, rest, -, -, -, heq⟩ := hcases
    · rwa [heq]
    · rw [heq]
      exact h₁.congr rfl rfl
    · rw [heq]
      -- the request taken from the queue is broadcast like one that was received
      have hqueue : ({ nd₁ with clientQueue := rest } : Node n V).Ready := h₁.congr rfl rfl
      exact hqueue.broadcastAppendEntries entry
  · unfold Node.leader
    rw [if_neg hrole]
    exact h.congr rfl rfl

theorem Ready.run [EmptyCollection V] (h : nd.Ready) : nd.run.Ready := by
  unfold Node.run
  split
  · rw [enterLeader_eq]
    exact (h.inaugurated.broadcastAppendEntries _).congr rfl rfl
  · exact h.congr rfl rfl
  · exact h.congr rfl rfl
  · exact h

end Node

namespace Cluster

variable {s s' : Cluster n V} {e : Event n V}

/-! ## All events -/

/-- A thread that is in the loop of `run` takes no message. -/
theorem exec_run [EmptyCollection V] {p : Fin n} (h : s.exec (.run p) = some s') :
    (s.nodes p).loop = .run ∧ s' = (s.setNode p (s.nodes p).run).publish p := by
  simp only [exec] at h
  split at h
  · rename_i hloop
    obtain ⟨taken, incoming, htake, rfl⟩ := thread_cases h
    simp only [take, Option.some.injEq, Prod.mk.injEq] at htake
    obtain ⟨rfl, rfl⟩ := htake
    exact ⟨hloop, rfl⟩
  · exact absurd h (by simp)

/-- What a step does: the thread of a node takes a message, if it takes one, and runs one
iteration; a client calls a node; or a message is lost. -/
theorem exec_cases [EmptyCollection V] (h : s.exec e = some s') :
    (∃ p, e = .run p ∧ (s.nodes p).loop = .run ∧
      s' = (s.setNode p (s.nodes p).run).publish p) ∨
    (∃ p source timeout taken incoming, e = .follower p source timeout ∧
      (s.nodes p).loop = .follower ∧
      (source = none ∨ (s.nodes p).currentRole = .follower) ∧
      s.take p source = some (taken, incoming) ∧
      s' = (taken.setNode p ((s.nodes p).follower
        (incoming.map fun (q, packet) => (q, packet.message)) timeout)).publish p) ∨
    (∃ p source timeout taken incoming k m, e = .candidate p source timeout ∧
      (s.nodes p).loop = .candidate k m ∧
      (source = none ∨ (s.nodes p).currentRole = .candidate) ∧
      s.take p source = some (taken, incoming) ∧
      s' = (taken.setNode p ((s.nodes p).candidate k m
        (incoming.map fun (q, packet) => (q, packet.message)) timeout)).publish p) ∨
    (∃ p heartbeat expired source taken incoming, e = .leader p heartbeat expired source ∧
      (s.nodes p).loop = .leader ∧
      (source = none ∨ (s.nodes p).currentRole = .leader ∧
        ((s.nodes p).leaderSends heartbeat expired).loop = .leader) ∧
      s.take p source = some (taken, incoming) ∧
      s' = (taken.setNode p ((s.nodes p).leader heartbeat expired
        (incoming.map fun (q, packet) => (q, packet.message)))).publish p) ∨
    (∃ p value idNum, e = .clientRequest p value idNum ∧
      s' = s.setNode p ((s.nodes p).clientRequest value idNum)) ∨
    (∃ p, e = .pause p ∧ s' = s.setNode p (s.nodes p).pause) ∨
    (∃ p, e = .unPause p ∧ s' = s.setNode p (s.nodes p).unPause) ∨
    (∃ src dst i, e = .lose src dst i ∧ s' = { s with net := s.net.lose src dst i }) := by
  cases e with
  | run p =>
    obtain ⟨hloop, rfl⟩ := exec_run h
    exact .inl ⟨p, rfl, hloop, rfl⟩
  | follower p source timeout =>
    simp only [exec] at h
    split at h
    · rename_i hloop
      obtain ⟨taken, incoming, htake, rfl⟩ := thread_cases h
      exact .inr (.inl ⟨p, source, timeout, taken, incoming, rfl, hloop.1, hloop.2, htake, rfl⟩)
    · exact absurd h (by simp)
  | candidate p source timeout =>
    simp only [exec] at h
    split at h
    · rename_i k m hloop
      split at h
      · rename_i hrole
        obtain ⟨taken, incoming, htake, rfl⟩ := thread_cases h
        exact .inr (.inr (.inl
          ⟨p, source, timeout, taken, incoming, k, m, rfl, hloop, hrole, htake, rfl⟩))
      · exact absurd h (by simp)
    · exact absurd h (by simp)
  | leader p heartbeat expired source =>
    simp only [exec] at h
    split at h
    · rename_i hloop
      obtain ⟨taken, incoming, htake, rfl⟩ := thread_cases h
      exact .inr (.inr (.inr (.inl
        ⟨p, heartbeat, expired, source, taken, incoming, rfl, hloop.1, hloop.2, htake, rfl⟩)))
    · exact absurd h (by simp)
  | clientRequest p value idNum =>
    simp only [exec, Option.some.injEq] at h
    exact .inr (.inr (.inr (.inr (.inl ⟨p, value, idNum, rfl, h.symm⟩))))
  | pause p =>
    simp only [exec, Option.some.injEq] at h
    exact .inr (.inr (.inr (.inr (.inr (.inl ⟨p, rfl, h.symm⟩)))))
  | unPause p =>
    simp only [exec, Option.some.injEq] at h
    exact .inr (.inr (.inr (.inr (.inr (.inr (.inl ⟨p, rfl, h.symm⟩))))))
  | lose src dst i =>
    simp only [exec, Option.some.injEq] at h
    exact .inr (.inr (.inr (.inr (.inr (.inr (.inr ⟨src, dst, i, rfl, h.symm⟩))))))

/-- All nodes are ready. -/
def Ready (s : Cluster n V) : Prop := ∀ p, (s.nodes p).Ready

theorem Ready.setNode {p : Fin n} {nd : Node n V} (h : s.Ready) (hnd : nd.Ready) :
    (s.setNode p nd).Ready :=
  forall_setNode (Q := fun _ x => x.Ready) hnd h

theorem Ready.publish {p : Fin n} (h : s.Ready) : (s.publish p).Ready := by
  intro q
  by_cases hq : q = p
  · subst hq
    rw [publish_nodes_self]
    exact (h q).congr rfl rfl
  · rw [publish_nodes_of_ne hq]
    exact h q

theorem ready_init [EmptyCollection V] : (init : Cluster n V).Ready :=
  fun _ => ⟨by simp [init, Node.init], by simp [init, Node.init]⟩

theorem Ready.exec [EmptyCollection V] (h : s.Ready) (hs : s.exec e = some s') : s'.Ready := by
  have htaken : ∀ {p source taken incoming}, s.take p source = some (taken, incoming) →
      taken.Ready := fun htake q => by
    rw [take_nodes htake]
    exact h q
  obtain ⟨p, -, -, rfl⟩ | ⟨p, source, timeout, taken, incoming, -, -, -, htake, rfl⟩ |
    ⟨p, source, timeout, taken, incoming, k, m, -, -, -, htake, rfl⟩ |
    ⟨p, heartbeat, expired, source, taken, incoming, -, -, -, htake, rfl⟩ |
    ⟨p, value, idNum, -, rfl⟩ | ⟨p, -, rfl⟩ | ⟨p, -, rfl⟩ | ⟨src, dst, i, -, rfl⟩ := exec_cases hs
  · exact (h.setNode (h p).run).publish
  · exact ((htaken htake).setNode ((h p).follower _ _)).publish
  · exact ((htaken htake).setNode ((h p).candidate k m _ _)).publish
  · exact ((htaken htake).setNode ((h p).leader _ _ _)).publish
  · exact h.setNode ((h p).congr rfl rfl)
  · exact h.setNode ((h p).congr rfl rfl)
  · refine h.setNode ?_
    unfold Node.unPause
    split
    · exact (h p).congr rfl rfl
    · exact h p
  · exact h

theorem Ready.of_reachable [EmptyCollection V] {G : Cluster n V → Event n V → Prop}
    (h : (clusterSystem n V).Reachable G s) : s.Ready := by
  refine TransitionSystem.Reachable.invariant (I := Ready) ?_ ?_ h
  · rintro _ rfl
    exact ready_init
  · intro s e t hs _ hstep
    exact hs.exec hstep

end Cluster

end DreamboatRpc.Raft
