import DreamboatRpc.Raft.Appends
import DreamboatRpc.Raft.TermMonotone

/-!
# The threads of the nodes do not end

Reading a log outside its range raises, and nothing in a role loop catches it, so it would
end the thread of the node. A committed index can lie outside a log, but no thread ever
reads the log there: what a leader reads are its next indices and one of its match indices,
and these stay inside whatever messages arrive.

## Main definitions

* `Cluster.threadEvent` — the event of the thread of a node, given the message it takes and
  its timers
* `Node.Listens` — the thread is in the loop of the role of its node

## Main results

* `iteration_loop` — the iterations of the loops do not raise
* `threads_alive` — in every run every thread can go on, and can take any message that is
  waiting for it once it is in the loop of its role
-/

namespace DreamboatRpc.Raft

open CS

variable {n : ℕ} {V : Type*}

namespace Node

variable {nd : Node n V}

/-- The thread is in the loop of the present role of its node, and looks for messages. -/
def Listens (nd : Node n V) : Prop :=
  match nd.loop, nd.currentRole with
  | .follower, .follower | .candidate _ _, .candidate | .leader, .leader => True
  | _, _ => False

/-! ## Iterations that do not raise -/

theorem run_loop [EmptyCollection V] (h : nd.loop = .run) : nd.run.loop ≠ .crashed := by
  unfold Node.run
  cases nd.currentRole with
  | leader => simp [enterLeader]
  | follower => simp
  | candidate => simp [enterCandidate]
  | none => simp [h]

/-- A follower stays in its loop, or leaves it. -/
theorem follower_alive (hloop : nd.loop = .follower) (incoming : Option (Fin n × Message n V))
    (timeout : Bool) : (nd.follower incoming timeout).loop ≠ .crashed := by
  have hmessage : (nd.receive followerMessage incoming).loop = .follower := by
    cases incoming with
    | none => exact hloop
    | some m => exact (followerMessage_loop _ m.1 m.2).trans hloop
  unfold Node.follower
  split
  · simp only
    split
    · simp
    · simp [hmessage]
  · simp

theorem candidateMessage_alive {k m : ℕ} (hloop : nd.loop ≠ .crashed) (q : Fin n)
    (message : Message n V) : (nd.candidateMessage k m q message).loop ≠ .crashed := by
  cases message with
  | vote t granted =>
    simp only [candidateMessage, candidateVote]
    split <;> split <;> simp
  | requestVotes t i u =>
    simp only [candidateMessage]
    split
    · simp [yieldTo]
    · exact hloop
  | heartbeat t l =>
    simp only [candidateMessage]
    split
    · simp
    · exact hloop
  | _ => exact hloop

theorem candidate_alive {k m : ℕ} (hloop : nd.loop = .candidate k m)
    (incoming : Option (Fin n × Message n V)) (timeout : Bool) :
    (nd.candidate k m incoming timeout).loop ≠ .crashed := by
  have hmessage : (nd.receive (fun nd => nd.candidateMessage k m) incoming).loop ≠ .crashed := by
    cases incoming with
    | none => simp [receive, hloop]
    | some x => exact candidateMessage_alive (by simp [hloop]) x.1 x.2
  unfold Node.candidate
  split
  · simp only
    split
    · simp
    · exact hmessage
  · simp

/-- Before it looks for a message a leader that can send what it has to stays in its loop. -/
theorem Sendable.leaderSends_loop (h : nd.Sendable) (hloop : nd.loop = .leader)
    (heartbeat : Bool) (expired : Fin n → Bool) :
    (nd.leaderSends heartbeat expired).loop = .leader := by
  obtain ⟨talker, heq⟩ := leaderSends_of_nextIndex h.next heartbeat expired
  rw [heq]
  exact hloop

theorem leaderClientRequest_loop (nd : Node n V) : nd.leaderClientRequest.loop = nd.loop := by
  unfold Node.leaderClientRequest
  split
  · rfl
  · rename_i entry rest _
    obtain ⟨talker, next, reached, heq⟩ :=
      ({ nd with clientQueue := rest } : Node n V).broadcastAppendEntries_eq entry
    rw [heq]
    rfl

/-- An iteration of a leader leaves it in its loop, or in that of `run`. -/
theorem Sendable.leader_alive (h : nd.Sendable) (hloop : nd.loop = .leader) (heartbeat : Bool)
    (expired : Fin n → Bool) (incoming : Option (Fin n × Message n V)) :
    (nd.leader heartbeat expired incoming).loop ≠ .crashed := by
  unfold Node.leader
  split
  swap
  · simp
  obtain ⟨talker, hsends⟩ := leaderSends_of_nextIndex h.next heartbeat expired
  simp only [hsends]
  set sent : Node n V := { nd with talker := talker }
  have hloop₁ : sent.loop = .leader := hloop
  rw [if_pos hloop₁]
  -- on its message the leader stays in its loop, or yields
  have hreceive : (sent.receive Node.leaderMessage incoming).loop = .leader ∨
      (sent.receive Node.leaderMessage incoming).loop = .run := by
    cases incoming with
    | none => exact .inl hloop₁
    | some m =>
      have hheld : ({ sent with incomingMessage := some m.2 } : Node n V).Sendable :=
        h.congr rfl rfl rfl rfl
      obtain ⟨-, -, hnext⟩ := hheld.leaderMessage hloop m.1 m.2
      split at hnext
      · exact .inr hnext
      · exact .inl hnext.1
  rcases hreceive with hstays | hyields
  · rw [if_pos hstays, leaderClientRequest_loop, hstays]
    simp
  · rw [if_neg (by simp [hyields]), hyields]
    simp

end Node

/-! ## All steps -/

namespace Cluster

variable {s s' : Cluster n V} {e : Event n V} {p q : Fin n}

/-- The next event of the thread of `p`: an iteration of the loop it is in, with the channel
it takes a message from and its timers. A thread that has ended has none. -/
def threadEvent (s : Cluster n V) (p : Fin n) (source : Option (Fin n)) (timeout : Bool)
    (heartbeat : Bool) (expired : Fin n → Bool) : Option (Event n V) :=
  match (s.nodes p).loop with
  | .run => some (.run p)
  | .follower => some (.follower p source timeout)
  | .candidate _ _ => some (.candidate p source timeout)
  | .leader => some (.leader p heartbeat expired source)
  | .crashed => none

/-- A message that is waiting can be taken. -/
theorem take_of_head {packet : Packet n V} (hhead : (s.net q p).head? = some packet) :
    ∃ taken, s.take p (some q) = some (taken, some (q, packet)) := by
  obtain ⟨rest, hnet⟩ := List.head?_eq_some_iff.mp hhead
  simp only [take, hnet]
  exact ⟨_, rfl⟩

variable [EmptyCollection V]

/-- No iteration raises. -/
theorem iteration_loop {nd : Node n V} (hsend : s.Sendable) (hs : s.exec e = some s')
    (hiteration : s.iteration e = some (p, nd)) : nd.loop ≠ .crashed := by
  obtain ⟨-, hloop, rfl⟩ | ⟨source, timeout, -, hloop, rfl⟩ |
    ⟨source, timeout, k, m, -, hloop, rfl⟩ | ⟨heartbeat, expired, source, -, hloop, rfl⟩ :=
    iteration_cases hs hiteration
  · exact Node.run_loop hloop
  · exact Node.follower_alive hloop _ _
  · exact Node.candidate_alive hloop _ _
  · exact (hsend p hloop).leader_alive hloop _ _ _

theorem alive_exec (hsend : s.Sendable) (h : ∀ q, (s.nodes q).loop ≠ .crashed)
    (hs : s.exec e = some s') (q : Fin n) : (s'.nodes q).loop ≠ .crashed := by
  obtain ⟨nd, hiteration, heq⟩ | ⟨-, queue, role, heq, -⟩ := exec_node hs q
  · have hloop := iteration_loop hsend hs hiteration
    rw [heq]
    exact hloop
  · rw [heq]
    exact h q

/-- What holds on every network: logs and indices are usable, and no thread has ended. -/
structure Alive (s : Cluster n V) : Prop where
  ready : s.Ready
  sendable : s.Sendable
  loop : ∀ p, (s.nodes p).loop ≠ .crashed

theorem Alive.exec (h : s.Alive) (hs : s.exec e = some s') : s'.Alive :=
  ⟨h.ready.exec hs, h.sendable.exec h.ready hs, alive_exec h.sendable h.loop hs⟩

omit [EmptyCollection V] in
/-- What is under way does not matter to it. -/
theorem Alive.network (h : s.Alive) (net : FifoNetwork (Fin n) (Packet n V)) :
    ({ s with net := net } : Cluster n V).Alive :=
  ⟨h.ready, h.sendable, h.loop⟩

theorem alive_of_reachable {G : Cluster n V → UnreliableEvent n V → Prop}
    (h : (unreliableSystem n V).Reachable G s) : s.Alive := by
  refine TransitionSystem.Reachable.invariant (I := Alive) ?_ ?_ h
  · rintro _ rfl
    refine ⟨ready_init, fun p hlead => ?_, fun q => ?_⟩
    · simp [init, Node.init] at hlead
    · simp [init, Node.init]
  · intro s e t halive _ hstep
    cases e with
    | event e => exact halive.exec hstep
    | rearrange net =>
      -- the network moves no node
      obtain ⟨-, rfl⟩ := hstep
      exact halive.network net

/-! ## Threads can go on -/

/-- Without a message the thread of a node that has not ended always runs its next
iteration. -/
theorem threadEvent_none (h : (s.nodes p).loop ≠ .crashed) (timeout heartbeat : Bool)
    (expired : Fin n → Bool) :
    ∃ e, s.threadEvent p none timeout heartbeat expired = some e ∧ (s.exec e).isSome := by
  cases hloop : (s.nodes p).loop with
  | run => exact ⟨.run p, by simp only [threadEvent, hloop], by simp [exec, hloop, thread, take]⟩
  | follower =>
    exact ⟨.follower p none timeout, by simp only [threadEvent, hloop],
      by simp [exec, hloop, thread, take]⟩
  | candidate k m =>
    exact ⟨.candidate p none timeout, by simp only [threadEvent, hloop],
      by simp [exec, hloop, thread, take]⟩
  | leader =>
    exact ⟨.leader p heartbeat expired none, by simp only [threadEvent, hloop],
      by simp [exec, hloop, thread, take]⟩
  | crashed => exact absurd hloop h

/-- A thread in the loop of its role takes a message that is waiting. -/
theorem threadEvent_some {packet : Packet n V} (hsend : s.Sendable)
    (hlistens : (s.nodes p).Listens) (hhead : (s.net q p).head? = some packet)
    (timeout heartbeat : Bool) (expired : Fin n → Bool) :
    ∃ e, s.threadEvent p (some q) timeout heartbeat expired = some e ∧
      s.incoming e = some (q, packet.message) ∧ (s.exec e).isSome := by
  obtain ⟨taken, htake⟩ := take_of_head hhead
  have hreceived : s.received p (some q) = some (q, packet.message) := by
    simp [received, hhead]
  unfold Node.Listens at hlistens
  split at hlistens
  · rename_i hloop hrole
    exact ⟨.follower p (some q) timeout, by simp only [threadEvent, hloop], hreceived,
      by simp [exec, hloop, hrole, thread, htake]⟩
  · rename_i k m hloop hrole
    exact ⟨.candidate p (some q) timeout, by simp only [threadEvent, hloop], hreceived,
      by simp [exec, hloop, hrole, thread, htake]⟩
  · -- what a leader sends before does not raise
    rename_i hloop hrole
    have hsends := (hsend p hloop).leaderSends_loop hloop heartbeat expired
    exact ⟨.leader p heartbeat expired (some q), by simp only [threadEvent, hloop], hreceived,
      by simp [exec, hloop, hrole, hsends, thread, htake]⟩
  · exact hlistens.elim

end Cluster

section Runs

variable [EmptyCollection V] {s : Cluster n V}

/-- In every run of every cluster, whatever its network does to the messages and whatever the
commit indices have become: no thread has ended, each can run its next iteration, and one
that is in the loop of its role can take the oldest message of any channel that leads to
it. -/
theorem threads_alive (h : (unreliableSystem n V).Reachable unguarded s) (p : Fin n)
    (timeout heartbeat : Bool) (expired : Fin n → Bool) :
    (s.nodes p).loop ≠ .crashed ∧
    (∃ e, s.threadEvent p none timeout heartbeat expired = some e ∧ (s.exec e).isSome) ∧
    ((s.nodes p).Listens → ∀ q packet, (s.net q p).head? = some packet →
      ∃ e, s.threadEvent p (some q) timeout heartbeat expired = some e ∧
        s.incoming e = some (q, packet.message) ∧ (s.exec e).isSome) := by
  have halive := Cluster.alive_of_reachable h
  refine ⟨halive.loop p, Cluster.threadEvent_none (halive.loop p) timeout heartbeat expired, ?_⟩
  intro hlistens q packet hhead
  exact Cluster.threadEvent_some halive.sendable hlistens hhead timeout heartbeat expired

end Runs

/-- Node `0` of two is elected and enters `_leader`; its first heartbeat and its first entry are on
their way to node `1`. -/
def unheardLeader : List (Event 2 (List ℕ)) :=
  [.run 0, .run 1, .follower 0 none true, .run 0, .candidate 0 (some 0) false,
    .candidate 0 (some 0) false, .follower 1 (some 0) false, .candidate 0 (some 1) false, .run 0]

/-- Node `0` leads, two messages of it are under way, and node `1` listens as a follower. -/
def leadsUnheard (s : Cluster 2 (List ℕ)) : Bool :=
  decide ((s.nodes 0).loop = .leader) && (s.net 0 1).length == 2 &&
    decide ((s.nodes 1).loop = .follower ∧ (s.nodes 1).currentRole = .follower)

theorem exists_leadsUnheard : ∃ (history : List (Step 2 (List ℕ))) (s : Cluster 2 (List ℕ)),
    (clusterSystem 2 (List ℕ)).Run unguarded history s ∧ leadsUnheard s = true := by
  have hreplay : (replay Cluster.exec (fun _ _ => true) [] Cluster.init unheardLeader).any
      (fun r => leadsUnheard r.2) = true := by decide +kernel
  obtain ⟨history, s, hrun, htest⟩ := exists_run_of_replay (fun _ s => leadsUnheard s) hreplay
  exact ⟨history, s, hrun.mono fun _ _ _ => trivial, htest⟩

/-- The other node can take the heartbeat. -/
theorem threads_alive_unheardLeader :
    ∃ (s : Cluster 2 (List ℕ)) (packet : Packet 2 (List ℕ)) (e : Event 2 (List ℕ)),
      (s.nodes 0).loop = .leader ∧ (s.net 0 1).head? = some packet ∧
        s.threadEvent 1 (some 0) false false (fun _ => false) = some e ∧
          s.incoming e = some (0, packet.message) ∧ (s.exec e).isSome := by
  obtain ⟨history, s, hrun, htest⟩ := exists_leadsUnheard
  simp only [leadsUnheard, Bool.and_eq_true, decide_eq_true_eq, beq_iff_eq] at htest
  obtain ⟨⟨hloop, hunderway⟩, hfollows, hrole⟩ := htest
  have hlistens : (s.nodes 1).Listens := by simp only [Node.Listens, hfollows, hrole]
  obtain ⟨packet, rest, hnet⟩ := List.exists_cons_of_length_eq_add_one hunderway
  obtain ⟨-, -, htakes⟩ := threads_alive ⟨_, unreliable_run hrun⟩ 1 false false fun _ => false
  have hhead : (s.net 0 1).head? = some packet := by rw [hnet, List.head?_cons]
  obtain ⟨e, he⟩ := htakes hlistens 0 packet hhead
  exact ⟨s, packet, e, hloop, hhead, he⟩

end DreamboatRpc.Raft
