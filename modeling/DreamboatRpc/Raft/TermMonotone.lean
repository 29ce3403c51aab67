import DreamboatRpc.Raft.Iteration

/-!
# Terms only grow

`_increment_term` assigns whatever term it is given; that no node ever goes back to an
earlier term is due to the tests before its calls. Here the network does not even keep the
order of the messages: it may reorder, repeat and lose them as it likes.

## Main definitions

* `unreliableSystem` — the cluster with a network that rearranges what is under way
* `Node.Advances` — a node has reached the terms of everything it has sent since
* `TermBounded` — no message is ahead of its sender
* `StartsCandidacy` — a step in which a node starts an election

## Main results

* `run_advances`, `follower_advances`, `candidate_advances`, `leader_advances` — every
  iteration advances
* `term_monotone` — along every run terms only grow, and at every candidacy strictly
-/

namespace DreamboatRpc.Raft

open CS FifoNetwork

variable {n : ℕ} {V : Type*}

/-! ## An unreliable network -/

/-- What can happen in a cluster whose network may rearrange what is under way. -/
inductive UnreliableEvent (n : ℕ) (V : Type*)
  | event (e : Event n V)
  | rearrange (net : FifoNetwork (Fin n) (Packet n V))

/-- The transition system of a cluster with an unreliable network. -/
def unreliableSystem (n : ℕ) (V : Type*) [EmptyCollection V] :
    TransitionSystem (Cluster n V) (UnreliableEvent n V) where
  init s := s = Cluster.init
  step s
    | .event e, t => s.exec e = some t
    | .rearrange net, t => net.Rearranges s.net ∧ t = { s with net := net }

/-- A step of a cluster, as one of a cluster with an unreliable network. -/
def Step.unreliable (x : Step n V) : Transition (Cluster n V) (UnreliableEvent n V) :=
  ⟨x.source, .event x.event, x.target⟩

/-- Every run over reliable channels is a run over unreliable ones. -/
theorem unreliable_run [EmptyCollection V] {G : Cluster n V → Event n V → Prop}
    {history : List (Step n V)} {s : Cluster n V} (h : (clusterSystem n V).Run G history s) :
    (unreliableSystem n V).Run unguarded (history.map Step.unreliable) s := by
  induction h with
  | init h => exact .init h
  | step _ _ hstep ih => exact .step ih trivial hstep

/-! ## One iteration -/

namespace Node

/-- `nd'` is in a term at least as late as `nd`, and in one at least as late as that of any
message it has sent since. -/
structure Advances (nd nd' : Node n V) : Prop where
  currentTerm : nd.currentTerm ≤ nd'.currentTerm
  talker : ∃ out, nd'.talker = nd.talker ++ out ∧ ∀ m ∈ out, m.2.message.term ≤ nd'.currentTerm

variable {nd nd' : Node n V}

theorem Advances.of_talker (hterm : nd.currentTerm ≤ nd'.currentTerm)
    (htalker : nd'.talker = nd.talker) : nd.Advances nd' :=
  ⟨hterm, [], by simp [htalker], by simp⟩

theorem Advances.refl : nd.Advances nd := .of_talker le_rfl rfl

/-- A node sends one message, of a term it has reached. -/
theorem Advances.of_send {receiver : Option (Fin n)} {packet : Packet n V}
    (htalker : nd'.talker = nd.talker ++ [(receiver, packet)])
    (hterm : nd.currentTerm ≤ nd'.currentTerm)
    (hmessage : packet.message.term ≤ nd'.currentTerm) : nd.Advances nd' := by
  refine ⟨hterm, _, htalker, fun m hm => ?_⟩
  rw [List.mem_singleton.mp hm]
  exact hmessage

theorem Advances.trans {nd'' : Node n V} (h : nd.Advances nd') (h' : nd'.Advances nd'') :
    nd.Advances nd'' := by
  obtain ⟨out, hout, hterm⟩ := h.talker
  obtain ⟨out', hout', hterm'⟩ := h'.talker
  refine ⟨h.currentTerm.trans h'.currentTerm, out ++ out', ?_, fun m hm => ?_⟩
  · rw [hout', hout, List.append_assoc]
  · rcases List.mem_append.mp hm with hm | hm
    · exact (hterm m hm).trans h'.currentTerm
    · exact hterm' m hm

/-- Every message a node sends is stamped with its term. -/
theorem sendMessage_advances (receiver : Option (Fin n)) {message : Message n V}
    (h : message.term ≤ nd.currentTerm) : nd.Advances (nd.sendMessage receiver message) :=
  .of_send rfl le_rfl h

/-- The test that has to stand before `_increment_term`. -/
theorem incrementTerm_advances {term : ℕ} (h : nd.currentTerm ≤ term) :
    nd.Advances (nd.incrementTerm (some term)) :=
  .of_talker h rfl

/-- Adopt a term that is not earlier, then vote. -/
theorem yieldTo_advances (sender : Fin n) {term : ℕ} (h : nd.currentTerm ≤ term) :
    nd.Advances (nd.yieldTo sender term) :=
  .of_send rfl h le_rfl

/-- The guard of `_follower`. -/
theorem incrementTerm_ite_advances (nd : Node n V) (term : ℕ) :
    nd.Advances (if term > nd.currentTerm then nd.incrementTerm (some term) else nd) := by
  split
  · rename_i hlt
    exact incrementTerm_advances hlt.le
  · exact .refl

theorem forwardClientRequest_advances (nd : Node n V) (leaderId : Fin n) :
    nd.Advances (nd.forwardClientRequest leaderId) := by
  unfold forwardClientRequest
  split
  · exact .refl
  · exact .of_send rfl le_rfl le_rfl

theorem followerAppendEntries_advances (nd : Node n V) (term : ℕ) (leaderId : Fin n)
    (prevLogIndex prevLogTerm : ℕ) (entries : Entry V) (leaderCommit : ℕ) :
    nd.Advances
      (nd.followerAppendEntries term leaderId prevLogIndex prevLogTerm entries leaderCommit) := by
  simp only [followerAppendEntries, appendEntry]
  split
  · split <;> exact .of_send rfl le_rfl le_rfl
  · exact .of_send rfl le_rfl le_rfl

theorem followerMessage_advances (nd : Node n V) (sender : Fin n) (message : Message n V) :
    nd.Advances (nd.followerMessage sender message) := by
  cases message with
  | requestVotes term lastLogIndex lastLogTerm =>
    -- the answer is stamped with the term after the update
    refine (nd.incrementTerm_ite_advances term).trans ?_
    simp only [followerMessage, followerRequestVotes]
    generalize (if term > nd.currentTerm then nd.incrementTerm (some term) else nd) = nd₁
    split <;> exact .of_send rfl le_rfl le_rfl
  | heartbeat term leaderId =>
    refine (nd.incrementTerm_ite_advances term).trans ?_
    simp only [followerMessage, followerHeartbeat]
    generalize (if term > nd.currentTerm then nd.incrementTerm (some term) else nd) = nd₁
    have hleader : nd₁.Advances { nd₁ with leaderId := some leaderId } := .of_talker le_rfl rfl
    exact hleader.trans (forwardClientRequest_advances _ leaderId)
  | appendEntries term leaderId prevLogIndex prevLogTerm entries leaderCommit =>
    exact nd.followerAppendEntries_advances term leaderId prevLogIndex prevLogTerm entries
      leaderCommit
  | committal term prevLogIndex prevLogTerm => exact .of_talker le_rfl rfl
  | _ => exact .refl

theorem candidateMessage_advances (nd : Node n V) (k m : ℕ) (sender : Fin n)
    (message : Message n V) : nd.Advances (nd.candidateMessage k m sender message) := by
  cases message with
  | vote term granted =>
    simp only [candidateMessage, candidateVote]
    split <;> split <;> exact .of_talker le_rfl rfl
  | requestVotes term lastLogIndex lastLogTerm =>
    simp only [candidateMessage]
    split
    · rename_i hlt
      exact yieldTo_advances sender hlt.le
    · exact .refl
  | heartbeat term leaderId =>
    simp only [candidateMessage]
    split
    · rename_i hle
      exact .of_talker hle rfl
    · exact .refl
  | _ => exact .refl

/-- A loop that looks at its message first. -/
theorem receive_advances {handle : Node n V → Fin n → Message n V → Node n V}
    (hhandle : ∀ nd sender message, Advances nd (handle nd sender message))
    (incoming : Option (Fin n × Message n V)) : nd.Advances (nd.receive handle incoming) := by
  cases incoming with
  | none => exact .refl
  | some m =>
    have hhold : nd.Advances { nd with incomingMessage := some m.2 } := .of_talker le_rfl rfl
    exact hhold.trans (hhandle _ m.1 m.2)

theorem follower_advances (nd : Node n V) (incoming : Option (Fin n × Message n V))
    (timeout : Bool) : nd.Advances (nd.follower incoming timeout) := by
  unfold follower
  split
  · have hmessage : nd.Advances (nd.receive followerMessage incoming) :=
      receive_advances followerMessage_advances incoming
    simp only
    split
    · exact hmessage.trans (.of_talker le_rfl rfl)
    · exact hmessage
  · exact .of_talker le_rfl rfl

theorem candidate_advances (nd : Node n V) (k m : ℕ)
    (incoming : Option (Fin n × Message n V)) (timeout : Bool) :
    nd.Advances (nd.candidate k m incoming timeout) := by
  unfold candidate
  split
  · have hmessage : nd.Advances (nd.receive (fun nd => nd.candidateMessage k m) incoming) :=
      receive_advances (fun nd => nd.candidateMessage_advances k m) incoming
    simp only
    split
    · exact hmessage.trans (.of_talker le_rfl rfl)
    · exact hmessage
  · exact .of_talker le_rfl rfl

/-- A leader does not touch its term while it leads. -/
theorem LeaderOps.advances {O : Entry V → Prop} {C : Fin n → ℕ → Prop}
    (hops : LeaderOps O C nd nd') : nd.Advances nd' := by
  induction hops with
  | refl => exact .refl
  | tail _ hop ih =>
    refine ih.trans ?_
    cases hop with
    | heartbeat | sendEntry | committal => exact .of_send rfl le_rfl le_rfl
    | _ => exact .of_talker le_rfl rfl

theorem broadcastAppendEntries_advances (hnd : nd.Ready) (entry : Entry V) :
    nd.Advances (nd.broadcastAppendEntries entry) :=
  (broadcastAppendEntries_ops (O := fun _ => True) (C := fun _ _ => True) hnd entry
    trivial).advances

theorem leader_advances (hnd : nd.Ready) (heartbeat : Bool) (expired : Fin n → Bool)
    (incoming : Option (Fin n × Message n V)) :
    nd.Advances (nd.leader heartbeat expired incoming) := by
  by_cases hrole : nd.currentRole = .leader
  · obtain ⟨nd₁, hops, hcases⟩ := leader_cases (O := fun _ => True) (C := fun _ _ => True)
      hrole hnd heartbeat expired incoming (fun _ _ _ _ => trivial) (fun _ _ _ _ _ => trivial)
    have hadvances := hops.advances
    obtain heq | ⟨q, term, i, t, -, hlt, heq⟩ | ⟨entry, rest, -, -, -, heq⟩ := hcases
    · rwa [heq]
    · -- the operations leave the term alone, so the request is still of a later one
      rw [heq]
      exact hadvances.trans (yieldTo_advances q (hops.currentTerm.trans_le hlt.le))
    · rw [heq]
      have hqueue : nd₁.Advances { nd₁ with clientQueue := rest } := .of_talker le_rfl rfl
      have hready : ({ nd₁ with clientQueue := rest } : Node n V).Ready :=
        (hnd.ops hops).congr rfl rfl
      exact (hadvances.trans hqueue).trans (broadcastAppendEntries_advances hready entry)
  · unfold leader
    rw [if_neg hrole]
    exact .of_talker le_rfl rfl

/-- A candidacy begins with a new term, and with two messages of that term. -/
theorem enterCandidate_advances (nd : Node n V) : nd.Advances nd.enterCandidate := by
  have hterm : nd.Advances (nd.incrementTerm none) := .of_talker (Nat.le_succ _) rfl
  have hrequest : (nd.incrementTerm none).Advances (nd.incrementTerm none).sendRequestVote :=
    sendMessage_advances none le_rfl
  exact (hterm.trans hrequest).trans (.of_send rfl le_rfl le_rfl)

theorem enterCandidate_currentTerm (nd : Node n V) :
    nd.enterCandidate.currentTerm = nd.currentTerm + 1 :=
  rfl

theorem enterLeader_advances [EmptyCollection V] (hnd : nd.Ready) :
    nd.Advances nd.enterLeader := by
  have hheartbeat : nd.Advances nd.inaugurated := .of_send rfl le_rfl le_rfl
  have hbroadcast := broadcastAppendEntries_advances hnd.inaugurated nd.noop
  rw [enterLeader_eq]
  exact (hheartbeat.trans hbroadcast).trans (.of_talker le_rfl rfl)

theorem run_advances [EmptyCollection V] (hnd : nd.Ready) : nd.Advances nd.run := by
  unfold Node.run
  split
  · exact enterLeader_advances hnd
  · exact .of_talker le_rfl rfl
  · exact nd.enterCandidate_advances
  · exact .refl

end Node

/-! ## One step -/

namespace Cluster

variable {s s' : Cluster n V} {e : Event n V}

/-- No message is ahead of its sender. -/
def TermBounded (s : Cluster n V) : Prop :=
  ∀ p q, ∀ packet ∈ s.inflight p q, packet.message.term ≤ (s.nodes p).currentTerm

variable [EmptyCollection V]

theorem iteration_advances {p : Fin n} {nd : Node n V} (hready : s.Ready)
    (hs : s.exec e = some s') (hiteration : s.iteration e = some (p, nd)) :
    (s.nodes p).Advances nd := by
  obtain ⟨-, -, rfl⟩ | ⟨source, timeout, -, -, rfl⟩ | ⟨source, timeout, k, m, -, -, rfl⟩ |
    ⟨heartbeat, expired, source, -, -, rfl⟩ := iteration_cases hs hiteration
  · exact Node.run_advances (hready p)
  · exact Node.follower_advances _ _ timeout
  · exact Node.candidate_advances _ k m _ timeout
  · exact Node.leader_advances (hready p) heartbeat expired _

/-- No event takes a node back to an earlier term. -/
theorem exec_currentTerm_le (hready : s.Ready) (hs : s.exec e = some s') (p : Fin n) :
    (s.nodes p).currentTerm ≤ (s'.nodes p).currentTerm := by
  obtain ⟨nd, hiteration, hnode⟩ | ⟨-, queue, role, hcalled, -⟩ := exec_node hs p
  · rw [hnode]
    exact (iteration_advances hready hs hiteration).currentTerm
  · rw [hcalled]

/-- What is under way after a step was so before, or its sender has sent it in the step. -/
theorem TermBounded.exec (h : s.TermBounded) (hready : s.Ready) (hs : s.exec e = some s') :
    s'.TermBounded := by
  intro p q packet hpacket
  have hle := exec_currentTerm_le hready hs p
  have hold : packet ∈ s.inflight p q → packet.message.term ≤ (s'.nodes p).currentTerm :=
    fun hmem => (h p q packet hmem).trans hle
  obtain ⟨r, nd, taken, hiteration, htaken, rfl⟩ | ⟨-, ⟨r, nd, ⟨queue, role, rfl, -⟩, rfl⟩ |
    hfewer⟩ := exec_iteration hs
  · obtain ⟨out, htalker, hterms⟩ := (iteration_advances hready hs hiteration).talker
    rw [inflight_publish] at hpacket
    rw [← congrFun htaken.nodes r] at htalker
    rcases mem_inflight_setNode out htalker hpacket with hmem | ⟨rfl, receiver, -, hmem⟩
    · exact hold ((htaken.inflight p q).subset hmem)
    · rw [publish_nodes_self, setNode_nodes_self]
      exact hterms _ hmem
  · -- a call sends nothing
    refine hold ?_
    rcases mem_inflight_setNode [] (by simp) hpacket with hmem | ⟨-, receiver, -, hmem⟩
    · exact hmem
    · simp at hmem
  · exact hold ((hfewer.inflight p q).subset hpacket)

end Cluster

/-! ## Runs -/

/-- A step in which node `p` finds itself a candidate in the loop of `run` and calls an
election. -/
def StartsCandidacy (x : Transition (Cluster n V) (UnreliableEvent n V)) (p : Fin n) : Prop :=
  x.event = .event (.run p) ∧ (x.source.nodes p).currentRole = .candidate

section Runs

variable [EmptyCollection V] {s t : Cluster n V} {e : UnreliableEvent n V}

/-- A network that rearranges its messages moves no node. -/
theorem unreliable_step_currentTerm_le (hready : s.Ready)
    (hstep : (unreliableSystem n V).step s e t) (p : Fin n) :
    (s.nodes p).currentTerm ≤ (t.nodes p).currentTerm := by
  cases e with
  | event e => exact Cluster.exec_currentTerm_le hready hstep p
  | rearrange net =>
    obtain ⟨-, rfl⟩ := hstep
    exact le_rfl

theorem unreliable_step_invariant (h : s.Ready ∧ s.TermBounded)
    (hstep : (unreliableSystem n V).step s e t) : t.Ready ∧ t.TermBounded := by
  cases e with
  | event e => exact ⟨h.1.exec hstep, h.2.exec h.1 hstep⟩
  | rearrange net =>
    obtain ⟨hnet, rfl⟩ := hstep
    refine ⟨h.1, fun p q packet hpacket => h.2 p q packet ?_⟩
    -- what is still in a talker is not yet in the hands of the network
    rcases List.mem_append.mp hpacket with hmem | hmem
    · exact List.mem_append_left _ (hnet p q hmem)
    · exact List.mem_append_right _ hmem

theorem unreliable_reachable {G : Cluster n V → UnreliableEvent n V → Prop}
    (h : (unreliableSystem n V).Reachable G s) : s.Ready ∧ s.TermBounded := by
  refine TransitionSystem.Reachable.invariant (I := fun s => s.Ready ∧ s.TermBounded) ?_ ?_ h
  · rintro _ rfl
    exact ⟨Cluster.ready_init, fun p q packet hpacket => by
      simp [Cluster.inflight, Cluster.init, FifoNetwork.empty, Node.init] at hpacket⟩
  · intro s e t hinv _ hstep
    exact unreliable_step_invariant hinv hstep

theorem StartsCandidacy.currentTerm {p : Fin n}
    {x : Transition (Cluster n V) (UnreliableEvent n V)} (h : StartsCandidacy x p)
    (hstep : (unreliableSystem n V).step x.source x.event x.target) :
    (x.target.nodes p).currentTerm = (x.source.nodes p).currentTerm + 1 := by
  obtain ⟨hevent, hrole⟩ := h
  rw [hevent] at hstep
  obtain ⟨-, htarget⟩ := Cluster.exec_run hstep
  have hrun : (x.source.nodes p).run = (x.source.nodes p).enterCandidate := by
    simp only [Node.run, hrole]
  rw [htarget, Cluster.publish_nodes_self, Cluster.setNode_nodes_self, hrun]
  exact Node.enterCandidate_currentTerm _

/-- Along every run of a cluster, whatever its network does to the messages, no node ever
goes back to an earlier term, every candidacy begins in a later one, and no message is
ahead of its sender. -/
theorem term_monotone {history : List (Transition (Cluster n V) (UnreliableEvent n V))}
    (h : (unreliableSystem n V).Run unguarded history s) :
    (∀ x ∈ history, ∀ p, (x.source.nodes p).currentTerm ≤ (x.target.nodes p).currentTerm ∧
      (x.target.nodes p).currentTerm ≤ (s.nodes p).currentTerm ∧
      (StartsCandidacy x p → (x.source.nodes p).currentTerm < (x.target.nodes p).currentTerm)) ∧
    s.TermBounded := by
  refine ⟨?_, (unreliable_reachable ⟨history, h⟩).2⟩
  -- the induction carries a step and the states after it
  induction h with
  | init _ => simp
  | @step history s t e hrun _ hstep ih =>
    have hready : s.Ready := (unreliable_reachable ⟨history, hrun⟩).1
    have hle := unreliable_step_currentTerm_le hready hstep
    intro x hx p
    rcases List.mem_cons.mp hx with rfl | hx
    · refine ⟨hle p, le_rfl, fun hstarts => ?_⟩
      rw [hstarts.currentTerm hstep]
      exact Nat.lt_succ_self _
    · obtain ⟨hstep', hlater, hstarts⟩ := ih x hx p
      exact ⟨hstep', hlater.trans (hle p), hstarts⟩

end Runs

/-- A node of two becomes a candidate. -/
theorem term_monotone_candidacy :
    ∃ (history : List (Transition (Cluster 2 (List ℕ)) (UnreliableEvent 2 (List ℕ))))
      (s : Cluster 2 (List ℕ)),
      (s.nodes 0).currentTerm = 2 ∧ s.TermBounded ∧
      ∀ x ∈ history, ∀ p, (x.source.nodes p).currentTerm ≤ (x.target.nodes p).currentTerm := by
  have hreplay : (replay Cluster.exec (fun _ _ => true) []
      (Cluster.init : Cluster 2 (List ℕ)) [.run 0, .follower 0 none true, .run 0]).any
      (fun r => (r.2.nodes 0).currentTerm = 2) = true := by decide
  obtain ⟨history, s, hrun, hterm⟩ :=
    exists_run_of_replay (fun _ (s : Cluster 2 (List ℕ)) => (s.nodes 0).currentTerm = 2) hreplay
  obtain ⟨hsteps, hbounded⟩ := term_monotone (unreliable_run hrun)
  exact ⟨_, s, of_decide_eq_true hterm, hbounded, fun x hx p => (hsteps x hx p).1⟩

end DreamboatRpc.Raft
