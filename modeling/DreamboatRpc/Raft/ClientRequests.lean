import DreamboatRpc.CS.Conservation
import DreamboatRpc.Raft.Appends
import DreamboatRpc.Raft.Ballots
import DreamboatRpc.Raft.ElectionSafety
import DreamboatRpc.Raft.Sending
import DreamboatRpc.Raft.StableLeader

/-!
# Client requests are appended at most once

A client request waits in the queue of the node it was made at. A follower takes it from there
and forwards it, and forgets it; a leader takes it from there, or from a message, and appends
it. A request is at any time in one of these places only, or it is lost: nobody puts it into
two of them, whatever roles the nodes take on in between.

Requests with the same term, value and id cannot be told apart, so it is counted how many of a
kind there are. A kind may be all requests for one value, and if that was submitted once, the
count is one.

## Main definitions

* `Cluster.queued`, `Cluster.forwarded` — the requests of a kind in the queues, and under way
* `submitted`, `broadcast` — the requests that are made in a step, and that a leader appends

## Main results

* `follower_requests`, `leader_passes` — an iteration passes on what it takes from the queue,
  or from a message
* `Cluster.requests_exec` — the accounts of a step
* `requests_appended_once` — what waits, and what was appended, is at most what was submitted
-/

namespace DreamboatRpc.Raft

open CS FifoNetwork

variable {n : ℕ} {V : Type*}

/-- The client requests of a kind in a packet: one, or none. -/
def Packet.requests (P : Entry V → Bool) (packet : Packet n V) : ℕ :=
  packet.message.request.toList.countP P

/-- The client requests of a kind that are in the queue of a node. -/
def Cluster.queued (P : Entry V → Bool) (s : Cluster n V) : ℕ :=
  ∑ p, (s.nodes p).clientQueue.countP P

/-- The client requests of a kind that are under way in messages. -/
def Cluster.forwarded (P : Entry V → Bool) (s : Cluster n V) : ℕ :=
  s.net.weight (Packet.requests P)

/-- The entry a client submits in a step. -/
def submitted (x : Step n V) : List (Entry V) :=
  match x.event with
  | .clientRequest p value idNum => [⟨(x.source.nodes p).currentTerm, value, idNum⟩]
  | _ => []

/-- The client requests a leader appends in a step, with the leader: all that the log of a node
grows by in its loop. -/
def broadcast (x : Step n V) : List (Fin n × Entry V) :=
  match x.event with
  | .leader p _ _ _ =>
    ((x.target.nodes p).log.drop (x.source.nodes p).log.length).map fun entry => (p, entry)
  | _ => []

variable {P : Entry V → Bool} {nd nd' : Node n V}

/-! ## One iteration -/

/-- The queue stays as it is, and no client request is sent. -/
abbrev KeepsRequests (nd nd' : Node n V) : Prop :=
  nd'.clientQueue = nd.clientQueue ∧ Sent (fun message => message.request = none) nd nd'

/-- The oldest request in the queue, and no other one, is sent to one node. -/
def ForwardsRequest (nd nd' : Node n V) : Prop :=
  ∃ l term entry cause, nd.clientQueue = entry :: nd'.clientQueue ∧
    nd'.talker = nd.talker ++ [(some l, ⟨.clientRequest term entry, cause⟩)]

/-- A node that had nothing to send passes on what it took from its queue, and what it was
given: what it has put in its talker or appended was there before. -/
def Passes (P : Entry V → Bool) (given : List (Entry V)) (nd nd' : Node n V)
    (appended : List (Entry V)) : Prop :=
  nd'.clientQueue.countP P + outboxWeight (Packet.requests P) nd'.talker + appended.countP P ≤
    nd.clientQueue.countP P + given.countP P

/-- Messages without a request carry none. -/
theorem outboxWeight_requests {out : List (Option (Fin n) × Packet n V)}
    (h : ∀ m ∈ out, m.2.message.request = none) : outboxWeight (Packet.requests P) out = 0 := by
  apply outboxWeight_eq_zero
  intro m hm
  simp [Packet.requests, h m hm]

theorem Sent.outboxWeight (h : Sent (fun message => message.request = none) nd nd')
    (htalker : nd.talker = []) : outboxWeight (Packet.requests P) nd'.talker = 0 := by
  obtain ⟨out, hout, hnone⟩ := h
  rw [hout, htalker, List.nil_append]
  exact outboxWeight_requests hnone

theorem KeepsRequests.passes (h : KeepsRequests nd nd') (htalker : nd.talker = [])
    (given : List (Entry V)) : Passes P given nd nd' [] := by
  obtain ⟨hqueue, hsent⟩ := h
  rw [Passes, hqueue, hsent.outboxWeight htalker]
  simp

theorem ForwardsRequest.passes (h : ForwardsRequest nd nd') (htalker : nd.talker = [])
    (given : List (Entry V)) : Passes P given nd nd' [] := by
  obtain ⟨l, term, entry, cause, hqueue, hout⟩ := h
  have hone : outboxWeight (Packet.requests P) nd'.talker = [entry].countP P := by
    rw [hout, htalker, List.nil_append, outboxWeight_singleton]
    rfl
  have hsplit : nd.clientQueue.countP P = [entry].countP P + nd'.clientQueue.countP P := by
    rw [hqueue, ← List.countP_append]
    rfl
  rw [Passes, hone, hsplit, List.countP_nil]
  omega

theorem followerMessage_requests (nd : Node n V) (q : Fin n) (message : Message n V) :
    KeepsRequests nd (nd.followerMessage q message) ∨
      ForwardsRequest nd (nd.followerMessage q message) := by
  cases message with
  | requestVotes t i u =>
    simp only [Node.followerMessage, Node.followerRequestVotes]
    split <;> split <;> exact .inl ⟨rfl, .of_send rfl rfl⟩
  | heartbeat t l =>
    rcases (followerHeartbeat_forward nd t l).forwarded with ⟨hqueue, htalker⟩ | hforward
    · exact .inl ⟨hqueue, .of_eq htalker⟩
    · exact .inr ⟨l, hforward⟩
  | appendEntries t l k u e c =>
    simp only [Node.followerMessage, Node.followerAppendEntries, Node.appendEntry]
    split
    · split <;> exact .inl ⟨rfl, .of_send rfl rfl⟩
    · exact .inl ⟨rfl, .of_send rfl rfl⟩
  | _ => exact .inl ⟨rfl, .of_eq rfl⟩

/-- A follower forwards at most one request, whatever it is given. -/
theorem follower_requests (nd : Node n V) (incoming : Option (Fin n × Message n V))
    (timeout : Bool) :
    KeepsRequests nd (nd.follower incoming timeout) ∨
      ForwardsRequest nd (nd.follower incoming timeout) := by
  have hmessage : KeepsRequests nd (nd.receive Node.followerMessage incoming) ∨
      ForwardsRequest nd (nd.receive Node.followerMessage incoming) := by
    cases incoming with
    | none => exact .inl ⟨rfl, .of_eq rfl⟩
    | some x => exact followerMessage_requests { nd with incomingMessage := some x.2 } x.1 x.2
  unfold Node.follower
  split
  · simp only
    split
    · exact hmessage
    · exact hmessage
  · exact .inl ⟨rfl, .of_eq rfl⟩

/-- A candidate drops the client requests it is given. -/
theorem candidate_keepsRequests (nd : Node n V) (k m : ℕ)
    (incoming : Option (Fin n × Message n V)) (timeout : Bool) :
    KeepsRequests nd (nd.candidate k m incoming timeout) := by
  refine ⟨?_, candidate_sent (fun _ => rfl) k m incoming timeout⟩
  obtain ⟨role, leader, term, voted, talker, loop, held, heq⟩ :=
    nd.candidate_eq k m incoming timeout
  rw [heq]

/-- What only a leader sends is no client request. -/
theorem leads_noRequest :
    Leads (fun message : Message n V => message.request = none) where
  heartbeat _ _ := rfl
  appendEntries _ _ _ _ _ _ := rfl
  committal _ _ _ := rfl

theorem run_keepsRequests [EmptyCollection V] (hready : nd.Ready) : KeepsRequests nd nd.run := by
  refine ⟨?_, run_sent leads_noRequest rfl (fun _ => rfl) hready⟩
  unfold Node.run
  split
  · obtain ⟨talker, next, reached, heq⟩ :=
      Node.broadcastAppendEntries_eq nd.inaugurated nd.noop
    rw [Node.enterLeader_eq, heq]
    rfl
  · rfl
  · rfl
  · rfl

/-- A leader appends the request it is given, and the oldest one of its queue. -/
theorem leader_passes (hready : nd.Ready) (hsend : nd.Sendable) (hrole : nd.currentRole = .leader)
    (hloop : nd.loop = .leader) (htalker : nd.talker = []) (heartbeat : Bool)
    (expired : Fin n → Bool) (incoming : Option (Fin n × Message n V)) :
    Passes P (incoming.elim [] fun m => m.2.request.toList) nd
      (nd.leader heartbeat expired incoming) (nd.leaderAppends incoming) := by
  have hsent : Sent (fun message => message.request = none) nd
      (nd.leader heartbeat expired incoming) :=
    leader_sent leads_noRequest (fun _ => rfl) hready heartbeat expired incoming
  obtain ⟨-, hqueue, -⟩ := hsend.leader hrole hloop heartbeat expired incoming
  rw [Passes, hsent.outboxWeight htalker, hqueue, Node.leaderAppends, List.countP_append]
  split
  · simp
  · -- the queue is what is appended from it, and what is left
    have hsplit : nd.clientQueue.countP P =
        nd.clientQueue.head?.toList.countP P + nd.clientQueue.tail.countP P := by
      rw [← List.countP_append]
      cases nd.clientQueue with
      | nil => rfl
      | cons entry rest => rfl
    omega

/-! ## Steps -/

namespace Cluster

variable {s s' taken : Cluster n V} {p : Fin n} {source : Option (Fin n)}
  {incoming : Option (Fin n × Packet n V)}

theorem queued_setNode : (s.setNode p nd).queued P + (s.nodes p).clientQueue.countP P =
    s.queued P + nd.clientQueue.countP P :=
  sum_update_add s.nodes (fun nd => nd.clientQueue.countP P) p nd

theorem queued_publish : (s.publish p).queued P = s.queued P := by
  have hshare := sum_update_add s.nodes (fun nd => nd.clientQueue.countP P) p
    { s.nodes p with talker := [], incomingMessage := none }
  exact Nat.add_right_cancel hshare

theorem forwarded_publish : (s.publish p).forwarded P =
    s.forwarded P + outboxWeight (Packet.requests P) (s.nodes p).talker :=
  weight_send

/-- What is taken is not under way any more. -/
theorem forwarded_take (h : s.take p source = some (taken, incoming)) :
    s.forwarded P =
      taken.forwarded P + (incoming.elim [] fun m => m.2.message.request.toList).countP P := by
  obtain ⟨-, rfl, rfl⟩ | ⟨q, packet, -, rfl, -, hnet, hother⟩ := take_cases h
  · rfl
  · exact weight_head hnet hother

/-- The accounts of a thread that takes a message and passes on what it was given. -/
theorem requests_thread {appended : List (Entry V)}
    (htake : s.take p source = some (taken, incoming))
    (hpass : Passes P ((incoming.map fun (q, packet) => (q, packet.message)).elim []
      fun m => m.2.request.toList) (s.nodes p) nd appended) :
    ((taken.setNode p nd).publish p).queued P + ((taken.setNode p nd).publish p).forwarded P +
      appended.countP P ≤ s.queued P + s.forwarded P := by
  have hgiven : ((incoming.map fun (q, packet) => (q, packet.message)).elim []
      fun m => m.2.request.toList) = incoming.elim [] fun m => m.2.message.request.toList := by
    cases incoming with
    | none => rfl
    | some m => rfl
  have hnodes := take_nodes htake
  have hqueue : (taken.setNode p nd).queued P + (s.nodes p).clientQueue.countP P =
      s.queued P + nd.clientQueue.countP P := by
    have hset : (taken.setNode p nd).queued P + (taken.nodes p).clientQueue.countP P =
      taken.queued P + nd.clientQueue.countP P := queued_setNode
    rwa [queued, queued, hnodes] at hset
  have hsent : ((taken.setNode p nd).publish p).forwarded P =
      taken.forwarded P + outboxWeight (Packet.requests P) nd.talker := by
    rw [forwarded_publish, setNode_nodes_self]
    rfl
  have htaken : s.forwarded P = _ := forwarded_take htake
  rw [Passes, hgiven] at hpass
  rw [queued_publish, hsent]
  omega

/-- A call of the client interface may add to the queue of a node. -/
theorem requests_call {entries : List (Entry V)}
    (hqueue : nd.clientQueue = (s.nodes p).clientQueue ++ entries) :
    (s.setNode p nd).queued P + (s.setNode p nd).forwarded P =
      s.queued P + s.forwarded P + entries.countP P := by
  have hset : (s.setNode p nd).queued P + (s.nodes p).clientQueue.countP P =
    s.queued P + nd.clientQueue.countP P := queued_setNode
  have hsame : (s.setNode p nd).forwarded P = s.forwarded P := rfl
  rw [hqueue, List.countP_append] at hset
  omega

variable [EmptyCollection V] {e : Event n V}

omit [EmptyCollection V] in
/-- What a leader appends is what its log grows by. -/
theorem countP_broadcast {heartbeat : Bool} {expired : Fin n → Bool} {entries : List (Entry V)}
    (hlog : (s'.nodes p).log = (s.nodes p).log ++ entries) :
    (broadcast ⟨s, .leader p heartbeat expired source, s'⟩).countP (fun x => P x.2) =
      entries.countP P := by
  simp only [broadcast, hlog, List.drop_left, List.countP_map]
  rfl

omit [EmptyCollection V] in
/-- The accounts of a node in the loop of a leader; one that was paused leaves the loop. -/
theorem requests_leader (hready : (s.nodes p).Ready) (hsend : (s.nodes p).Sendable)
    (hloop : (s.nodes p).loop = .leader) (htalker : (s.nodes p).talker = [])
    (htake : s.take p source = some (taken, incoming)) {heartbeat : Bool} {expired : Fin n → Bool}
    (hs : s' = (taken.setNode p ((s.nodes p).leader heartbeat expired
      (incoming.map fun (q, packet) => (q, packet.message)))).publish p) :
    s'.queued P + s'.forwarded P +
      (broadcast ⟨s, .leader p heartbeat expired source, s'⟩).countP (fun x => P x.2) ≤
        s.queued P + s.forwarded P := by
  set given := incoming.map fun (q, packet) => (q, packet.message)
  have hlog : (s'.nodes p).log = ((s.nodes p).leader heartbeat expired given).log := by
    rw [hs, publish_nodes_self, setNode_nodes_self]
  by_cases hrole : (s.nodes p).currentRole = .leader
  · obtain ⟨happends, -, -⟩ := hsend.leader hrole hloop heartbeat expired given
    rw [countP_broadcast (hlog.trans happends.log), hs]
    exact requests_thread htake
      (leader_passes hready hsend hrole hloop htalker heartbeat expired given)
  · have hleave : (s.nodes p).leader heartbeat expired given = { s.nodes p with loop := .run } := by
      rw [Node.leader, if_neg hrole]
    have hkeep : KeepsRequests (s.nodes p) ((s.nodes p).leader heartbeat expired given) := by
      rw [hleave]
      exact ⟨rfl, .of_eq rfl⟩
    have hsame : (s'.nodes p).log = (s.nodes p).log ++ [] := by
      rw [hlog, hleave, List.append_nil]
    rw [countP_broadcast hsame, hs]
    exact requests_thread htake (hkeep.passes htalker _)

/-- The accounts of a step. -/
theorem requests_exec (hready : s.Ready) (hsend : s.Sendable) (htalked : Talked s)
    (hs : s.exec e = some s') :
    s'.queued P + s'.forwarded P + (broadcast ⟨s, e, s'⟩).countP (fun x => P x.2) ≤
      s.queued P + s.forwarded P + (submitted ⟨s, e, s'⟩).countP P := by
  obtain ⟨p, rfl, -, rfl⟩ | ⟨p, source, timeout, taken, incoming, rfl, -, -, htake, rfl⟩ |
    ⟨p, source, timeout, taken, incoming, k, m, rfl, -, -, htake, rfl⟩ |
    ⟨p, heartbeat, expired, source, taken, incoming, rfl, hloop, -, htake, hs'⟩ |
    ⟨p, value, idNum, rfl, rfl⟩ | ⟨p, rfl, rfl⟩ | ⟨p, rfl, rfl⟩ | ⟨src, dst, i, rfl, rfl⟩ :=
    exec_cases hs
  · have hnone : s.take p none = some (s, none) := rfl
    exact requests_thread hnone ((run_keepsRequests (hready p)).passes (htalked p).2 _)
  · rcases follower_requests (s.nodes p) (incoming.map fun (q, packet) => (q, packet.message))
      timeout with hkeep | hforward
    · exact requests_thread htake (hkeep.passes (htalked p).2 _)
    · exact requests_thread htake (hforward.passes (htalked p).2 _)
  · exact requests_thread htake
      ((candidate_keepsRequests (s.nodes p) k m _ timeout).passes (htalked p).2 _)
  · exact requests_leader (hready p) (hsend p hloop) hloop (htalked p).2 htake hs'
  · exact (requests_call rfl).le
  · have hqueue : (s.nodes p).pause.clientQueue = (s.nodes p).clientQueue ++ [] :=
      (List.append_nil _).symm
    exact (requests_call hqueue).le
  · have hqueue : (s.nodes p).unPause.clientQueue = (s.nodes p).clientQueue ++ [] := by
      rw [List.append_nil, Node.unPause]
      split <;> rfl
    exact (requests_call hqueue).le
  · -- what is lost is not under way any more
    exact Nat.add_le_add_left (weight_lose_le i) _

end Cluster

/-! ## Runs -/

/-- In every run of a cluster of any size, whatever its nodes vote, lead, pause, forward and
lose: the client requests of a kind that are queued, under way and appended by leaders are
together at most those that were submitted. A request of which there is only one is in one
place, and is appended by one leader, once. -/
theorem requests_appended_once [EmptyCollection V] {history : List (Step n V)}
    {s : Cluster n V} (hrun : (clusterSystem n V).Run unguarded history s)
    (P : Entry V → Bool) :
    s.queued P + s.forwarded P + (history.flatMap broadcast).countP (fun x => P x.2) ≤
        (history.flatMap submitted).countP P ∧
      ((history.flatMap submitted).countP P ≤ 1 →
        ∀ (i j : ℕ) (x y : Fin n × Entry V), (history.flatMap broadcast)[i]? = some x →
          (history.flatMap broadcast)[j]? = some y → P x.2 → P y.2 → i = j) := by
  have haccounts : s.queued P + s.forwarded P +
      (history.flatMap broadcast).countP (fun x => P x.2) ≤
        (history.flatMap submitted).countP P := by
    rw [List.countP_flatMap, List.countP_flatMap]
    refine hrun.conserved (fun s => s.queued P + s.forwarded P) ?_ ?_
    · rintro _ rfl
      simp [Cluster.queued, Cluster.forwarded, Cluster.init, Node.init]
    · intro s e t hreach hs
      exact Cluster.requests_exec (.of_reachable hreach) (.of_reachable hreach)
        (.of_reachable hreach) hs
  refine ⟨haccounts, fun hone i j x y hx hy hPx hPy => ?_⟩
  have hsingle : (history.flatMap broadcast).countP (fun x => P x.2) ≤ 1 := by omega
  exact getElem?_unique_of_countP_le_one hsingle hx hy hPx hPy

/-- Node `1` of two is given a request, and forwards it when node `0` leads. -/
def forwardsRequest : List (Event 2 (List ℕ)) :=
  [.clientRequest 1 [7] 5] ++ wonElection ++ [.run 0, .follower 1 (some 0) false,
    .leader 0 false (fun _ => false) (some 1)]

/-- The only request for the value was appended by node `0`. -/
def appendsForwarded (history : List (Step 2 (List ℕ))) : Bool :=
  (history.flatMap submitted).countP (fun entry => entry.entry == [7]) == 1 &&
    (history.flatMap broadcast).map (fun x => (x.1, x.2.entry)) == [(0, [7])]

theorem requests_appended_once_forwarded :
    ∃ (history : List (Step 2 (List ℕ))) (s : Cluster 2 (List ℕ)), appendsForwarded history ∧
      s.queued (fun entry => entry.entry == [7]) = 0 ∧
      s.forwarded (fun entry => entry.entry == [7]) = 0 ∧
      ∀ (i j : ℕ) (x y : Fin 2 × Entry (List ℕ)), (history.flatMap broadcast)[i]? = some x →
        (history.flatMap broadcast)[j]? = some y → x.2.entry = [7] → y.2.entry = [7] → i = j := by
  have hreplay : (replay Cluster.exec (fun _ _ => true) [] Cluster.init forwardsRequest).any
      (fun r => appendsForwarded r.1) = true := by decide
  obtain ⟨history, s, hrun, htest⟩ :=
    exists_run_of_replay (fun history _ => appendsForwarded history) hreplay
  obtain ⟨haccounts, honce⟩ := requests_appended_once (hrun.mono fun _ _ _ => trivial)
    fun entry => entry.entry == [7]
  have hcounts := htest
  simp only [appendsForwarded, Bool.and_eq_true, beq_iff_eq] at hcounts
  obtain ⟨hone, hbroadcast⟩ := hcounts
  -- it was submitted once, and appended, so it waits nowhere
  have happended : (history.flatMap broadcast).countP (fun x => x.2.entry == [7]) = 1 := by
    have hcount := congrArg (List.countP fun x => x.2 == [7]) hbroadcast
    rwa [List.countP_map] at hcount
  refine ⟨history, s, htest, by omega, by omega, fun i j x y hx hy hxv hyv => ?_⟩
  exact honce hone.le i j x y hx hy (by simp [hxv]) (by simp [hyv])

end DreamboatRpc.Raft
