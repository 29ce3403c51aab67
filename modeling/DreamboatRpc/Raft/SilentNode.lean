import DreamboatRpc.Raft.ElectionSafety
import DreamboatRpc.Raft.Sends
import DreamboatRpc.Raft.ThreadsAlive

/-!
# A cluster with a node that takes no part

The index a leader commits is the smallest of its match indices, and the match index of a
node only grows with its acknowledges. So a node whose thread never runs holds up everyone:
whatever the others append and acknowledge, nothing is committed anywhere, and a client goes
on reading the value every log starts with.

## Main definitions

* `Event.thread` — the node whose thread runs in an event
* `Node.Uncommitted` — nothing is committed, and a given node has acknowledged nothing

## Main results

* `LeaderOps.uncommitted` — the operations of a leader commit nothing
* `silent_node_stalls` — along every run in which a node takes no part
-/

namespace DreamboatRpc.Raft

open CS FifoNetwork

variable {n : ℕ} {V : Type*} {q : Fin n}

/-- The node whose thread runs. -/
def Event.thread : Event n V → Option (Fin n)
  | .run p | .follower p _ _ | .candidate p _ _ | .leader p _ _ _ => some p
  | .clientRequest _ _ _ | .pause _ | .unPause _ | .lose _ _ _ => none

/-- The thread of `q` does not run. -/
def silent (q : Fin n) : Cluster n V → UnreliableEvent n V → Prop
  | _, .event e => e.thread ≠ some q
  | _, .rearrange _ => True

/-- A message that is not from `q`, and that says of no index behind the first entry that it
is committed. -/
def Message.Uncommitted (q src _dst : Fin n) (message : Message n V) : Prop :=
  src ≠ q ∧
  match message with
  | .appendEntries _ _ _ _ _ leaderCommit => leaderCommit = 0
  | .committal _ prevLogIndex _ => prevLogIndex = 0
  | _ => True

/-! ## One iteration -/

namespace Node

variable {nd nd' : Node n V}

/-- Nothing behind the first entry is committed, and `q` has acknowledged none of it. -/
structure Uncommitted (q : Fin n) (nd : Node n V) : Prop where
  commitIndex : nd.commitIndex = 0
  lastAppliedIndex : nd.lastAppliedIndex = 0
  matchIndex : nd.matchIndex q = 0

/-- Nothing but these fields matters. -/
theorem Uncommitted.congr (h : nd.Uncommitted q) (hcommit : nd'.commitIndex = nd.commitIndex)
    (happlied : nd'.lastAppliedIndex = nd.lastAppliedIndex)
    (hmatch : nd'.matchIndex = nd.matchIndex) : nd'.Uncommitted q := by
  refine ⟨?_, ?_, ?_⟩
  · rw [hcommit]
    exact h.commitIndex
  · rw [happlied]
    exact h.lastAppliedIndex
  · rw [hmatch]
    exact h.matchIndex

/-- `nd'` is `nd` after it has sent messages, and committed nothing. -/
structure Stalls (q : Fin n) (nd nd' : Node n V) : Prop where
  uncommitted : nd'.Uncommitted q
  sends : nd.Sends (Message.Uncommitted q) nd'

theorem Stalls.refl (h : nd.Uncommitted q) : Stalls q nd nd := ⟨h, .refl⟩

/-- A step in which only fields no commit depends on are changed. -/
theorem Stalls.of_talker (h : nd.Uncommitted q) (hcommit : nd'.commitIndex = nd.commitIndex)
    (happlied : nd'.lastAppliedIndex = nd.lastAppliedIndex)
    (hmatch : nd'.matchIndex = nd.matchIndex) (hid : nd'.myId = nd.myId)
    (htalker : nd'.talker = nd.talker) : Stalls q nd nd' :=
  ⟨h.congr hcommit happlied hmatch, .of_talker hid htalker⟩

theorem Stalls.of_send (h : nd.Uncommitted q) {receiver : Option (Fin n)} {packet : Packet n V}
    (hcommit : nd'.commitIndex = nd.commitIndex)
    (happlied : nd'.lastAppliedIndex = nd.lastAppliedIndex)
    (hmatch : nd'.matchIndex = nd.matchIndex) (hid : nd'.myId = nd.myId)
    (htalker : nd'.talker = nd.talker ++ [(receiver, packet)])
    (hmessage : ∀ dst, packet.message.Uncommitted q nd.myId dst) : Stalls q nd nd' :=
  ⟨h.congr hcommit happlied hmatch, .of_send hid htalker fun dst _ => hmessage dst⟩

theorem Stalls.trans {nd'' : Node n V} (h : Stalls q nd nd') (h' : Stalls q nd' nd'') :
    Stalls q nd nd'' :=
  ⟨h'.uncommitted, h.sends.trans h'.sends⟩

/-! ### Leaders -/

/-- Where `q` is credited with nothing, the operations of a leader commit nothing. -/
theorem LeaderOps.uncommitted {O : Entry V → Prop}
    (hops : LeaderOps O (fun r _ => r ≠ q) nd nd') (h : nd.Uncommitted q) (hq : nd.myId ≠ q) :
    Stalls q nd nd' := by
  induction hops with
  | refl => exact .refl h
  | @tail nd₁ nd₂ _ hop ih =>
    have hid : nd₁.myId ≠ q := by
      rw [ih.sends.myId]
      exact hq
    have h₁ := ih.uncommitted
    refine ih.trans ?_
    cases hop with
    | heartbeat => exact .of_send h₁ rfl rfl rfl rfl rfl fun _ => ⟨hid, trivial⟩
    | sendEntry => exact .of_send h₁ rfl rfl rfl rfl rfl fun _ => ⟨hid, h₁.commitIndex⟩
    | committal => exact .of_send h₁ rfl rfl rfl rfl rfl fun _ => ⟨hid, h₁.lastAppliedIndex⟩
    | credit r k hr =>
      refine ⟨⟨h₁.commitIndex, h₁.lastAppliedIndex, ?_⟩, .of_talker rfl rfl⟩
      exact (Function.update_of_ne hr.symm ..).trans h₁.matchIndex
    | matchSelf =>
      refine ⟨⟨h₁.commitIndex, h₁.lastAppliedIndex, ?_⟩, .of_talker rfl rfl⟩
      exact (Function.update_of_ne hid.symm ..).trans h₁.matchIndex
    | commit index e hle hlt _ =>
      -- no match index is below the one that is committed
      have hzero := (hle q).trans_eq h₁.matchIndex
      omega
    | _ => exact .of_talker h₁ rfl rfl rfl rfl rfl

theorem yieldTo_stalls (h : nd.Uncommitted q) (hq : nd.myId ≠ q) (sender : Fin n) (t : ℕ) :
    Stalls q nd (nd.yieldTo sender t) :=
  .of_send h rfl rfl rfl rfl rfl fun _ => ⟨hq, trivial⟩

theorem leader_stalls (h : nd.Uncommitted q) (hready : nd.Ready) (hq : nd.myId ≠ q)
    (heartbeat : Bool) (expired : Fin n → Bool) {incoming : Option (Fin n × Message n V)}
    (hincoming : ∀ r message, incoming = some (r, message) → r ≠ q) :
    Stalls q nd (nd.leader heartbeat expired incoming) := by
  by_cases hrole : nd.currentRole = .leader
  swap
  · unfold Node.leader
    rw [if_neg hrole]
    exact .of_talker h rfl rfl rfl rfl rfl
  obtain ⟨nd₁, hops, hcases⟩ := leader_cases (O := fun _ => True) (C := fun r _ => r ≠ q)
    hrole hready heartbeat expired incoming (fun _ _ _ _ => trivial)
    (fun r _ _ hr _ => hincoming r _ hr)
  have hstalls := hops.uncommitted h hq
  have hq₁ : nd₁.myId ≠ q := by
    rw [hstalls.sends.myId]
    exact hq
  obtain heq | ⟨r, t, i, u, -, -, heq⟩ | ⟨entry, rest, -, -, -, heq⟩ := hcases
  · rwa [heq]
  · rw [heq]
    exact hstalls.trans (yieldTo_stalls hstalls.uncommitted hq₁ r t)
  · have hpops : Stalls q nd₁ { nd₁ with clientQueue := rest } :=
      .of_talker hstalls.uncommitted rfl rfl rfl rfl rfl
    have hready₁ : ({ nd₁ with clientQueue := rest } : Node n V).Ready :=
      (hready.ops hops).congr rfl rfl
    rw [heq]
    exact (hstalls.trans hpops).trans
      ((broadcastAppendEntries_ops (O := fun _ => True) hready₁ entry trivial).uncommitted
        hpops.uncommitted hq₁)

/-! ### Followers and candidates -/

theorem followerRequestVotes_stalls (h : nd.Uncommitted q) (hq : nd.myId ≠ q) (r : Fin n)
    (t i u : ℕ) : Stalls q nd (nd.followerRequestVotes r t i u) := by
  unfold followerRequestVotes
  by_cases ht : t > nd.currentTerm
  · simp only [if_pos ht]
    split
    · exact .of_send h rfl rfl rfl rfl rfl fun _ => ⟨hq, trivial⟩
    · exact .of_send h rfl rfl rfl rfl rfl fun _ => ⟨hq, trivial⟩
  · simp only [if_neg ht]
    split
    · exact .of_send h rfl rfl rfl rfl rfl fun _ => ⟨hq, trivial⟩
    · exact .of_send h rfl rfl rfl rfl rfl fun _ => ⟨hq, trivial⟩

theorem followerHeartbeat_stalls (h : nd.Uncommitted q) (hq : nd.myId ≠ q) (t : ℕ)
    (l : Fin n) : Stalls q nd (nd.followerHeartbeat t l) := by
  unfold followerHeartbeat forwardClientRequest
  by_cases ht : t > nd.currentTerm
  · simp only [if_pos ht]
    split
    · exact .of_talker h rfl rfl rfl rfl rfl
    · exact .of_send h rfl rfl rfl rfl rfl fun _ => ⟨hq, trivial⟩
  · simp only [if_neg ht]
    split
    · exact .of_talker h rfl rfl rfl rfl rfl
    · exact .of_send h rfl rfl rfl rfl rfl fun _ => ⟨hq, trivial⟩

theorem followerMessage_stalls (h : nd.Uncommitted q) (hq : nd.myId ≠ q) {r dst : Fin n}
    {message : Message n V} (hmessage : message.Uncommitted q r dst) :
    Stalls q nd (nd.followerMessage r message) := by
  cases message with
  | requestVotes t i u => exact followerRequestVotes_stalls h hq r t i u
  | heartbeat t l => exact followerHeartbeat_stalls h hq t l
  | appendEntries t l i u e c =>
    -- the leader has committed nothing, so the follower commits nothing either
    have hcommit : c = 0 := hmessage.2
    have hnone : ¬ c > nd.commitIndex := by omega
    simp only [followerMessage, followerAppendEntries, appendEntry, cutLog, hnone, decide_false]
    split
    · exact .of_send h rfl rfl rfl rfl rfl fun _ => ⟨hq, trivial⟩
    · exact .of_send h rfl rfl rfl rfl rfl fun _ => ⟨hq, trivial⟩
  | committal t i u =>
    have hindex : i = 0 := hmessage.2
    exact ⟨⟨hindex, hindex, h.matchIndex⟩, .of_talker rfl rfl⟩
  | _ => exact .refl h

theorem follower_stalls (h : nd.Uncommitted q) (hq : nd.myId ≠ q)
    {incoming : Option (Fin n × Message n V)}
    (hincoming : ∀ r message, incoming = some (r, message) →
      message.Uncommitted q r nd.myId) (timeout : Bool) :
    Stalls q nd (nd.follower incoming timeout) := by
  have hreceive : Stalls q nd (nd.receive followerMessage incoming) := by
    cases incoming with
    | none => exact .refl h
    | some m =>
      have hheld : Stalls q nd { nd with incomingMessage := some m.2 } :=
        .of_talker h rfl rfl rfl rfl rfl
      exact hheld.trans (followerMessage_stalls hheld.uncommitted hq (hincoming m.1 m.2 rfl))
  unfold Node.follower
  split
  · simp only
    split
    · exact hreceive.trans (.of_talker hreceive.uncommitted rfl rfl rfl rfl rfl)
    · exact hreceive
  · exact .of_talker h rfl rfl rfl rfl rfl

theorem candidateMessage_stalls {k m : ℕ} (h : nd.Uncommitted q) (hq : nd.myId ≠ q)
    (r : Fin n) (message : Message n V) : Stalls q nd (nd.candidateMessage k m r message) := by
  cases message with
  | vote t granted =>
    simp only [candidateMessage, candidateVote]
    split <;> split <;> exact .of_talker h rfl rfl rfl rfl rfl
  | requestVotes t i u =>
    simp only [candidateMessage]
    split
    · exact yieldTo_stalls h hq r t
    · exact .refl h
  | heartbeat t l =>
    simp only [candidateMessage]
    split
    · exact .of_talker h rfl rfl rfl rfl rfl
    · exact .refl h
  | _ => exact .refl h

theorem candidate_stalls {k m : ℕ} (h : nd.Uncommitted q) (hq : nd.myId ≠ q)
    (incoming : Option (Fin n × Message n V)) (timeout : Bool) :
    Stalls q nd (nd.candidate k m incoming timeout) := by
  have hreceive : Stalls q nd (nd.receive (fun nd => nd.candidateMessage k m) incoming) := by
    cases incoming with
    | none => exact .refl h
    | some x =>
      have hheld : Stalls q nd { nd with incomingMessage := some x.2 } :=
        .of_talker h rfl rfl rfl rfl rfl
      exact hheld.trans (candidateMessage_stalls hheld.uncommitted hq x.1 x.2)
  unfold Node.candidate
  split
  · simp only
    split
    · exact hreceive.trans (.of_talker hreceive.uncommitted rfl rfl rfl rfl rfl)
    · exact hreceive
  · exact .of_talker h rfl rfl rfl rfl rfl

theorem run_stalls [EmptyCollection V] (h : nd.Uncommitted q) (hready : nd.Ready)
    (hq : nd.myId ≠ q) : Stalls q nd nd.run := by
  unfold Node.run
  split
  · -- a new leader starts from what it has committed
    have hinaugurated : Stalls q nd nd.inaugurated :=
      ⟨⟨h.commitIndex, h.lastAppliedIndex, h.commitIndex⟩,
        .of_send rfl rfl fun _ _ => ⟨hq, trivial⟩⟩
    have hbroadcast := (broadcastAppendEntries_ops (O := fun _ => True)
      hready.inaugurated nd.noop trivial).uncommitted hinaugurated.uncommitted hq
    rw [enterLeader_eq]
    exact (hinaugurated.trans hbroadcast).trans
      (.of_talker hbroadcast.uncommitted rfl rfl rfl rfl rfl)
  · exact .of_talker h rfl rfl rfl rfl rfl
  · have hrequest : Stalls q nd (nd.incrementTerm none).sendRequestVote :=
      .of_send h rfl rfl rfl rfl rfl fun _ => ⟨hq, trivial⟩
    have hvote : Stalls q (nd.incrementTerm none).sendRequestVote nd.enterCandidate :=
      .of_send hrequest.uncommitted rfl rfl rfl rfl rfl fun _ => ⟨hq, trivial⟩
    exact hrequest.trans hvote
  · exact .refl h

end Node

/-! ## All steps -/

namespace Cluster

variable {s s' : Cluster n V} {e : Event n V}

/-- Nothing is committed, nothing under way says so, and every log starts as it did. -/
structure Stalled [EmptyCollection V] (q : Fin n) (s : Cluster n V) : Prop where
  ids : ∀ p, (s.nodes p).myId = p
  nodes : ∀ p, (s.nodes p).Uncommitted q
  underway : s.Underway (Message.Uncommitted q)
  first : ∀ p, (s.nodes p).log.head? = some Node.initialEntry

variable [EmptyCollection V]

theorem stalled_init : (init : Cluster n V).Stalled q where
  ids _ := rfl
  nodes _ := ⟨rfl, rfl, rfl⟩
  underway := underway_init
  first _ := rfl

theorem thread_of_iteration {p : Fin n} {nd : Node n V} (hs : s.exec e = some s')
    (hiteration : s.iteration e = some (p, nd)) : e.thread = some p := by
  obtain ⟨rfl, -, -⟩ | ⟨_, _, rfl, -, -⟩ | ⟨_, _, _, _, rfl, -, -⟩ | ⟨_, _, _, rfl, -, -⟩ :=
    iteration_cases hs hiteration <;> rfl

theorem iteration_stalls {p : Fin n} {nd : Node n V} (h : s.Stalled q) (hready : s.Ready)
    (hsilent : e.thread ≠ some q) (hs : s.exec e = some s')
    (hiteration : s.iteration e = some (p, nd)) : Node.Stalls q (s.nodes p) nd := by
  have hq : (s.nodes p).myId ≠ q := by
    rw [h.ids p]
    rintro rfl
    exact hsilent (thread_of_iteration hs hiteration)
  have hincoming : ∀ source r message, s.received p source = some (r, message) →
      message.Uncommitted q r (s.nodes p).myId := by
    intro source r message hreceived
    obtain ⟨-, packet, hpacket, rfl⟩ := mem_inflight_of_received hreceived
    rw [h.ids p]
    exact h.underway r p packet hpacket
  obtain ⟨-, -, rfl⟩ | ⟨source, timeout, -, -, rfl⟩ | ⟨source, timeout, k, m, -, -, rfl⟩ |
    ⟨heartbeat, expired, source, -, -, rfl⟩ := iteration_cases hs hiteration
  · exact Node.run_stalls (h.nodes p) (hready p) hq
  · exact Node.follower_stalls (h.nodes p) hq (hincoming source) timeout
  · exact Node.candidate_stalls (h.nodes p) hq _ timeout
  · exact Node.leader_stalls (h.nodes p) (hready p) hq heartbeat expired
      fun r message hr => (hincoming source r message hr).1

theorem Stalled.exec (h : s.Stalled q) (halive : s.Alive) (hsilent : e.thread ≠ some q)
    (hs : s.exec e = some s') : s'.Stalled q := by
  have hstalls : ∀ p nd, s.iteration e = some (p, nd) → Node.Stalls q (s.nodes p) nd :=
    fun p nd hiteration => iteration_stalls h halive.ready hsilent hs hiteration
  refine ⟨ids_exec h.ids (fun p nd hnd => (hstalls p nd hnd).sends.myId) hs, fun p => ?_,
    h.underway.exec h.ids (fun p nd hnd => (hstalls p nd hnd).sends) hs, fun p => ?_⟩
  · obtain ⟨nd, hiteration, heq⟩ | ⟨-, queue, role, heq, -⟩ := exec_node hs p
    · have hnd := (hstalls p nd hiteration).uncommitted
      rw [heq]
      exact hnd.congr rfl rfl rfl
    · rw [heq]
      exact (h.nodes p).congr rfl rfl rfl
  · -- what a follower cuts off is never the first entry
    obtain ⟨kept, ⟨cut, hcut⟩, hne, hlog⟩ :=
      (exec_appends halive.ready halive.sendable hs p).1.log
    rw [hlog, ← h.first p, ← hcut, List.head?_append_of_ne_nil _ hne,
      List.head?_append_of_ne_nil _ hne]

end Cluster

/-! ## Runs -/

section Runs

variable [EmptyCollection V] {s : Cluster n V}

theorem stalled_of_reachable (h : (unreliableSystem n V).Reachable (silent q) s) :
    s.Alive ∧ s.Stalled q := by
  refine TransitionSystem.Reachable.invariant (I := fun s => s.Alive ∧ s.Stalled q) ?_ ?_ h
  · intro s hs
    exact ⟨Cluster.alive_of_reachable (G := unguarded) ⟨[], .init hs⟩,
      hs ▸ Cluster.stalled_init⟩
  · rintro s e t ⟨halive, hstalled⟩ hsilent hstep
    cases e with
    | event e => exact ⟨halive.exec hstep, hstalled.exec halive hsilent hstep⟩
    | rearrange net =>
      obtain ⟨hnet, rfl⟩ := hstep
      exact ⟨halive.network net, hstalled.ids, hstalled.nodes,
        hstalled.underway.rearranges hnet, hstalled.first⟩

/-- As long as one node takes no part, on whatever network: no node ever commits or applies
anything behind the entry every log starts with, and a client that asks for the committed
value gets that of this entry. -/
theorem silent_node_stalls (h : (unreliableSystem n V).Reachable (silent q) s) (p : Fin n) :
    (s.nodes p).commitIndex = 0 ∧ (s.nodes p).lastAppliedIndex = 0 ∧
      (s.nodes p).checkCommittedEntry = some {} := by
  obtain ⟨-, hstalled⟩ := stalled_of_reachable h
  obtain ⟨hcommit, happlied, -⟩ := hstalled.nodes p
  refine ⟨hcommit, happlied, ?_⟩
  rw [Node.checkCommittedEntry, hcommit, ← List.head?_eq_getElem?, hstalled.first p]
  rfl

/-- A run over reliable channels in which the thread of `q` does not run. -/
theorem silent_run {history : List (Step n V)}
    (h : (clusterSystem n V).Run (fun _ e => e.thread ≠ some q) history s) :
    (unreliableSystem n V).Run (silent q) (history.map Step.unreliable) s := by
  induction h with
  | init h => exact .init h
  | step _ hguard hstep ih => exact .step ih hguard hstep

end Runs

/-- Node `0` of two is elected without node `1`, and appends an entry. -/
theorem silent_node_stalls_lonely :
    ∃ s : Cluster 2 (List ℕ), (s.nodes 0).log.length = 2 ∧ (s.nodes 0).commitIndex = 0 ∧
      (s.nodes 0).checkCommittedEntry = some [] := by
  have hreplay : (replay Cluster.exec (fun _ e => decide (e.thread ≠ some 1)) []
      (Cluster.init : Cluster 2 (List ℕ)) (lonelyElection 0 ++ [.run 0])).any
      (fun r => (r.2.nodes 0).log.length = 2) = true := by decide
  obtain ⟨history, s, hrun, hlength⟩ :=
    exists_run_of_replay (fun _ (s : Cluster 2 (List ℕ)) => (s.nodes 0).log.length = 2) hreplay
  have hsilent := silent_run (hrun.mono fun _ _ hguard => of_decide_eq_true hguard)
  obtain ⟨hcommit, -, hread⟩ := silent_node_stalls ⟨_, hsilent⟩ 0
  exact ⟨s, of_decide_eq_true hlength, hcommit, hread⟩

end DreamboatRpc.Raft
