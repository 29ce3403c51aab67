import DreamboatRpc.Raft.LogSteps

/-!
# Which messages the loops send

A follower answers, and forwards client requests; a candidate only votes, for another one it
yields to; a leader sends heartbeats, entries and committals, and votes when it yields; a node
that enters a loop sends a heartbeat and an entry, or asks for votes and votes for itself.

## Main results

* `follower_sent`, `candidate_sent`, `leader_sent`, `run_sent` — what is true of all messages
  of these kinds is true of all that is sent
-/

namespace DreamboatRpc.Raft

variable {n : ℕ} {V : Type*} {nd nd' : Node n V} {P : Message n V → Prop}

theorem receive_sent {handle : Node n V → Fin n → Message n V → Node n V}
    (hhandle : ∀ nd q message, Sent P nd (handle nd q message))
    (incoming : Option (Fin n × Message n V)) : Sent P nd (nd.receive handle incoming) := by
  cases incoming with
  | none => exact .refl
  | some x => exact hhandle { nd with incomingMessage := some x.2 } x.1 x.2

theorem followerMessage_sent (hvote : ∀ t granted, P (.vote t granted))
    (hacknowledge : ∀ t success, P (.acknowledge t success))
    (hrequest : ∀ t e, P (.clientRequest t e)) (nd : Node n V) (q : Fin n)
    (message : Message n V) : Sent P nd (nd.followerMessage q message) := by
  cases message with
  | requestVotes t i u =>
    simp only [Node.followerMessage, Node.followerRequestVotes]
    split <;> split <;> exact .of_send rfl (hvote _ _)
  | heartbeat t l =>
    simp only [Node.followerMessage, Node.followerHeartbeat, Node.forwardClientRequest]
    split <;> split
    · exact .of_eq rfl
    · exact .of_eq rfl
    · exact .of_send rfl (hrequest _ _)
    · exact .of_send rfl (hrequest _ _)
  | appendEntries t l k u e c =>
    simp only [Node.followerMessage, Node.followerAppendEntries, Node.appendEntry]
    split
    · split <;> exact .of_send rfl (hacknowledge _ _)
    · exact .of_send rfl (hacknowledge _ _)
  | _ => exact .of_eq rfl

theorem follower_sent (hvote : ∀ t granted, P (.vote t granted))
    (hacknowledge : ∀ t success, P (.acknowledge t success))
    (hrequest : ∀ t e, P (.clientRequest t e)) (incoming : Option (Fin n × Message n V))
    (timeout : Bool) : Sent P nd (nd.follower incoming timeout) := by
  have hmessage : Sent P nd (nd.receive Node.followerMessage incoming) :=
    receive_sent (followerMessage_sent hvote hacknowledge hrequest) incoming
  unfold Node.follower
  split
  · simp only
    split
    · exact hmessage
    · exact hmessage
  · exact .of_eq rfl

theorem candidateMessage_sent (hvote : ∀ t, P (.vote t true)) (nd : Node n V) (k m : ℕ)
    (q : Fin n) (message : Message n V) : Sent P nd (nd.candidateMessage k m q message) := by
  cases message with
  | vote t granted =>
    simp only [Node.candidateMessage, Node.candidateVote]
    split <;> split <;> exact .of_eq rfl
  | requestVotes t i u =>
    simp only [Node.candidateMessage]
    split
    · exact .of_send rfl (hvote _)
    · exact .refl
  | heartbeat t l =>
    simp only [Node.candidateMessage]
    split <;> exact .of_eq rfl
  | _ => exact .of_eq rfl

theorem candidate_sent (hvote : ∀ t, P (.vote t true)) (k m : ℕ)
    (incoming : Option (Fin n × Message n V)) (timeout : Bool) :
    Sent P nd (nd.candidate k m incoming timeout) := by
  have hmessage : Sent P nd (nd.receive (fun nd => nd.candidateMessage k m) incoming) :=
    receive_sent (fun nd => candidateMessage_sent hvote nd k m) incoming
  unfold Node.candidate
  split
  · simp only
    split
    · exact hmessage
    · exact hmessage
  · exact .of_eq rfl

/-! ## Leaders -/

/-- The messages of which a leader sends its own, and none else, are in `P`. -/
structure Leads (P : Message n V → Prop) : Prop where
  heartbeat : ∀ t l, P (.heartbeat t l)
  appendEntries : ∀ t l k u e c, P (.appendEntries t l k u e c)
  committal : ∀ t i u, P (.committal t i u)

theorem Leads.ops (hP : Leads P) {O : Entry V → Prop} {C : Fin n → ℕ → Prop}
    (hops : Node.LeaderOps O C nd nd') : Sent P nd nd' := by
  induction hops with
  | refl => exact .refl
  | tail _ hop ih =>
    cases hop with
    | heartbeat => exact ih.trans (.of_send rfl (hP.heartbeat _ _))
    | sendEntry => exact ih.trans (.of_send rfl (hP.appendEntries _ _ _ _ _ _))
    | committal => exact ih.trans (.of_send rfl (hP.committal _ _ _))
    | _ => exact ih

theorem leader_sent (hP : Leads P) (hvote : ∀ t, P (.vote t true)) (hready : nd.Ready)
    (heartbeat : Bool) (expired : Fin n → Bool) (incoming : Option (Fin n × Message n V)) :
    Sent P nd (nd.leader heartbeat expired incoming) := by
  by_cases hrole : nd.currentRole = .leader
  · obtain ⟨nd₁, hops, hcases⟩ := Node.leader_cases (O := fun _ => True) (C := fun _ _ => True)
      hrole hready heartbeat expired incoming (fun _ _ _ _ => trivial) (fun _ _ _ _ _ => trivial)
    have hsent := hP.ops hops
    obtain heq | ⟨q, t, i, u, -, -, heq⟩ | ⟨entry, rest, -, -, -, heq⟩ := hcases
    · rwa [heq]
    · rw [heq]
      exact hsent.trans (.of_send rfl (hvote _))
    · have hready' : ({ nd₁ with clientQueue := rest } : Node n V).Ready :=
        (hready.ops hops).congr rfl rfl
      have hqueue : Sent P nd { nd₁ with clientQueue := rest } := hsent
      rw [heq]
      exact hqueue.trans (hP.ops (Node.broadcastAppendEntries_ops (O := fun _ => True)
        (C := fun _ _ => True) hready' entry trivial))
  · unfold Node.leader
    rw [if_neg hrole]
    exact .of_eq rfl

/-! ## Entering a loop -/

theorem run_sent [EmptyCollection V] (hP : Leads P)
    (hcall : P (.requestVotes (nd.currentTerm + 1) nd.lastAppliedIndex nd.lastAppliedTerm))
    (hvote : ∀ t, P (.vote t true)) (hready : nd.Ready) : Sent P nd nd.run := by
  unfold Node.run
  split
  · have hfirst : Sent P nd nd.inaugurated := .of_send rfl (hP.heartbeat _ _)
    have hbroadcast : Sent P nd.inaugurated (nd.inaugurated.broadcastAppendEntries nd.noop) :=
      hP.ops (Node.broadcastAppendEntries_ops (O := fun _ => True) (C := fun _ _ => True)
        hready.inaugurated nd.noop trivial)
    exact hfirst.trans hbroadcast
  · exact .of_eq rfl
  · refine ⟨_, enterCandidate_talker nd, fun m hm => ?_⟩
    simp only [List.mem_cons, List.not_mem_nil, or_false] at hm
    rcases hm with rfl | rfl
    · exact hcall
    · exact hvote _
  · exact .of_eq rfl

end DreamboatRpc.Raft
