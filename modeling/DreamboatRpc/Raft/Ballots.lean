import DreamboatRpc.Raft.ElectionSafety
import DreamboatRpc.Raft.Iteration

/-!
# Ballots

What an iteration does as far as votes are concerned, for statements about the votes a
node has sent in the course of a run. `VoteStep` lists the possibilities; the results
about votes go through this list and not through the loops.

## Main definitions

* `VoteStep` — a node does nothing about votes, moves to a higher term, gives up a
  candidacy, grants a vote, starts an election or counts a vote
* `Grants` — a node sends a granted vote in a step

## Main results

* `iteration_voteStep` — every iteration is such a step
* `Talked.exec` — between the steps of a run no node has anything to send
-/

namespace DreamboatRpc.Raft

open CS FifoNetwork

variable {n : ℕ} {V : Type*}

/-- The node neither leads nor is in the loop of a candidate. -/
def Node.Bystander (nd : Node n V) : Prop :=
  nd.currentRole ≠ .leader ∧ ∀ k m, nd.loop ≠ .candidate k m

/-- A follower that has not voted and is not ahead of the candidate grants its vote. -/
def Node.mayGrant (nd : Node n V) (lastLogIndex lastLogTerm : ℕ) : Bool :=
  decide (nd.votedFor = none ∧ lastLogIndex ≥ nd.lastAppliedIndex ∧
    lastLogTerm ≥ nd.lastAppliedTerm)

/-- `nd'` has sent what `nd` has, and then one granted vote of its term, to `c`. -/
def CastVote (nd nd' : Node n V) (c : Fin n) : Prop :=
  ∃ out cause, NoVotes out ∧
    nd'.talker = nd.talker ++ out ++ [(some c, ⟨.vote nd'.currentTerm true, cause⟩)]

/-- The count of granted votes after one more vote. -/
def countVote (votesForMe : ℕ) (voteGranted : Bool) : ℕ :=
  if voteGranted then votesForMe + 1 else votesForMe

/-- What an iteration that has read `incoming` does as far as votes are concerned. -/
inductive VoteStep (incoming : Option (Fin n × Message n V)) (nd nd' : Node n V) : Prop
  | frame : VoteFrame nd nd' → SentNoVotes nd nd' → VoteStep incoming nd nd'
  /-- It hears of a higher term, and does not vote. -/
  | raise : nd'.myId = nd.myId → nd.currentTerm < nd'.currentTerm → SentNoVotes nd nd' →
      nd'.Bystander → VoteStep incoming nd nd'
  /-- A candidate hears of a leader of its term. -/
  | giveUp {q l : Fin n} {k m : ℕ} : nd'.myId = nd.myId → nd.loop = .candidate k m →
      incoming = some (q, .heartbeat nd.currentTerm l) → nd'.currentTerm = nd.currentTerm →
      SentNoVotes nd nd' → nd'.Bystander → VoteStep incoming nd nd'
  | grant {c : Fin n} {u i v : ℕ} : nd'.myId = nd.myId →
      incoming = some (c, .requestVotes u i v) → nd'.currentTerm = max nd.currentTerm u →
      nd.currentTerm < u ∨ (nd.loop = .follower ∧ nd.mayGrant i v = true) →
      nd'.votedFor = some c → CastVote nd nd' c → nd'.Bystander → VoteStep incoming nd nd'
  /-- It starts an election. -/
  | call : nd'.myId = nd.myId → nd'.currentTerm = nd.currentTerm + 1 →
      nd'.votedFor = some nd.myId → CastVote nd nd' nd.myId → nd'.currentRole ≠ .leader →
      (∀ k m, nd'.loop = .candidate k m → k = 0) → VoteStep incoming nd nd'
  /-- A candidate counts a vote, and may win. -/
  | count {q : Fin n} {k m u : ℕ} {granted : Bool} : nd'.myId = nd.myId →
      nd.loop = .candidate k m → incoming = some (q, .vote u granted) →
      nd'.currentTerm = nd.currentTerm → nd'.votedFor = nd.votedFor → SentNoVotes nd nd' →
      (∀ k' m', nd'.loop = .candidate k' m' →
        k' = countVote k granted ∧ nd'.currentRole ≠ .leader) →
      (nd'.currentRole = .leader → countVote k granted > n / 2 ∨ n = 1) →
      VoteStep incoming nd nd'

section VoteStep

variable {incoming : Option (Fin n × Message n V)} {nd nd' : Node n V} {p q c : Fin n} {t : ℕ}

/-- The timer of an election or of a leader expires. -/
theorem VoteStep.timeout (h : VoteStep incoming nd nd') :
    VoteStep incoming nd { nd' with currentRole := .candidate, loop := .run } := by
  have hby : ({ nd' with currentRole := .candidate, loop := .run } : Node n V).Bystander :=
    ⟨by simp, by simp⟩
  cases h with
  | frame hf hsent =>
    exact .frame ⟨hf.myId, hf.currentTerm, hf.votedFor, by simp, by simp⟩ hsent
  | raise hid hlt hsent _ => exact .raise hid hlt hsent hby
  | giveUp hid hloop hheard hterm hsent _ => exact .giveUp hid hloop hheard hterm hsent hby
  | grant hid hheard hterm hmay hvoted hcast _ =>
    exact .grant hid hheard hterm hmay hvoted hcast hby
  | call hid hterm hvoted hcast _ _ => exact .call hid hterm hvoted hcast (by simp) (by simp)
  | count hid hloop hheard hterm hvoted hsent _ _ =>
    exact .count hid hloop hheard hterm hvoted hsent (by simp) (by simp)

/-- Reading a message into the local variable of a loop. -/
theorem VoteStep.of_held {message : Option (Message n V)}
    (h : VoteStep incoming { nd with incomingMessage := message } nd') :
    VoteStep incoming nd nd' := by
  cases h with
  | frame hf hsent => exact .frame ⟨hf.1, hf.2, hf.3, hf.4, hf.5⟩ hsent
  | raise hid hlt hsent hby => exact .raise hid hlt hsent hby
  | giveUp hid hloop hheard hterm hsent hby => exact .giveUp hid hloop hheard hterm hsent hby
  | grant hid hheard hterm hmay hvoted hcast hby =>
    exact .grant hid hheard hterm hmay hvoted hcast hby
  | call hid hterm hvoted hcast hrole hloop => exact .call hid hterm hvoted hcast hrole hloop
  | count hid hloop hheard hterm hvoted hsent hcount hwins =>
    exact .count hid hloop hheard hterm hvoted hsent hcount hwins

/-! ## The loops -/

theorem sentNoVotes_refuse (nd : Node n V) (q : Fin n) : SentNoVotes nd (nd.sendVote q false) :=
  (ElectionInv.sendVote_false nd q).2

/-- An iteration that handles a message does so with the message in hand. -/
theorem receive_voteStep {handle : Node n V → Fin n → Message n V → Node n V}
    (h : ∀ q message, VoteStep (some (q, message)) { nd with incomingMessage := some message }
      (handle { nd with incomingMessage := some message } q message))
    (incoming : Option (Fin n × Message n V)) :
    VoteStep incoming nd (nd.receive handle incoming) := by
  cases incoming with
  | none => exact .frame .refl .refl
  | some x => exact (h x.1 x.2).of_held

theorem followerRequestVotes_voteStep (hrole : nd.currentRole = .follower)
    (hloop : nd.loop = .follower) (q : Fin n) (u i v : ℕ) :
    VoteStep (some (q, .requestVotes u i v)) nd (nd.followerRequestVotes q u i v) := by
  -- whatever it answers, it is a follower afterwards
  have hby : ∀ nd' : Node n V, nd'.currentRole = .follower → nd'.loop = .follower →
      nd'.Bystander := fun nd' hr hl => ⟨by simp [hr], by simp [hl]⟩
  unfold Node.followerRequestVotes
  by_cases hu : u > nd.currentTerm
  · simp only [if_pos hu]
    split
    · -- in the new term it has not voted yet
      refine .grant rfl rfl (max_eq_right hu.le).symm (.inl hu) rfl
        ⟨[], nd.incomingMessage, by simp [NoVotes], ?_⟩ (hby _ hrole hloop)
      rw [List.append_nil]
      rfl
    · -- the log of the candidate is behind: the term rises all the same
      refine .raise rfl hu ?_ (hby _ hrole hloop)
      exact sentNoVotes_refuse (nd.incrementTerm (some u)) q
  · simp only [if_neg hu]
    split
    · -- also a call of an earlier term is answered with a vote of the present one
      rename_i hmay
      have hterm : nd.currentTerm = max nd.currentTerm u := (max_eq_left (not_lt.mp hu)).symm
      refine .grant rfl rfl hterm (.inr ⟨hloop, decide_eq_true hmay⟩) rfl
        ⟨[], nd.incomingMessage, by simp [NoVotes], ?_⟩ (hby _ hrole hloop)
      rw [List.append_nil]
      rfl
    · exact .frame (ElectionInv.sendVote_false nd q).1 (sentNoVotes_refuse nd q)

theorem followerHeartbeat_voteStep (hrole : nd.currentRole = .follower)
    (hloop : nd.loop = .follower) (u : ℕ) (l : Fin n) :
    VoteStep incoming nd (nd.followerHeartbeat u l) := by
  -- all it may send is a client request
  have hsent : ∀ nd' : Node n V, nd'.talker = nd.talker →
      SentNoVotes nd (nd'.forwardClientRequest l) := by
    intro nd' htalker
    unfold Node.forwardClientRequest
    split
    · exact ⟨[], by simp [htalker], by simp [NoVotes]⟩
    · rename_i entry rest hqueue
      have hforward : SentNoVotes { nd' with clientQueue := rest }
          ({ nd' with clientQueue := rest }.sendClientRequest l entry) :=
        sentNoVotes_sendMessage _ _ (by simp)
      obtain ⟨out, hout, hno⟩ := hforward
      exact ⟨out, by rw [← htalker]; exact hout, hno⟩
  have hsame : ∀ nd' : Node n V, (nd'.forwardClientRequest l).myId = nd'.myId ∧
      (nd'.forwardClientRequest l).currentTerm = nd'.currentTerm ∧
      (nd'.forwardClientRequest l).votedFor = nd'.votedFor ∧
      (nd'.forwardClientRequest l).currentRole = nd'.currentRole ∧
      (nd'.forwardClientRequest l).loop = nd'.loop := by
    intro nd'
    unfold Node.forwardClientRequest
    split
    · exact ⟨rfl, rfl, rfl, rfl, rfl⟩
    · exact ⟨rfl, rfl, rfl, rfl, rfl⟩
  unfold Node.followerHeartbeat
  -- a later term is adopted, in the same or an earlier one only the leader is noted
  by_cases hu : u > nd.currentTerm
  · simp only [if_pos hu]
    obtain ⟨hid, hterm, -, hr, hl⟩ :=
      hsame { nd.incrementTerm (some u) with leaderId := some l }
    refine .raise hid (by rw [hterm]; exact hu) (hsent _ rfl) ⟨?_, ?_⟩
    · rw [hr]
      simp [Node.incrementTerm, hrole]
    · rw [hl]
      simp [Node.incrementTerm, hloop]
  · simp only [if_neg hu]
    obtain ⟨hid, hterm, hv, hr, hl⟩ := hsame { nd with leaderId := some l }
    refine .frame ⟨hid, hterm, ?_, ?_, ?_⟩ (hsent _ rfl)
    · rw [hv]
      exact id
    · rw [hr]
      exact id
    · rw [hl]
      exact fun _ m h => ⟨m, h⟩

theorem followerMessage_voteStep (hrole : nd.currentRole = .follower)
    (hloop : nd.loop = .follower) (q : Fin n) (message : Message n V) :
    VoteStep (some (q, message)) nd (nd.followerMessage q message) := by
  cases message with
  | requestVotes u i v => exact followerRequestVotes_voteStep hrole hloop q u i v
  | heartbeat u l => exact followerHeartbeat_voteStep hrole hloop u l
  | appendEntries u l k v e c =>
    obtain ⟨hf, hsent⟩ := ElectionInv.followerAppendEntries_frame nd u l k v e c
    exact .frame hf hsent
  | committal u i v => exact .frame ⟨rfl, rfl, id, id, fun _ m h => ⟨m, h⟩⟩ .refl
  | _ => exact .frame .refl .refl

theorem follower_voteStep (hloop : nd.loop = .follower)
    (incoming : Option (Fin n × Message n V)) (timeout : Bool) :
    VoteStep incoming nd (nd.follower incoming timeout) := by
  by_cases hrole : nd.currentRole = .follower
  · have hmessage : VoteStep incoming nd (nd.receive Node.followerMessage incoming) := by
      apply receive_voteStep
      intro q message
      apply followerMessage_voteStep
      · exact hrole
      · exact hloop
    unfold Node.follower
    rw [if_pos hrole]
    simp only
    split
    · exact hmessage.timeout
    · exact hmessage
  · unfold Node.follower
    rw [if_neg hrole]
    exact .frame ⟨rfl, rfl, id, id, by simp⟩ .refl

theorem yieldTo_voteStep {u i v : ℕ} (hu : nd.currentTerm < u)
    {nd₁ : Node n V} (hf : VoteFrame nd nd₁) (hsent : SentNoVotes nd nd₁) :
    VoteStep (some (q, .requestVotes u i v)) nd (nd₁.yieldTo q u) := by
  obtain ⟨out, hout, hno⟩ := hsent
  refine .grant hf.myId rfl (max_eq_right hu.le).symm (.inl hu) rfl
    ⟨out, nd₁.incomingMessage, hno, ?_⟩ ⟨by simp [Node.yieldTo], by simp [Node.yieldTo]⟩
  rw [← hout]
  rfl

theorem candidateMessage_voteStep {k m : ℕ} (hrole : nd.currentRole = .candidate)
    (hloop : nd.loop = .candidate k m) (q : Fin n) (message : Message n V) :
    VoteStep (some (q, message)) nd (nd.candidateMessage k m q message) := by
  -- votes are counted, later calls make it yield, and so do heartbeats
  cases message with
  | vote u granted =>
    simp only [Node.candidateMessage, Node.candidateVote]
    have hcount : (if granted then k + 1 else k) = countVote k granted := rfl
    rw [hcount]
    split
    · rename_i hwins
      exact .count rfl hloop rfl rfl rfl .refl (by simp) fun _ => hwins
    · refine .count rfl hloop rfl rfl rfl .refl (fun k' m' h => ⟨?_, by simp [hrole]⟩)
        (by simp [hrole])
      simp only [Loop.candidate.injEq] at h
      exact h.1.symm
  | requestVotes u i v =>
    simp only [Node.candidateMessage]
    split
    · rename_i hu
      exact yieldTo_voteStep hu .refl .refl
    · exact .frame .refl .refl
  | heartbeat u l =>
    simp only [Node.candidateMessage]
    split
    · rename_i hu
      have hby : ({ nd.incrementTerm (some u) with
          leaderId := some l, currentRole := .follower, loop := .run } : Node n V).Bystander :=
        ⟨by simp, by simp⟩
      rcases hu.lt_or_eq with hlt | heq
      · exact .raise rfl hlt .refl hby
      · -- a heartbeat of the same term ends the candidacy and clears the vote
        exact .giveUp rfl hloop (by rw [heq]) heq.symm .refl hby
    · exact .frame .refl .refl
  | _ => exact .frame .refl .refl

theorem candidate_voteStep {k m : ℕ} (hloop : nd.loop = .candidate k m)
    (incoming : Option (Fin n × Message n V)) (timeout : Bool) :
    VoteStep incoming nd (nd.candidate k m incoming timeout) := by
  by_cases hrole : nd.currentRole = .candidate
  · have hmessage : VoteStep incoming nd
        (nd.receive (fun nd => nd.candidateMessage k m) incoming) := by
      apply receive_voteStep
      intro q message
      apply candidateMessage_voteStep
      · exact hrole
      · exact hloop
    unfold Node.candidate
    rw [if_pos hrole]
    simp only
    split
    · exact hmessage.timeout
    · exact hmessage
  · unfold Node.candidate
    rw [if_neg hrole]
    exact .frame ⟨rfl, rfl, id, id, by simp⟩ .refl

theorem leader_voteStep (hready : nd.Ready) (heartbeat : Bool) (expired : Fin n → Bool)
    (incoming : Option (Fin n × Message n V)) :
    VoteStep incoming nd (nd.leader heartbeat expired incoming) := by
  by_cases hrole : nd.currentRole = .leader
  · obtain ⟨nd₁, hops, hcases⟩ := Node.leader_cases (O := fun _ => True) (C := fun _ _ => True)
      hrole hready heartbeat expired incoming (fun _ _ _ _ => trivial) (fun _ _ _ _ _ => trivial)
    obtain ⟨hf, hsent⟩ := voteFrame_leaderOps hops
    obtain heq | ⟨q, u, i, v, hincoming, hlt, heq⟩ | ⟨entry, rest, -, -, -, heq⟩ := hcases
    · rw [heq]
      exact .frame hf hsent
    · rw [heq, hincoming]
      exact yieldTo_voteStep hlt hf hsent
    · -- it appends the oldest entry of its own queue
      have hready' : ({ nd₁ with clientQueue := rest } : Node n V).Ready :=
        (hready.ops hops).congr rfl rfl
      obtain ⟨hf', hsent'⟩ := voteFrame_leaderOps (Node.broadcastAppendEntries_ops
        (O := fun _ => True) (C := fun _ _ => True) hready' entry trivial)
      have hf₂ : VoteFrame nd { nd₁ with clientQueue := rest } :=
        hf.trans ⟨rfl, rfl, id, id, fun _ m h => ⟨m, h⟩⟩
      rw [heq]
      exact .frame (hf₂.trans hf') (hsent.trans hsent')
  · unfold Node.leader
    rw [if_neg hrole]
    exact .frame ⟨rfl, rfl, id, id, by simp⟩ .refl

theorem run_voteStep [EmptyCollection V] (hready : nd.Ready) :
    VoteStep incoming nd nd.run := by
  unfold Node.run
  split
  · obtain ⟨hf, hsent⟩ := voteFrame_leaderOps (Node.broadcastAppendEntries_ops
      (O := fun _ => True) (C := fun _ _ => True) hready.inaugurated nd.noop trivial)
    have hsent₁ : SentNoVotes nd nd.inaugurated := sentNoVotes_sendMessage nd none (by simp)
    have hf₁ : VoteFrame nd nd.inaugurated := ⟨rfl, rfl, id, id, fun _ m h => ⟨m, h⟩⟩
    have hf₂ := hf₁.trans hf
    rw [Node.enterLeader_eq]
    exact .frame ⟨hf₂.myId, hf₂.currentTerm, hf₂.votedFor, hf₂.currentRole, by simp⟩
      (hsent₁.trans hsent)
  · exact .frame ⟨rfl, rfl, id, id, by simp⟩ .refl
  · -- a new candidacy: the call goes to all, then the vote to itself
    rename_i hrole
    refine .call rfl rfl rfl ⟨[(none, ⟨.requestVotes (nd.currentTerm + 1) nd.lastAppliedIndex
      nd.lastAppliedTerm, nd.incomingMessage⟩)], nd.incomingMessage, ?_, rfl⟩ ?_ ?_
    · intro m hm t
      rw [List.mem_singleton.mp hm]
      rfl
    · simp [Node.enterCandidate, Node.sendVote, Node.sendMessage, Node.sendRequestVote,
        Node.incrementTerm, hrole]
    · intro k m h
      simp only [Node.enterCandidate, Loop.candidate.injEq] at h
      exact h.1.symm
  · exact .frame .refl .refl

end VoteStep

/-- Every iteration in a step of the cluster is one of these. -/
theorem iteration_voteStep [EmptyCollection V] {s s' : Cluster n V} {e : Event n V} {p : Fin n}
    {nd : Node n V} (hready : s.Ready) (hs : s.exec e = some s')
    (h : s.iteration e = some (p, nd)) : VoteStep (s.incoming e) (s.nodes p) nd := by
  obtain ⟨rfl, -, rfl⟩ | ⟨source, timeout, rfl, hloop, rfl⟩ |
    ⟨source, timeout, k, m, rfl, hloop, rfl⟩ | ⟨heartbeat, expired, source, rfl, hloop, rfl⟩ :=
    Cluster.iteration_cases hs h
  · exact run_voteStep (hready p)
  · exact follower_voteStep hloop _ timeout
  · exact candidate_voteStep hloop _ timeout
  · exact leader_voteStep (hready p) heartbeat expired _

/-! ## What a node has sent -/

/-- In a step node `p` sends node `c` a granted vote stamped with term `t`. -/
def Grants [EmptyCollection V] (x : Step n V) (p c : Fin n) (t : ℕ) : Prop :=
  ∃ nd, x.source.iteration x.event = some (p, nd) ∧
    ∃ packet ∈ addressedTo c nd.talker, packet.grantsIn t = true

section Grants

variable {incoming : Option (Fin n × Message n V)} {nd nd' : Node n V} {c d : Fin n} {t : ℕ}

theorem NoVotes.not_mem {out : List (Option (Fin n) × Packet n V)} (h : NoVotes out)
    {packet : Packet n V} (hmem : packet ∈ addressedTo c out) : packet.grantsIn t ≠ true := by
  rcases mem_addressedTo.mp hmem with hmem | hmem <;> simp [h _ hmem t]

/-- Nothing that was sent without votes is one. -/
theorem SentNoVotes.not_grants (h : SentNoVotes nd nd') (htalker : nd.talker = [])
    {packet : Packet n V} (hmem : packet ∈ addressedTo c nd'.talker) :
    packet.grantsIn t ≠ true := by
  obtain ⟨out, hout, hno⟩ := h
  rw [hout, htalker, List.nil_append] at hmem
  exact hno.not_mem hmem

/-- The only granted vote among what was sent with one vote. -/
theorem CastVote.eq_of_grants (h : CastVote nd nd' c) (htalker : nd.talker = [])
    {packet : Packet n V} (hmem : packet ∈ addressedTo d nd'.talker)
    (hgrants : packet.grantsIn t = true) : d = c ∧ t = nd'.currentTerm := by
  obtain ⟨out, cause, hno, hout⟩ := h
  rw [hout, htalker, List.nil_append, addressedTo_append, List.mem_append] at hmem
  rcases hmem with hmem | hmem
  · exact absurd hgrants (hno.not_mem hmem)
  · rw [addressedTo_singleton] at hmem
    split at hmem
    · rename_i hcd
      rw [List.mem_singleton.mp hmem] at hgrants
      simp only [Packet.grantsIn, beq_iff_eq] at hgrants
      exact ⟨hcd.symm, hgrants.symm⟩
    · simp at hmem

/-- What is known of a node that has sent a granted vote: the vote is for the term it is in
afterwards and the node it has voted for; it was in an earlier term before, or had not voted
as far as it remembers; and the vote is for itself, or answers a call for votes, of that
term unless the node is a follower that grants its vote on an earlier call. -/
structure VoteGranted (incoming : Option (Fin n × Message n V)) (nd nd' : Node n V) (c : Fin n)
    (t : ℕ) : Prop where
  currentTerm : nd'.currentTerm = t
  votedFor : nd'.votedFor = some c
  free : nd.currentTerm < t ∨ (nd.currentTerm = t ∧ nd.votedFor = none ∧ nd.loop = .follower)
  bystander : nd'.Bystander ∨ (c = nd.myId ∧ nd.currentTerm < t ∧ nd'.currentRole ≠ .leader)
  answers : c = nd.myId ∨ ∃ u i v, incoming = some (c, .requestVotes u i v) ∧
    (u = t ∨ (u < nd.currentTerm ∧ nd.loop = .follower ∧ nd.mayGrant i v = true))

theorem VoteStep.of_grants (h : VoteStep incoming nd nd') (htalker : nd.talker = [])
    {packet : Packet n V} (hmem : packet ∈ addressedTo c nd'.talker)
    (hgrants : packet.grantsIn t = true) : VoteGranted incoming nd nd' c t := by
  cases h with
  | frame _ hsent => exact absurd hgrants (hsent.not_grants htalker hmem)
  | raise _ _ hsent _ => exact absurd hgrants (hsent.not_grants htalker hmem)
  | giveUp _ _ _ _ hsent _ => exact absurd hgrants (hsent.not_grants htalker hmem)
  | count _ _ _ _ _ hsent _ _ => exact absurd hgrants (hsent.not_grants htalker hmem)
  | call hid hterm hvoted hcast hrole _ =>
    obtain ⟨rfl, rfl⟩ := hcast.eq_of_grants htalker hmem hgrants
    have hlt : nd.currentTerm < nd'.currentTerm := by omega
    exact ⟨rfl, hvoted, .inl hlt, .inr ⟨rfl, hlt, hrole⟩, .inl rfl⟩
  | @grant _ u i v hid hheard hterm hmay hvoted hcast hby =>
    -- the call is of the term voted in, or of an earlier one than the node was in
    obtain ⟨rfl, rfl⟩ := hcast.eq_of_grants htalker hmem hgrants
    have hfree : nd.currentTerm < nd'.currentTerm ∨
        (nd.currentTerm = nd'.currentTerm ∧ nd.votedFor = none ∧ nd.loop = .follower) := by
      rcases lt_or_ge nd.currentTerm u with hlt | hge
      · exact .inl (by omega)
      · obtain ⟨hloop, hmay⟩ := hmay.resolve_left (not_lt.mpr hge)
        exact .inr ⟨by omega, (of_decide_eq_true hmay).1, hloop⟩
    refine ⟨rfl, hvoted, hfree, .inl hby, .inr ⟨u, i, v, hheard, ?_⟩⟩
    rcases lt_or_ge u nd.currentTerm with hlt | hge
    · exact .inr ⟨hlt, hmay.resolve_left hlt.not_gt⟩
    · exact .inl (by omega)

end Grants

/-! ## Between the steps of a run -/

/-- Every node has its own id, and has handed over everything it had to say. -/
def Talked (s : Cluster n V) : Prop :=
  ∀ p, (s.nodes p).myId = p ∧ (s.nodes p).talker = []

theorem VoteStep.myId {incoming : Option (Fin n × Message n V)} {nd nd' : Node n V}
    (h : VoteStep incoming nd nd') : nd'.myId = nd.myId := by
  cases h with
  | frame hf _ => exact hf.myId
  | raise hid _ _ _ => exact hid
  | giveUp hid _ _ _ _ _ => exact hid
  | grant hid _ _ _ _ _ _ => exact hid
  | call hid _ _ _ _ _ => exact hid
  | count hid _ _ _ _ _ _ _ => exact hid

theorem Talked.exec [EmptyCollection V] {s s' : Cluster n V} {e : Event n V} (h : Talked s)
    (hready : s.Ready) (hs : s.exec e = some s') : Talked s' := by
  intro q
  obtain ⟨nd, hiteration, heq⟩ | ⟨-, queue, role, heq, -⟩ := Cluster.exec_node hs q
  · have hid := (iteration_voteStep hready hs hiteration).myId
    rw [heq]
    exact ⟨hid.trans (h q).1, rfl⟩
  · rw [heq]
    exact h q

theorem Talked.of_reachable [EmptyCollection V] {G : Cluster n V → Event n V → Prop}
    {s : Cluster n V} (h : (clusterSystem n V).Reachable G s) : Talked s := by
  have hboth : s.Ready ∧ Talked s := by
    refine TransitionSystem.Reachable.invariant (I := fun s => s.Ready ∧ Talked s) ?_ ?_ h
    · rintro _ rfl
      exact ⟨Cluster.ready_init, fun _ => ⟨rfl, rfl⟩⟩
    · rintro s e t ⟨hready, htalked⟩ _ hs
      exact ⟨hready.exec hs, htalked.exec hready hs⟩
  exact hboth.2

end DreamboatRpc.Raft
