import DreamboatRpc.Raft.Steps

/-!
# Steps that leave the log alone

Elections, heartbeats and refusals change neither the log nor the commit index of a
node that does not lead, and the messages they send say nothing about logs.

## Main definitions

* `Message.isPlain` — a message that says nothing about logs
* `LogFrame`, `QuietFrame` — the log is kept, and the commit index as well
* `WinFrame` — a candidate wins its term
* `Node.SameApplied` — the same is in the log, committed and applied

## Main results

* `followerRequestVotes_quiet`, `followerHeartbeat_quiet`, `yieldTo_quiet`,
  `enterCandidate_quiet` — the pieces of the loops that are quiet
* `candidate_cases` — an iteration of `_candidate` is quiet or wins
* `Kept.exec_iff` — what depends on the log and on what is applied, and is kept by the
  operations of a leader, is kept by a step unless a follower is given a wrong message
-/

namespace DreamboatRpc.Raft

variable {n : ℕ} {V : Type*} {nd nd' : Node n V}

/-- Neither an entry, nor a positive acknowledge, nor a committal. -/
def Message.isPlain : Message n V → Bool
  | .requestVotes _ _ _ | .vote _ _ | .heartbeat _ _ | .clientRequest _ _
  | .acknowledge _ false => true
  | .appendEntries _ _ _ _ _ _ | .committal _ _ _ | .acknowledge _ true => false

/-- `nd'` has the log of `nd` and does not lead, and what it has sent is plain. -/
structure LogFrame (nd nd' : Node n V) : Prop where
  myId : nd'.myId = nd.myId
  log : nd'.log = nd.log
  currentTerm : nd.currentTerm ≤ nd'.currentTerm
  currentRole : nd'.currentRole ≠ .leader
  talker : ∃ out, nd'.talker = nd.talker ++ out ∧ ∀ m ∈ out, m.2.message.isPlain = true

/-- `nd'` has committed what `nd` has, too. -/
structure QuietFrame (nd nd' : Node n V) : Prop extends LogFrame nd nd' where
  commitIndex : nd'.commitIndex = nd.commitIndex
  lastAppliedIndex : nd'.lastAppliedIndex = nd.lastAppliedIndex

theorem LogFrame.of_talker (hid : nd'.myId = nd.myId) (hlog : nd'.log = nd.log)
    (hterm : nd.currentTerm ≤ nd'.currentTerm) (hrole : nd'.currentRole ≠ .leader)
    (htalker : nd'.talker = nd.talker) : LogFrame nd nd' :=
  ⟨hid, hlog, hterm, hrole, [], by simp [htalker], by simp⟩

/-- A node sends one plain message. -/
theorem LogFrame.of_send {receiver : Option (Fin n)} {message : Message n V}
    (htalker : nd'.talker = nd.talker ++ [(receiver, ⟨message, nd.incomingMessage⟩)])
    (hmessage : message.isPlain = true) (hid : nd'.myId = nd.myId) (hlog : nd'.log = nd.log)
    (hterm : nd.currentTerm ≤ nd'.currentTerm) (hrole : nd'.currentRole ≠ .leader) :
    LogFrame nd nd' := by
  refine ⟨hid, hlog, hterm, hrole, _, htalker, fun m hm => ?_⟩
  rw [List.mem_singleton.mp hm]
  exact hmessage

theorem QuietFrame.trans {nd'' : Node n V} (h : QuietFrame nd nd') (h' : QuietFrame nd' nd'') :
    QuietFrame nd nd'' := by
  obtain ⟨out, hout, hplain⟩ := h.talker
  obtain ⟨out', hout', hplain'⟩ := h'.talker
  refine ⟨⟨h'.myId.trans h.myId, h'.log.trans h.log, h.currentTerm.trans h'.currentTerm,
    h'.currentRole, out ++ out', by rw [hout', hout, List.append_assoc], fun m hm => ?_⟩,
    h'.commitIndex.trans h.commitIndex, h'.lastAppliedIndex.trans h.lastAppliedIndex⟩
  rcases List.mem_append.mp hm with hm | hm
  · exact hplain m hm
  · exact hplain' m hm

/-! ## Followers -/

theorem followerRequestVotes_quiet (hrole : nd.currentRole = .follower) (q : Fin n)
    (t i u : ℕ) : QuietFrame nd (nd.followerRequestVotes q t i u) := by
  have hne : nd.currentRole ≠ .leader := by simp [hrole]
  unfold Node.followerRequestVotes
  by_cases ht : t > nd.currentTerm
  · simp only [if_pos ht]
    split
    · exact ⟨.of_send rfl rfl rfl rfl ht.le hne, rfl, rfl⟩
    · exact ⟨.of_send rfl rfl rfl rfl ht.le hne, rfl, rfl⟩
  · simp only [if_neg ht]
    split
    · exact ⟨.of_send rfl rfl rfl rfl le_rfl hne, rfl, rfl⟩
    · exact ⟨.of_send rfl rfl rfl rfl le_rfl hne, rfl, rfl⟩

theorem followerHeartbeat_quiet (hrole : nd.currentRole = .follower) (t : ℕ) (l : Fin n) :
    QuietFrame nd (nd.followerHeartbeat t l) := by
  have hne : nd.currentRole ≠ .leader := by simp [hrole]
  unfold Node.followerHeartbeat Node.forwardClientRequest
  by_cases ht : t > nd.currentTerm
  · simp only [if_pos ht]
    split
    · exact ⟨.of_talker rfl rfl ht.le hne rfl, rfl, rfl⟩
    · exact ⟨.of_send rfl rfl rfl rfl ht.le hne, rfl, rfl⟩
  · simp only [if_neg ht]
    split
    · exact ⟨.of_talker rfl rfl le_rfl hne rfl, rfl, rfl⟩
    · exact ⟨.of_send rfl rfl rfl rfl le_rfl hne, rfl, rfl⟩

/-! ## Candidates -/

/-- A candidate or leader gives way to a candidate of a higher term. -/
theorem yieldTo_quiet (q : Fin n) {t : ℕ} (ht : nd.currentTerm ≤ t) :
    QuietFrame nd (nd.yieldTo q t) :=
  ⟨.of_send rfl rfl rfl rfl ht (by simp [Node.yieldTo]), rfl, rfl⟩

/-- What a new candidate sends: a call for votes to all, and a vote to itself. -/
theorem enterCandidate_talker (nd : Node n V) : nd.enterCandidate.talker = nd.talker ++
    [(none, ⟨.requestVotes (nd.currentTerm + 1) nd.lastAppliedIndex nd.lastAppliedTerm,
      nd.incomingMessage⟩),
      (some nd.myId, ⟨.vote (nd.currentTerm + 1) true, nd.incomingMessage⟩)] := by
  simp [Node.enterCandidate, Node.sendVote, Node.sendMessage, Node.sendRequestVote,
    Node.incrementTerm]

/-- A candidate starts an election. -/
theorem enterCandidate_quiet (hrole : nd.currentRole = .candidate) :
    QuietFrame nd nd.enterCandidate := by
  refine ⟨⟨rfl, rfl, Nat.le_succ _, ?_, _, enterCandidate_talker nd, ?_⟩, rfl, rfl⟩
  · simp [Node.enterCandidate, Node.sendVote, Node.sendMessage, Node.sendRequestVote,
      Node.incrementTerm, hrole]
  · simp [Message.isPlain]

/-- A candidate wins its term. -/
structure WinFrame (nd nd' : Node n V) : Prop where
  myId : nd'.myId = nd.myId
  log : nd'.log = nd.log
  currentTerm : nd'.currentTerm = nd.currentTerm
  currentRole : nd'.currentRole = .leader
  commitIndex : nd'.commitIndex = nd.commitIndex
  lastAppliedIndex : nd'.lastAppliedIndex = nd.lastAppliedIndex
  loop : nd'.loop = .run
  talker : nd'.talker = nd.talker

theorem candidateMessage_cases (hrole : nd.currentRole = .candidate) (k m : ℕ) (q : Fin n)
    (message : Message n V) :
    QuietFrame nd (nd.candidateMessage k m q message) ∨
      WinFrame nd (nd.candidateMessage k m q message) := by
  have hne : nd.currentRole ≠ .leader := by simp [hrole]
  have hself : QuietFrame nd nd := ⟨.of_talker rfl rfl le_rfl hne rfl, rfl, rfl⟩
  cases message with
  | vote t granted =>
    simp only [Node.candidateMessage, Node.candidateVote]
    generalize (if granted then k + 1 else k) = k'
    split
    · exact .inr ⟨rfl, rfl, rfl, rfl, rfl, rfl, rfl, rfl⟩
    · exact .inl ⟨.of_talker rfl rfl le_rfl hne rfl, rfl, rfl⟩
  | requestVotes t i u =>
    simp only [Node.candidateMessage]
    split
    · rename_i hlt
      exact .inl (yieldTo_quiet q hlt.le)
    · exact .inl hself
  | heartbeat t l =>
    simp only [Node.candidateMessage]
    split
    · rename_i hle
      exact .inl ⟨.of_talker rfl rfl hle (by simp) rfl, rfl, rfl⟩
    · exact .inl hself
  | _ => exact .inl hself

/-- One iteration of `_candidate` is quiet or wins the election. -/
theorem candidate_cases (hrole : nd.currentRole = .candidate) (k m : ℕ)
    (incoming : Option (Fin n × Message n V)) (timeout : Bool) :
    QuietFrame nd (nd.candidate k m incoming timeout) ∨
      WinFrame nd (nd.candidate k m incoming timeout) := by
  have hmessage : QuietFrame nd (nd.receive (fun nd => nd.candidateMessage k m) incoming) ∨
      WinFrame nd (nd.receive (fun nd => nd.candidateMessage k m) incoming) := by
    cases incoming with
    | none =>
      exact .inl ⟨.of_talker rfl rfl le_rfl (by simp [Node.receive, hrole]) rfl, rfl, rfl⟩
    | some x =>
      set held : Node n V := { nd with incomingMessage := some x.2 }
      have hrole' : held.currentRole = .candidate := hrole
      have hne : held.currentRole ≠ .leader := by simp [hrole']
      have hhold : QuietFrame nd held := ⟨.of_talker rfl rfl le_rfl hne rfl, rfl, rfl⟩
      rcases candidateMessage_cases hrole' k m x.1 x.2 with hf | hw
      · exact .inl (hhold.trans hf)
      · exact .inr ⟨hw.myId, hw.log, hw.currentTerm, hw.currentRole, hw.commitIndex,
          hw.lastAppliedIndex, hw.loop, hw.talker⟩
  unfold Node.candidate
  rw [if_pos hrole]
  simp only
  split
  · rename_i htimeout
    refine .inl ?_
    rcases hmessage with hf | hw
    · exact ⟨⟨hf.myId, hf.log, hf.currentTerm, by simp, hf.talker⟩, hf.commitIndex,
        hf.lastAppliedIndex⟩
    · exact absurd hw.loop htimeout.2
  · exact hmessage

/-! ## Log, commit index and applied position -/

/-- `nd'` has the log of `nd`, and has committed and applied the same. -/
structure Node.SameApplied (nd nd' : Node n V) : Prop where
  log : nd'.log = nd.log
  commitIndex : nd'.commitIndex = nd.commitIndex
  lastAppliedIndex : nd'.lastAppliedIndex = nd.lastAppliedIndex
  lastAppliedTerm : nd'.lastAppliedTerm = nd.lastAppliedTerm

theorem Node.SameApplied.trans {nd'' : Node n V} (h : nd.SameApplied nd')
    (h' : nd'.SameApplied nd'') : nd.SameApplied nd'' :=
  ⟨h'.log.trans h.log, h'.commitIndex.trans h.commitIndex,
    h'.lastAppliedIndex.trans h.lastAppliedIndex, h'.lastAppliedTerm.trans h.lastAppliedTerm⟩

/-- A follower changes its log and what it has committed on `AppendEntries` and `Committal`. -/
theorem followerMessage_sameApplied (nd : Node n V) (q : Fin n) {message : Message n V}
    (happend : ∀ t l k u e c, message ≠ .appendEntries t l k u e c)
    (hcommit : ∀ t i u, message ≠ .committal t i u) :
    nd.SameApplied (nd.followerMessage q message) := by
  cases message with
  | requestVotes t i u =>
    simp only [Node.followerMessage, Node.followerRequestVotes]
    split <;> split <;> exact ⟨rfl, rfl, rfl, rfl⟩
  | heartbeat t l =>
    simp only [Node.followerMessage, Node.followerHeartbeat, Node.forwardClientRequest]
    split <;> split <;> exact ⟨rfl, rfl, rfl, rfl⟩
  | appendEntries t l k u e c => exact absurd rfl (happend t l k u e c)
  | committal t i u => exact absurd rfl (hcommit t i u)
  | _ => exact ⟨rfl, rfl, rfl, rfl⟩

theorem candidate_sameApplied (nd : Node n V) (k m : ℕ)
    (incoming : Option (Fin n × Message n V)) (timeout : Bool) :
    nd.SameApplied (nd.candidate k m incoming timeout) := by
  obtain ⟨role, leader, term, voted, talker, loop, held, heq⟩ :=
    nd.candidate_eq k m incoming timeout
  rw [heq]
  exact ⟨rfl, rfl, rfl, rfl⟩

/-- A property of nodes that only depends on the log and on what is committed and applied,
and that the operations of a leader keep. -/
structure Kept (I : Node n V → Prop) : Prop where
  congr : ∀ nd nd', I nd → nd.SameApplied nd' → I nd'
  op : ∀ nd nd', I nd → Node.LeaderOp (fun _ => True) (fun _ _ => True) nd nd' → I nd'

namespace Kept

variable {I : Node n V → Prop}

theorem ops (hI : Kept I) (h : I nd)
    (hops : Node.LeaderOps (fun _ => True) (fun _ _ => True) nd nd') : I nd' := by
  induction hops with
  | refl => exact h
  | tail _ hop ih => exact hI.op _ _ ih hop

theorem leader (hI : Kept I) (h : I nd) (hready : nd.Ready) (heartbeat : Bool)
    (expired : Fin n → Bool) (incoming : Option (Fin n × Message n V)) :
    I (nd.leader heartbeat expired incoming) := by
  by_cases hrole : nd.currentRole = .leader
  · obtain ⟨nd₁, hops, hcases⟩ := Node.leader_cases (O := fun _ => True) (C := fun _ _ => True)
      hrole hready heartbeat expired incoming (fun _ _ _ _ => trivial) (fun _ _ _ _ _ => trivial)
    have h₁ := hI.ops h hops
    -- it goes on, yields to a candidate, or appends the oldest entry of its queue
    obtain heq | ⟨q, t, i, u, -, -, heq⟩ | ⟨entry, rest, -, -, -, heq⟩ := hcases
    · rwa [heq]
    · rw [heq]
      exact hI.congr _ _ h₁ ⟨rfl, rfl, rfl, rfl⟩
    · have hready' : ({ nd₁ with clientQueue := rest } : Node n V).Ready :=
        (hready.ops hops).congr rfl rfl
      have h₂ : I { nd₁ with clientQueue := rest } := hI.congr _ _ h₁ ⟨rfl, rfl, rfl, rfl⟩
      rw [heq]
      exact hI.ops h₂ (Node.broadcastAppendEntries_ops hready' entry trivial)
  · unfold Node.leader
    rw [if_neg hrole]
    exact hI.congr _ _ h ⟨rfl, rfl, rfl, rfl⟩

theorem candidate (hI : Kept I) (h : I nd) (k m : ℕ) (incoming : Option (Fin n × Message n V))
    (timeout : Bool) : I (nd.candidate k m incoming timeout) :=
  hI.congr _ _ h (candidate_sameApplied nd k m incoming timeout)

theorem run [EmptyCollection V] (hI : Kept I) (h : I nd) (hready : nd.Ready) : I nd.run := by
  unfold Node.run
  split
  · have h₁ : I nd.inaugurated := hI.congr _ _ h ⟨rfl, rfl, rfl, rfl⟩
    rw [Node.enterLeader_eq]
    exact hI.congr _ _ (hI.ops h₁
      (Node.broadcastAppendEntries_ops hready.inaugurated nd.noop trivial)) ⟨rfl, rfl, rfl, rfl⟩
  · exact hI.congr _ _ h ⟨rfl, rfl, rfl, rfl⟩
  · exact hI.congr _ _ h ⟨rfl, rfl, rfl, rfl⟩
  · exact h

/-- A follower that is given no message. -/
theorem follower_idle (hI : Kept I) (h : I nd) (timeout : Bool) :
    I (nd.follower none timeout) := by
  unfold Node.follower
  split
  · simp only [Node.receive]
    split
    · exact hI.congr _ _ h ⟨rfl, rfl, rfl, rfl⟩
    · exact h
  · exact hI.congr _ _ h ⟨rfl, rfl, rfl, rfl⟩

/-- The timer of a follower has no part in what it keeps on a message. -/
theorem follower_iff (hI : Kept I) (hrole : nd.currentRole = .follower) (q : Fin n)
    (message : Message n V) (timeout : Bool) :
    I (nd.follower (some (q, message)) timeout) ↔
      I ({ nd with incomingMessage := some message }.followerMessage q message) := by
  unfold Node.follower
  rw [if_pos hrole]
  simp only [Node.receive]
  split
  · exact ⟨fun h => hI.congr _ _ h ⟨rfl, rfl, rfl, rfl⟩,
      fun h => hI.congr _ _ h ⟨rfl, rfl, rfl, rfl⟩⟩
  · rfl

end Kept

/-- The message a follower is given meets a condition. -/
def givesFollower (C : Node n V → Message n V → Bool) (s : Cluster n V) : Event n V → Bool
  | .follower p source _ => ((s.taken p source).map Packet.message).all (C (s.nodes p))
  | _ => true

section Steps

variable {I : Fin n → Node n V → Prop} {C : Node n V → Message n V → Bool}
  {s s' taken : Cluster n V} {e : Event n V} {p : Fin n}

/-- Where one node is replaced, it alone decides. -/
theorem Kept.replace_iff (hI : ∀ q, Kept (I q)) (h : ∀ q, I q (s.nodes q))
    (hnodes : taken.nodes = s.nodes) :
    (∀ q, I q (((taken.setNode p nd).publish p).nodes q)) ↔ I p nd := by
  constructor
  · intro hall
    have hp := hall p
    rw [Cluster.publish_nodes_self, Cluster.setNode_nodes_self] at hp
    exact (hI p).congr _ _ hp ⟨rfl, rfl, rfl, rfl⟩
  · intro hnd q
    by_cases hq : q = p
    · subst hq
      rw [Cluster.publish_nodes_self, Cluster.setNode_nodes_self]
      exact (hI q).congr _ _ hnd ⟨rfl, rfl, rfl, rfl⟩
    · rw [Cluster.publish_nodes_of_ne hq, Cluster.setNode_nodes_of_ne hq, hnodes]
      exact h q

/-- A step keeps the properties of all nodes exactly if the message a follower is given, if it
is given one, meets the condition under which it does. -/
theorem Kept.exec_iff [EmptyCollection V] (hI : ∀ q, Kept (I q))
    (hfollower : ∀ p q message, (s.nodes p).currentRole = .follower →
      (I p ({ s.nodes p with incomingMessage := some message }.followerMessage q message) ↔
        C (s.nodes p) message = true))
    (h : ∀ q, I q (s.nodes q)) (hready : s.Ready) (hs : s.exec e = some s') :
    (∀ q, I q (s'.nodes q)) ↔ givesFollower C s e = true := by
  have hclient : ∀ {p nd}, (s.nodes p).SameApplied nd → ∀ q, I q ((s.setNode p nd).nodes q) := by
    intro p nd hsame
    exact Cluster.forall_setNode (Q := I) ((hI p).congr _ _ (h p) hsame) h
  obtain ⟨p, rfl, -, rfl⟩ | ⟨p, source, timeout, taken, incoming, rfl, -, hrole, htake, rfl⟩ |
    ⟨p, source, timeout, taken, incoming, k, m, rfl, -, -, htake, rfl⟩ |
    ⟨p, heartbeat, expired, source, taken, incoming, rfl, -, -, htake, rfl⟩ |
    ⟨p, value, idNum, rfl, rfl⟩ | ⟨p, rfl, rfl⟩ | ⟨p, rfl, rfl⟩ | ⟨src, dst, i, rfl, rfl⟩ :=
    Cluster.exec_cases hs
  · simp only [givesFollower, iff_true]
    exact (Kept.replace_iff hI h rfl).mpr ((hI p).run (h p) (hready p))
  · rw [Kept.replace_iff hI h (Cluster.take_nodes htake)]
    cases incoming with
    | none =>
      simp only [givesFollower, Cluster.taken_none_of_take htake, Option.map_none,
        Option.all_none, iff_true]
      exact (hI p).follower_idle (h p) timeout
    | some x =>
      obtain ⟨q, packet⟩ := x
      obtain ⟨rfl, htaken⟩ := Cluster.taken_of_take htake
      have hrole' : (s.nodes p).currentRole = .follower := hrole.resolve_left (by simp)
      simp only [givesFollower, htaken, Option.map_some, Option.all_some]
      exact ((hI p).follower_iff hrole' q packet.message timeout).trans
        (hfollower p q packet.message hrole')
  · simp only [givesFollower, iff_true]
    exact (Kept.replace_iff hI h (Cluster.take_nodes htake)).mpr
      ((hI p).candidate (h p) k m _ timeout)
  · simp only [givesFollower, iff_true]
    exact (Kept.replace_iff hI h (Cluster.take_nodes htake)).mpr
      ((hI p).leader (h p) (hready p) heartbeat expired _)
  -- the client interface touches the queue and the role, and a loss no node
  · simp only [givesFollower, iff_true]
    exact hclient ⟨rfl, rfl, rfl, rfl⟩
  · simp only [givesFollower, iff_true]
    exact hclient ⟨rfl, rfl, rfl, rfl⟩
  · simp only [givesFollower, iff_true]
    unfold Node.unPause
    split
    · exact hclient ⟨rfl, rfl, rfl, rfl⟩
    · exact hclient ⟨rfl, rfl, rfl, rfl⟩
  · simp only [givesFollower, iff_true]
    exact h

end Steps

end DreamboatRpc.Raft
