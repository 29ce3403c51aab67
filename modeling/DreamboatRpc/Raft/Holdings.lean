import DreamboatRpc.Raft.Iteration
import DreamboatRpc.Raft.Sending
import DreamboatRpc.Raft.Values

/-!
# What a node holds

A node refers to the entries of its log and of its client queue, and sends no others. In
one event it gets at most one entry that it did not have: the one in the message it reads,
the first entry of a leader, or the one of a client.

## Main definitions

* `Node.held` — the entries of the log and of the client queue
* `Node.Gains` — a node holds and sends nothing new but entries of a kind
* `Cluster.Holds` — everything that is held or under way is of a kind

## Main results

* `exec_gains` — what an event may add to what a node holds
* `Holds.exec` — what is of a kind stays so, if new entries are
-/

namespace DreamboatRpc.Raft

open CS FifoNetwork

variable {n : ℕ} {V : Type*}

/-- The entry a message carries. -/
def Message.carried : Message n V → Option (Entry V)
  | .appendEntries _ _ _ _ entries _ => some entries
  | .clientRequest _ entries => some entries
  | _ => none

namespace Node

/-- The entries a node refers to. -/
def held (nd : Node n V) : List (Entry V) := nd.log ++ nd.clientQueue

/-- All that `nd'` holds, and has sent since it was `nd`, was held by `nd` or is in `O`. -/
structure Gains (O : Entry V → Prop) (nd nd' : Node n V) : Prop where
  held : ∀ e ∈ nd'.held, e ∈ nd.held ∨ O e
  talker : ∃ out, nd'.talker = nd.talker ++ out ∧
    ∀ m ∈ out, ∀ e, m.2.message.carried = some e → e ∈ nd.held ∨ O e

variable {O O' : Entry V → Prop} {nd nd' nd'' : Node n V}

theorem mem_held_of_log {e : Entry V} (h : e ∈ nd.log) : e ∈ nd.held := List.mem_append_left _ h

theorem mem_held_of_clientQueue {e : Entry V} (h : e ∈ nd.clientQueue) : e ∈ nd.held :=
  List.mem_append_right _ h

namespace Gains

theorem of_held (hheld : ∀ e ∈ nd'.held, e ∈ nd.held ∨ O e) (htalker : nd'.talker = nd.talker) :
    nd.Gains O nd' :=
  ⟨hheld, [], by simp [htalker], by simp⟩

theorem of_eq (hlog : nd'.log = nd.log) (hqueue : nd'.clientQueue = nd.clientQueue)
    (htalker : nd'.talker = nd.talker) : nd.Gains O nd' := by
  refine of_held (fun e he => .inl ?_) htalker
  rwa [Node.held, hlog, hqueue] at he

theorem refl : nd.Gains O nd := of_eq rfl rfl rfl

/-- Something was sent. -/
theorem of_send {receiver : Option (Fin n)} {packet : Packet n V}
    (htalker : nd'.talker = nd.talker ++ [(receiver, packet)]) (hlog : nd'.log = nd.log)
    (hqueue : nd'.clientQueue = nd.clientQueue)
    (hcarried : ∀ e, packet.message.carried = some e → e ∈ nd.held ∨ O e) : nd.Gains O nd' := by
  refine ⟨fun e he => .inl ?_, _, htalker, fun m hm => ?_⟩
  · rwa [Node.held, hlog, hqueue] at he
  · rw [List.mem_singleton.mp hm]
    exact hcarried

theorem mono (h : nd.Gains O nd') (hO : ∀ e, O e → O' e) : nd.Gains O' nd' := by
  obtain ⟨out, htalker, hout⟩ := h.talker
  exact ⟨fun e he => (h.held e he).imp_right (hO e), out, htalker,
    fun m hm e he => (hout m hm e he).imp_right (hO e)⟩

theorem trans (h : nd.Gains O nd') (h' : nd'.Gains O nd'') : nd.Gains O nd'' := by
  obtain ⟨out, htalker, hout⟩ := h.talker
  obtain ⟨out', htalker', hout'⟩ := h'.talker
  -- what was got on the way is in `O`
  have hback : ∀ e, e ∈ nd'.held ∨ O e → e ∈ nd.held ∨ O e := fun e he => he.elim (h.held e) .inr
  refine ⟨fun e he => hback e (h'.held e he), out ++ out', ?_, fun m hm e he => ?_⟩
  · rw [htalker', htalker, List.append_assoc]
  · rcases List.mem_append.mp hm with hm | hm
    · exact hout m hm e he
    · exact hback e (hout' m hm e he)

end Gains

/-! ## Followers and candidates -/

theorem incrementTerm_ite_gains (nd : Node n V) (term : ℕ) :
    nd.Gains O (if term > nd.currentTerm then nd.incrementTerm (some term) else nd) := by
  split
  · exact .of_eq rfl rfl rfl
  · exact .refl

/-- A request that is forwarded leaves the queue. -/
theorem forwardClientRequest_gains (nd : Node n V) (leaderId : Fin n) :
    nd.Gains O (nd.forwardClientRequest leaderId) := by
  unfold forwardClientRequest
  split
  · exact .refl
  · rename_i entry rest hrest
    have hentry : entry ∈ nd.held := mem_held_of_clientQueue (by simp [hrest])
    have hsent : nd.Gains O (nd.sendClientRequest leaderId entry) := by
      refine .of_send rfl rfl rfl fun e he => .inl ?_
      rwa [← Option.some.inj he]
    refine hsent.trans (.of_held (fun e he => .inl ?_) rfl)
    rcases List.mem_append.mp he with he | he
    · exact mem_held_of_log he
    · have hqueue : (nd.sendClientRequest leaderId entry).clientQueue = entry :: rest := hrest
      refine mem_held_of_clientQueue ?_
      rw [hqueue]
      exact List.mem_cons_of_mem _ he

theorem followerAppendEntries_gains (nd : Node n V) (term : ℕ) (leaderId : Fin n)
    (prevLogIndex prevLogTerm : ℕ) (entries : Entry V) (leaderCommit : ℕ) (hentries : O entries) :
    nd.Gains O
      (nd.followerAppendEntries term leaderId prevLogIndex prevLogTerm entries leaderCommit) := by
  simp only [followerAppendEntries]
  split
  · -- the entry is added behind what is left of the log
    have happend : nd.Gains O
        (nd.appendEntry entries (decide (leaderCommit > nd.commitIndex))
          (some prevLogIndex)).1 := by
      have hparts : ∀ commit,
          (nd.appendEntry entries commit (some prevLogIndex)).1.log =
            nd.log.take (prevLogIndex + 1) ++ [entries] ∧
          (nd.appendEntry entries commit (some prevLogIndex)).1.clientQueue = nd.clientQueue ∧
          (nd.appendEntry entries commit (some prevLogIndex)).1.talker = nd.talker := by
        intro commit
        simp only [appendEntry, cutLog]
        split <;> exact ⟨rfl, rfl, rfl⟩
      obtain ⟨hlog, hqueue, htalker⟩ := hparts (decide (leaderCommit > nd.commitIndex))
      refine .of_held (fun e he => ?_) htalker
      rw [held, hlog, hqueue] at he
      rcases List.mem_append.mp he with he | he
      · rcases List.mem_append.mp he with he | he
        · exact .inl (mem_held_of_log (List.mem_of_mem_take he))
        · exact .inr (by rwa [List.mem_singleton.mp he])
      · exact .inl (mem_held_of_clientQueue he)
    exact happend.trans (.of_send rfl rfl rfl (by simp [Message.carried]))
  · exact .of_send rfl rfl rfl (by simp [Message.carried])

theorem followerMessage_gains (nd : Node n V) (sender : Fin n) (message : Message n V) :
    nd.Gains (fun e => message.carried = some e) (nd.followerMessage sender message) := by
  cases message with
  | requestVotes term i t =>
    refine (nd.incrementTerm_ite_gains term).trans ?_
    simp only [followerMessage, followerRequestVotes]
    generalize (if term > nd.currentTerm then nd.incrementTerm (some term) else nd) = nd₁
    split <;> exact .of_send rfl rfl rfl (by simp [Message.carried])
  | heartbeat term leaderId =>
    refine (nd.incrementTerm_ite_gains term).trans ?_
    simp only [followerMessage, followerHeartbeat]
    generalize (if term > nd.currentTerm then nd.incrementTerm (some term) else nd) = nd₁
    have hleader : nd₁.Gains (fun e => (Message.heartbeat term leaderId : Message n V).carried =
        some e) { nd₁ with leaderId := some leaderId } := .of_eq rfl rfl rfl
    exact hleader.trans (forwardClientRequest_gains _ leaderId)
  | appendEntries t l i u entries c => exact nd.followerAppendEntries_gains t l i u entries c rfl
  | _ => exact .of_eq rfl rfl rfl

/-- What a node may get from a message it reads. -/
def Brings (incoming : Option (Fin n × Message n V)) (e : Entry V) : Prop :=
  ∃ q message, incoming = some (q, message) ∧ message.carried = some e

theorem receive_gains {handle : Node n V → Fin n → Message n V → Node n V}
    (hhandle : ∀ nd sender message,
      Gains (fun e => message.carried = some e) nd (handle nd sender message))
    (incoming : Option (Fin n × Message n V)) :
    nd.Gains (Brings incoming) (nd.receive handle incoming) := by
  cases incoming with
  | none => exact .refl
  | some m =>
    have hhold : nd.Gains (Brings (some m)) { nd with incomingMessage := some m.2 } :=
      .of_eq rfl rfl rfl
    exact hhold.trans ((hhandle _ m.1 m.2).mono fun e he => ⟨m.1, m.2, rfl, he⟩)

theorem follower_gains (nd : Node n V) (incoming : Option (Fin n × Message n V))
    (timeout : Bool) : nd.Gains (Brings incoming) (nd.follower incoming timeout) := by
  unfold follower
  split
  · have hmessage : nd.Gains (Brings incoming) (nd.receive followerMessage incoming) :=
      receive_gains followerMessage_gains incoming
    simp only
    split
    · exact hmessage.trans (.of_eq rfl rfl rfl)
    · exact hmessage
  · exact .of_eq rfl rfl rfl

/-- A candidate votes, and drops what it is given. -/
theorem candidate_gains (nd : Node n V) (k m : ℕ) (incoming : Option (Fin n × Message n V))
    (timeout : Bool) : nd.Gains O (nd.candidate k m incoming timeout) := by
  have hsent : Sent (fun message => message.carried = none) nd
      (nd.candidate k m incoming timeout) :=
    candidate_sent (fun _ => rfl) k m incoming timeout
  obtain ⟨out, htalker, hnone⟩ := hsent
  refine ⟨fun e he => .inl ?_, out, htalker, fun m hm e he => ?_⟩
  · obtain ⟨role, leader, term, voted, talker, loop, held, heq⟩ :=
      nd.candidate_eq k m incoming timeout
    rwa [heq] at he
  · simp [hnone m hm] at he

/-! ## Leaders -/

/-- A leader sends what is in its log. -/
theorem LeaderOps.gains {C : Fin n → ℕ → Prop} (hops : LeaderOps O C nd nd') :
    nd.Gains O nd' := by
  induction hops with
  | refl => exact .refl
  | tail _ hop ih =>
    refine ih.trans ?_
    cases hop with
    | append entry hentry =>
      refine .of_held (fun e he => ?_) rfl
      rcases List.mem_append.mp he with he | he
      · rcases List.mem_append.mp he with he | he
        · exact .inl (mem_held_of_log he)
        · exact .inr (by rwa [List.mem_singleton.mp he])
      · exact .inl (mem_held_of_clientQueue he)
    | sendEntry node index prev entry _ hentry =>
      refine .of_send rfl rfl rfl fun e he => .inl (mem_held_of_log ?_)
      rw [← Option.some.inj he]
      exact List.mem_of_getElem? hentry
    | heartbeat => exact .of_send rfl rfl rfl (by simp [Message.carried])
    | committal => exact .of_send rfl rfl rfl (by simp [Message.carried])
    | _ => exact .of_eq rfl rfl rfl

theorem broadcastAppendEntries_gains (hnd : nd.Ready) {entry : Entry V} (hentry : O entry) :
    nd.Gains O (nd.broadcastAppendEntries entry) :=
  (broadcastAppendEntries_ops (C := fun _ _ => True) hnd entry hentry).gains

theorem leader_gains (hnd : nd.Ready) (heartbeat : Bool) (expired : Fin n → Bool)
    (incoming : Option (Fin n × Message n V)) :
    nd.Gains (Brings incoming) (nd.leader heartbeat expired incoming) := by
  by_cases hrole : nd.currentRole = .leader
  · obtain ⟨nd₁, hops, hcases⟩ := leader_cases (O := Brings incoming) (C := fun _ _ => True)
      hrole hnd heartbeat expired incoming
      (fun q t e he => ⟨q, .clientRequest t e, he, rfl⟩) (fun _ _ _ _ _ => trivial)
    have hgains := hops.gains
    obtain heq | ⟨q, term, i, t, -, -, heq⟩ | ⟨entry, rest, hrest, -, -, heq⟩ := hcases
    · rwa [heq]
    · rw [heq]
      exact hgains.trans (.of_send rfl rfl rfl (by simp [Message.carried]))
    · rw [heq]
      have hqueue : nd₁.clientQueue = entry :: rest := by rw [hops.clientQueue, hrest]
      have hpop : nd₁.Gains (Brings incoming) { nd₁ with clientQueue := rest } := by
        refine .of_held (fun e he => .inl ?_) rfl
        rcases List.mem_append.mp he with he | he
        · exact mem_held_of_log he
        · exact mem_held_of_clientQueue (by rw [hqueue]; exact List.mem_cons_of_mem _ he)
      have hready : ({ nd₁ with clientQueue := rest } : Node n V).Ready :=
        (hnd.ops hops).congr rfl rfl
      -- the entry that is broadcast was in the queue
      have hbroadcast : (nd.Gains fun e => e ∈ nd.held ∨ Brings incoming e)
          ({ nd₁ with clientQueue := rest }.broadcastAppendEntries entry) :=
        ((hgains.trans hpop).mono fun _ => .inr).trans (broadcastAppendEntries_gains hready
          (.inl (mem_held_of_clientQueue (by rw [hrest]; exact List.mem_cons_self ..))))
      obtain ⟨out, htalker, hout⟩ := hbroadcast.talker
      exact ⟨fun e he => (hbroadcast.held e he).elim .inl id, out, htalker,
        fun m hm e he => (hout m hm e he).elim .inl id⟩
  · unfold leader
    rw [if_neg hrole]
    exact .of_eq rfl rfl rfl

theorem enterLeader_gains [EmptyCollection V] (hnd : nd.Ready) :
    nd.Gains (fun e => e = nd.noop) nd.enterLeader := by
  have hheartbeat : nd.Gains (fun e => e = nd.noop) nd.inaugurated :=
    .of_send rfl rfl rfl (by simp [Message.carried])
  rw [enterLeader_eq]
  exact (hheartbeat.trans (broadcastAppendEntries_gains hnd.inaugurated rfl)).trans
    (.of_eq rfl rfl rfl)

theorem enterCandidate_gains (nd : Node n V) : nd.Gains O nd.enterCandidate := by
  have hterm : nd.Gains O (nd.incrementTerm none) := .of_eq rfl rfl rfl
  have hrequest : (nd.incrementTerm none).Gains O (nd.incrementTerm none).sendRequestVote :=
    .of_send rfl rfl rfl (by simp [Message.carried])
  exact (hterm.trans hrequest).trans (.of_send rfl rfl rfl (by simp [Message.carried]))

theorem run_gains [EmptyCollection V] (hnd : nd.Ready) :
    nd.Gains (fun e => e = nd.noop) nd.run := by
  unfold run
  split
  · exact enterLeader_gains hnd
  · exact .of_eq rfl rfl rfl
  · exact nd.enterCandidate_gains
  · exact .of_eq rfl rfl rfl

end Node

/-! ## One event -/

namespace Cluster

variable [EmptyCollection V] {s s' : Cluster n V} {e : Event n V}

/-- The entry that an event may bring to a node. -/
def newEntry (s : Cluster n V) : Event n V → Option (Entry V)
  | .run p => some (s.nodes p).noop
  | .clientRequest p value idNum => some ⟨(s.nodes p).currentTerm, value, idNum⟩
  | e => (s.incoming e).bind fun m => m.2.carried

theorem iteration_gains {p : Fin n} {nd : Node n V} (hready : s.Ready)
    (hs : s.exec e = some s') (hiteration : s.iteration e = some (p, nd)) :
    (s.nodes p).Gains (fun entry => s.newEntry e = some entry) nd := by
  have hbrings : ∀ source (entry : Entry V), Node.Brings (s.received p source) entry →
      ((s.received p source).bind fun m => m.2.carried) = some entry := by
    rintro source entry ⟨q, message, hreceived, hcarried⟩
    rw [hreceived]
    exact hcarried
  obtain ⟨rfl, -, rfl⟩ | ⟨source, timeout, rfl, -, rfl⟩ | ⟨source, timeout, k, m, rfl, -, rfl⟩ |
    ⟨heartbeat, expired, source, rfl, -, rfl⟩ := iteration_cases hs hiteration
  · exact (Node.run_gains (hready p)).mono fun entry he => by rw [he]; rfl
  · exact (Node.follower_gains _ _ timeout).mono (hbrings source)
  · exact Node.candidate_gains _ k m _ timeout
  · exact (Node.leader_gains (hready p) heartbeat expired _).mono (hbrings source)

/-- What an event does: one node gains at most one entry, and what was under way may have
become less. -/
theorem exec_gains (hready : s.Ready) (hs : s.exec e = some s') :
    ∃ p nd, ∃ taken : Cluster n V, taken.Fewer s ∧
      (s.nodes p).Gains (fun entry => s.newEntry e = some entry) nd ∧
      (s' = (taken.setNode p nd).publish p ∨ s' = taken.setNode p nd) := by
  cases hiteration : s.iteration e with
  | some x =>
    obtain ⟨p, nd⟩ := x
    obtain ⟨taken, htaken, rfl⟩ := exec_taken hs hiteration
    exact ⟨p, nd, taken, htaken.toFewer, iteration_gains hready hs hiteration, .inl rfl⟩
  | none =>
    obtain ⟨p, rfl, -, -⟩ | ⟨p, source, timeout, taken, incoming, rfl, -, -, -, -⟩ |
      ⟨p, source, timeout, taken, incoming, k, m, rfl, hloop, -, -, -⟩ |
      ⟨p, heartbeat, expired, source, taken, incoming, rfl, -, -, -, -⟩ |
      ⟨p, value, idNum, rfl, rfl⟩ | ⟨p, rfl, rfl⟩ | ⟨p, rfl, rfl⟩ | ⟨src, dst, i, rfl, rfl⟩ :=
      exec_cases hs
    · simp [iteration] at hiteration
    · simp [iteration] at hiteration
    · simp [iteration, hloop] at hiteration
    · simp [iteration] at hiteration
    · refine ⟨p, (s.nodes p).clientRequest value idNum, s, .refl,
        .of_held (fun entry he => ?_) rfl, .inr rfl⟩
      simp only [Node.held, Node.clientRequest, ← List.append_assoc] at he
      exact (List.mem_append.mp he).imp_right fun he => by rw [List.mem_singleton.mp he]; rfl
    · exact ⟨p, (s.nodes p).pause, s, .refl, .of_eq rfl rfl rfl, .inr rfl⟩
    · refine ⟨p, (s.nodes p).unPause, s, .refl, ?_, .inr rfl⟩
      unfold Node.unPause
      split
      · exact .of_eq rfl rfl rfl
      · exact .refl
    · refine ⟨src, s.nodes src, _, lose_fewer src dst i, .refl, .inr ?_⟩
      exact (setNode_self (s := { s with net := s.net.lose src dst i })).symm

theorem exec_held (hready : s.Ready) (hs : s.exec e = some s') (q : Fin n) :
    ∀ entry ∈ (s'.nodes q).held, entry ∈ (s.nodes q).held ∨ s.newEntry e = some entry := by
  obtain ⟨p, nd, taken, hfewer, hgains, hcases⟩ := exec_gains hready hs
  have hheld : (s'.nodes q).held = if q = p then nd.held else (s.nodes q).held := by
    split
    · rename_i hq
      subst hq
      rcases hcases with rfl | rfl
      · rw [publish_nodes_self, setNode_nodes_self]
        rfl
      · rw [setNode_nodes_self]
    · rename_i hq
      rcases hcases with rfl | rfl
      · rw [publish_nodes_of_ne hq, setNode_nodes_of_ne hq, hfewer.nodes]
      · rw [setNode_nodes_of_ne hq, hfewer.nodes]
  intro entry he
  rw [hheld] at he
  split at he
  · rename_i hq
    subst hq
    exact hgains.held entry he
  · exact .inl he

/-- Every entry that a node holds or that is under way is in `K`. -/
structure Holds (K : Entry V → Prop) (s : Cluster n V) : Prop where
  nodes : ∀ p, ∀ e ∈ (s.nodes p).held, K e
  inflight : ∀ p q, ∀ packet ∈ s.inflight p q, ∀ e, packet.message.carried = some e → K e

variable {K : Entry V → Prop}

theorem newEntry_cases {entry : Entry V} (h : s.newEntry e = some entry) :
    (∃ p, e = .run p ∧ entry = (s.nodes p).noop) ∨
    (∃ p value idNum, e = .clientRequest p value idNum) ∨
    ∃ p q, ∃ packet ∈ s.net p q, packet.message.carried = some entry := by
  have hreceived : ∀ p source,
      ((s.received p source).bind fun m => m.2.carried) = some entry →
      ∃ p q, ∃ packet ∈ s.net p q, packet.message.carried = some entry := by
    intro p source hbrought
    obtain ⟨m, hm, hcarried⟩ := Option.bind_eq_some_iff.mp hbrought
    obtain ⟨q, -, hm⟩ := Option.bind_eq_some_iff.mp hm
    obtain ⟨packet, hpacket, rfl⟩ := Option.map_eq_some_iff.mp hm
    exact ⟨q, p, packet, List.mem_of_mem_head? hpacket, hcarried⟩
  cases e with
  | run p => exact .inl ⟨p, rfl, (Option.some.inj h).symm⟩
  | follower p source timeout => exact .inr (.inr (hreceived p source h))
  | candidate p source timeout => exact .inr (.inr (hreceived p source h))
  | leader p heartbeat expired source => exact .inr (.inr (hreceived p source h))
  | clientRequest p value idNum => exact .inr (.inl ⟨p, value, idNum, rfl⟩)
  | _ => simp [newEntry, incoming] at h

/-- Where clients submit nothing and the first entries of leaders are in `K`, everything
stays in `K`. -/
theorem Holds.exec (h : s.Holds K) (hready : s.Ready) (hs : s.exec e = some s')
    (hnoop : ∀ p, K (s.nodes p).noop)
    (hcall : ∀ p value idNum, e ≠ .clientRequest p value idNum) : s'.Holds K := by
  have hnew : ∀ entry, s.newEntry e = some entry → K entry := by
    intro entry hentry
    obtain ⟨p, -, rfl⟩ | ⟨p, value, idNum, hcalled⟩ | ⟨p, q, packet, hpacket, hcarried⟩ :=
      newEntry_cases hentry
    · exact hnoop p
    · exact absurd hcalled (hcall p value idNum)
    · exact h.inflight p q packet (mem_inflight_of_net hpacket) entry hcarried
  constructor
  · intro p entry he
    exact (exec_held hready hs p entry he).elim (h.nodes p entry) (hnew entry)
  · obtain ⟨p, nd, taken, hfewer, hgains, hcases⟩ := exec_gains hready hs
    intro a b packet hpacket entry hcarried
    have hpacket' : packet ∈ (taken.setNode p nd).inflight a b := by
      rcases hcases with rfl | rfl
      · rwa [inflight_publish] at hpacket
      · exact hpacket
    obtain ⟨out, htalker, hout⟩ := hgains.talker
    rw [← congrFun hfewer.nodes p] at htalker
    rcases mem_inflight_setNode out htalker hpacket' with hmem | ⟨rfl, receiver, -, hmem⟩
    · exact h.inflight a b packet ((hfewer.inflight a b).subset hmem) entry hcarried
    · exact (hout _ hmem entry hcarried).elim (h.nodes a entry) (hnew entry)

end Cluster

/-! ## Values that change in place -/

section Revalue

variable {f : V → V}

@[simp] theorem Node.held_mapEntries (nd : Node n V) :
    (nd.mapEntries f).held = nd.held.map (Entry.map f) := by
  simp [Node.held, Node.mapEntries]

theorem Message.carried_map (message : Message n V) :
    (message.map f).carried = message.carried.map (Entry.map f) := by
  cases message <;> rfl

/-- What is carried after a change of values was carried before. -/
theorem carried_of_mem_map {packets : List (Packet n V)} {packet : Packet n V} {e : Entry V}
    (hpacket : packet ∈ packets.map (Packet.map f)) (he : packet.message.carried = some e) :
    ∃ packet₀ ∈ packets, ∃ e₀, packet₀.message.carried = some e₀ ∧ e = e₀.map f := by
  obtain ⟨packet₀, hpacket₀, rfl⟩ := List.mem_map.mp hpacket
  have hcarried := packet₀.message.carried_map (f := f)
  obtain ⟨e₀, he₀, rfl⟩ := Option.map_eq_some_iff.mp (hcarried.symm.trans he)
  exact ⟨packet₀, hpacket₀, e₀, he₀, rfl⟩

theorem Cluster.Holds.revalue {s : Cluster n V} {K K' : Entry V → Prop} {f : Fin n → V → V}
    {g : V → V} (h : s.Holds K) (hdrained : s.Drained) (hf : ∀ p e, K e → K' (e.map (f p)))
    (hg : ∀ e, K e → K' (e.map g)) : (s.revalue f g).Holds K' := by
  constructor
  · intro p e he
    obtain ⟨e₀, he₀, rfl⟩ := List.mem_map.mp ((Node.held_mapEntries _) ▸ he)
    exact hf p e₀ (h.nodes p e₀ he₀)
  · intro p q packet hpacket e he
    rw [inflight_revalue hdrained] at hpacket
    obtain ⟨packet₀, hpacket₀, e₀, he₀, rfl⟩ := carried_of_mem_map hpacket he
    exact hg e₀ (h.inflight p q packet₀ hpacket₀ e₀ he₀)

end Revalue

end DreamboatRpc.Raft
