import DreamboatRpc.Raft.Quiet

/-!
# Iterations under one stable leader

What an iteration of each loop does to the log, the client queue and the messages under
way, where one node takes office once and keeps it and no message is lost.

## Main definitions

* `stableLeader` — no other node takes office, the leader does not step down, and no
  message is lost
* `ElectionFrame` — an iteration that is about elections only
* `OfficeFrame` — an iteration of the leader, with the entries it appends

## Main results

* `followerMessage_election`, `candidate_election` — what is about elections only
* `followerHeartbeat_forward` — a follower forwards its client queue, entry by entry
* `leader_office` — an iteration of the leader appends the client request it is given, and
  then the oldest one of its own queue
-/

namespace DreamboatRpc.Raft

open CS FifoNetwork

variable {n : ℕ} {V : Type*}

/-- A message that asks for votes, or a vote. -/
def Message.isElection : Message n V → Bool
  | .requestVotes _ _ _ | .vote _ _ => true
  | _ => false

/-- The thread of a node is in `_leader`, or ended there. -/
def Node.Led (nd : Node n V) : Prop := nd.loop = .leader ∨ nd.loop = .crashed

/-- Node `ℓ` is the only one that takes office, it does not step down and is not paused, and
no message is lost. -/
def stableLeader (ℓ : Fin n) (s : Cluster n V) : Event n V → Bool
  | .run p => (s.nodes p).currentRole != .leader || p == ℓ
  | .leader p _ _ source =>
    match (s.taken p source).map Packet.message with
    | some (.requestVotes term _ _) => !decide (term > (s.nodes p).currentTerm)
    | _ => true
  | .pause p | .unPause p => p != ℓ
  | .lose _ _ _ => false
  | _ => true

/-! ## Elections -/

/-- `nd'` has the log and the client queue of `nd`, does not lead, and has sent requests
for votes and votes only. -/
structure ElectionFrame (nd nd' : Node n V) : Prop where
  myId : nd'.myId = nd.myId
  log : nd'.log = nd.log
  clientQueue : nd'.clientQueue = nd.clientQueue
  led : ¬ nd'.Led
  talker : ∃ out, nd'.talker = nd.talker ++ out ∧ ∀ m ∈ out, m.2.message.isElection = true

section Election

variable {nd nd' : Node n V}

theorem ElectionFrame.of_talker (hid : nd'.myId = nd.myId) (hlog : nd'.log = nd.log)
    (hqueue : nd'.clientQueue = nd.clientQueue) (hled : ¬ nd'.Led)
    (htalker : nd'.talker = nd.talker) : ElectionFrame nd nd' :=
  ⟨hid, hlog, hqueue, hled, [], by simp [htalker], by simp⟩

theorem ElectionFrame.of_send {receiver : Option (Fin n)} {message : Message n V}
    (htalker : nd'.talker = nd.talker ++ [(receiver, ⟨message, nd.incomingMessage⟩)])
    (hmessage : message.isElection = true) (hid : nd'.myId = nd.myId)
    (hlog : nd'.log = nd.log) (hqueue : nd'.clientQueue = nd.clientQueue) (hled : ¬ nd'.Led) :
    ElectionFrame nd nd' := by
  refine ⟨hid, hlog, hqueue, hled, _, htalker, fun m hm => ?_⟩
  rw [List.mem_singleton.mp hm]
  exact hmessage

/-- Giving up a loop changes nothing else. -/
theorem exitLoop_election (nd : Node n V) : ElectionFrame nd { nd with loop := .run } :=
  .of_talker rfl rfl rfl (by simp [Node.Led]) rfl

theorem enterCandidate_election (nd : Node n V) : ElectionFrame nd nd.enterCandidate := by
  refine ⟨rfl, rfl, rfl, by simp [Node.Led, Node.enterCandidate], ?_⟩
  refine ⟨[(none, ⟨.requestVotes (nd.currentTerm + 1) nd.lastAppliedIndex nd.lastAppliedTerm,
    nd.incomingMessage⟩), (some nd.myId, ⟨.vote (nd.currentTerm + 1) true,
    nd.incomingMessage⟩)], ?_, ?_⟩
  · simp [Node.enterCandidate, Node.sendVote, Node.sendMessage, Node.sendRequestVote,
      Node.incrementTerm]
  · simp [Message.isElection]

theorem followerRequestVotes_election (hled : ¬ nd.Led) (q : Fin n) (t i u : ℕ) :
    ElectionFrame nd (nd.followerRequestVotes q t i u) := by
  unfold Node.followerRequestVotes
  by_cases ht : t > nd.currentTerm
  · simp only [if_pos ht]
    split
    · exact .of_send rfl rfl rfl rfl rfl hled
    · exact .of_send rfl rfl rfl rfl rfl hled
  · simp only [if_neg ht]
    split
    · exact .of_send rfl rfl rfl rfl rfl hled
    · exact .of_send rfl rfl rfl rfl rfl hled

/-- `nd'` is the follower `nd` after a heartbeat of `l`: the oldest entry of its client queue
is on its way to `l`. -/
structure ForwardFrame (nd nd' : Node n V) (l : Fin n) : Prop where
  myId : nd'.myId = nd.myId
  log : nd'.log = nd.log
  loop : nd'.loop = nd.loop
  forwarded : (nd'.clientQueue = nd.clientQueue ∧ nd'.talker = nd.talker) ∨
    ∃ t entry cause, nd.clientQueue = entry :: nd'.clientQueue ∧
      nd'.talker = nd.talker ++ [(some l, ⟨.clientRequest t entry, cause⟩)]

theorem followerHeartbeat_forward (nd : Node n V) (t : ℕ) (l : Fin n) :
    ForwardFrame nd (nd.followerHeartbeat t l) l := by
  unfold Node.followerHeartbeat Node.forwardClientRequest
  by_cases ht : t > nd.currentTerm
  · simp only [if_pos ht]
    split
    · exact ⟨rfl, rfl, rfl, .inl ⟨rfl, rfl⟩⟩
    · rename_i entry rest hqueue
      exact ⟨rfl, rfl, rfl, .inr ⟨_, entry, _, hqueue, rfl⟩⟩
  · simp only [if_neg ht]
    split
    · exact ⟨rfl, rfl, rfl, .inl ⟨rfl, rfl⟩⟩
    · rename_i entry rest hqueue
      exact ⟨rfl, rfl, rfl, .inr ⟨_, entry, _, hqueue, rfl⟩⟩

/-- A follower that is not given a heartbeat or an entry does nothing but vote. -/
theorem followerMessage_election (hled : ¬ nd.Led) (q : Fin n) {message : Message n V}
    (hheartbeat : ∀ t l, message ≠ .heartbeat t l)
    (hentry : ∀ t l k u e c, message ≠ .appendEntries t l k u e c) :
    ElectionFrame nd (nd.followerMessage q message) := by
  cases message with
  | requestVotes t i u => exact followerRequestVotes_election hled q t i u
  | heartbeat t l => exact absurd rfl (hheartbeat t l)
  | appendEntries t l k u e c => exact absurd rfl (hentry t l k u e c)
  | _ => exact .of_talker rfl rfl rfl hled rfl

/-- The answer of a follower to an entry. -/
theorem followerAppendEntries_talker (nd : Node n V) (t : ℕ) (l : Fin n) (k u : ℕ)
    (e : Entry V) (c : ℕ) : ∃ success, (nd.followerAppendEntries t l k u e c).talker =
      nd.talker ++ [(some l, ⟨.acknowledge nd.currentTerm success, nd.incomingMessage⟩)] := by
  simp only [Node.followerAppendEntries, Node.appendEntry, Node.cutLog]
  split
  · refine ⟨true, ?_⟩
    split <;> rfl
  · exact ⟨false, rfl⟩

/-- The end of an iteration of `_follower`, with its timeout. -/
theorem followerTimeout_election (hled : ¬ nd.Led) (timeout : Bool) : ElectionFrame nd
    (if timeout then { nd with currentRole := .candidate, loop := .run } else nd) := by
  split
  · exact .of_talker rfl rfl rfl (by simp [Node.Led]) rfl
  · exact .of_talker rfl rfl rfl hled rfl

theorem candidateMessage_election (hled : ¬ nd.Led) (k m : ℕ) (q : Fin n)
    (message : Message n V) : ElectionFrame nd (nd.candidateMessage k m q message) := by
  cases message with
  | vote t granted =>
    simp only [Node.candidateMessage, Node.candidateVote]
    generalize (if granted then k + 1 else k) = k'
    split
    · exact .of_talker rfl rfl rfl (by simp [Node.Led]) rfl
    · exact .of_talker rfl rfl rfl (by simp [Node.Led]) rfl
  | requestVotes t i u =>
    simp only [Node.candidateMessage]
    split
    · exact .of_send rfl rfl rfl rfl rfl (by simp [Node.Led, Node.yieldTo])
    · exact .of_talker rfl rfl rfl hled rfl
  | heartbeat t l =>
    simp only [Node.candidateMessage]
    split
    · exact .of_talker rfl rfl rfl (by simp [Node.Led]) rfl
    · exact .of_talker rfl rfl rfl hled rfl
  | _ => exact .of_talker rfl rfl rfl hled rfl

/-- Whatever a candidate is given, its log and its client queue stay. -/
theorem candidate_election (hled : ¬ nd.Led) (k m : ℕ)
    (incoming : Option (Fin n × Message n V)) (timeout : Bool) :
    ElectionFrame nd (nd.candidate k m incoming timeout) := by
  have hmessage :
      ElectionFrame nd (nd.receive (fun nd => nd.candidateMessage k m) incoming) := by
    cases incoming with
    | none => exact .of_talker rfl rfl rfl hled rfl
    | some x =>
      set held : Node n V := { nd with incomingMessage := some x.2 }
      have hheld : ¬ held.Led := hled
      obtain ⟨hid, hlog, hqueue, hled', htalker⟩ := candidateMessage_election hheld k m x.1 x.2
      exact ⟨hid, hlog, hqueue, hled', htalker⟩
  unfold Node.candidate
  split
  · simp only
    split
    · exact ⟨hmessage.myId, hmessage.log, hmessage.clientQueue, by simp [Node.Led],
        hmessage.talker⟩
    · exact hmessage
  · exact exitLoop_election nd

end Election

/-! ## The leader -/

/-- What a leader with the given log sends: entries that are where they say in its log, and
heartbeats in its own name. -/
def Message.BackedBy (log : List (Entry V)) (id : Fin n) : Message n V → Prop
  | .appendEntries _ _ prevLogIndex _ entries _ => log[prevLogIndex + 1]? = some entries
  | .heartbeat _ leaderId => leaderId = id
  | .clientRequest _ _ => False
  | _ => True

/-- `nd'` is the leader `nd` after it has appended the entries `new`. -/
structure OfficeFrame (nd nd' : Node n V) (new : List (Entry V)) : Prop where
  myId : nd'.myId = nd.myId
  currentRole : nd'.currentRole = nd.currentRole
  log : nd'.log = nd.log ++ new
  clientQueue : nd'.clientQueue = nd.clientQueue
  loop : nd'.loop = nd.loop ∨ nd'.loop = .crashed
  talker : ∃ out, nd'.talker = nd.talker ++ out ∧
    ∀ m ∈ out, m.2.message.BackedBy nd'.log nd'.myId

section Office

variable {nd nd' nd'' : Node n V} {new new' : List (Entry V)}

theorem Message.BackedBy.mono {log log' : List (Entry V)} {id : Fin n} {message : Message n V}
    (h : message.BackedBy log id) (hlog : log <+: log') : message.BackedBy log' id := by
  cases message with
  | appendEntries t l k u e c =>
    obtain ⟨rest, rfl⟩ := hlog
    simp only [Message.BackedBy] at h ⊢
    rw [List.getElem?_append_left (List.getElem?_eq_some_iff.mp h).1]
    exact h
  | _ => exact h

theorem OfficeFrame.of_talker (hid : nd'.myId = nd.myId)
    (hrole : nd'.currentRole = nd.currentRole) (hlog : nd'.log = nd.log ++ new)
    (hqueue : nd'.clientQueue = nd.clientQueue) (hloop : nd'.loop = nd.loop ∨ nd'.loop = .crashed)
    (htalker : nd'.talker = nd.talker) : OfficeFrame nd nd' new :=
  ⟨hid, hrole, hlog, hqueue, hloop, [], by simp [htalker], by simp⟩

theorem sendMessage_office {receiver : Option (Fin n)} {message : Message n V}
    (h : message.BackedBy nd.log nd.myId) :
    OfficeFrame nd (nd.sendMessage receiver message) [] := by
  refine ⟨rfl, rfl, by simp [Node.sendMessage], rfl, .inl rfl, _, rfl, fun m hm => ?_⟩
  rw [List.mem_singleton.mp hm]
  exact h

theorem OfficeFrame.trans (h : OfficeFrame nd nd' new) (h' : OfficeFrame nd' nd'' new') :
    OfficeFrame nd nd'' (new ++ new') := by
  obtain ⟨out, hout, hbacked⟩ := h.talker
  obtain ⟨out', hout', hbacked'⟩ := h'.talker
  refine ⟨h'.myId.trans h.myId, h'.currentRole.trans h.currentRole,
    by rw [h'.log, h.log, List.append_assoc], h'.clientQueue.trans h.clientQueue, ?_,
    out ++ out', by rw [hout', hout, List.append_assoc], fun m hm => ?_⟩
  · rcases h'.loop with heq | hcrash
    · rw [heq]
      exact h.loop
    · exact .inr hcrash
  · rcases List.mem_append.mp hm with hm | hm
    · rw [h'.myId]
      exact (hbacked m hm).mono (by rw [h'.log]; exact List.prefix_append _ _)
    · exact hbacked' m hm

/-- The operations of a leader other than appending. -/
theorem leaderOps_office {C : Fin n → ℕ → Prop}
    (hops : Node.LeaderOps (fun _ => False) C nd nd') : OfficeFrame nd nd' [] := by
  induction hops with
  | refl => exact .of_talker rfl rfl (by simp) rfl (.inl rfl) rfl
  | @tail nd₁ nd₂ _ hop ih =>
    have hop' : OfficeFrame nd₁ nd₂ [] := by
      cases hop with
      | heartbeat => exact sendMessage_office rfl
      | sendEntry node index prev entry hprev hentry => exact sendMessage_office hentry
      | crash => exact .of_talker rfl rfl (by simp) rfl (.inr rfl) rfl
      | committal => exact sendMessage_office trivial
      | append entry hentry => exact hentry.elim
      | commit => exact .of_talker rfl rfl (by simp [Node.commitEntry]) rfl (.inl rfl) rfl
      | _ => exact .of_talker rfl rfl (by simp) rfl (.inl rfl) rfl
    exact ih.trans hop'

theorem appended_office (nd : Node n V) (entry : Entry V) :
    OfficeFrame nd (nd.appended entry) [entry] :=
  .of_talker rfl rfl rfl rfl (.inl rfl) rfl

/-- A broadcast appends its entry. -/
theorem broadcastAppendEntries_office (hready : nd.Ready) (entry : Entry V) :
    OfficeFrame nd (nd.broadcastAppendEntries entry) [entry] := by
  obtain ⟨prev, hprev, hterm⟩ := Node.getElem?_logMaxIndex hready.log
  have hlen : nd.logMaxIndex + 1 = nd.log.length :=
    Nat.sub_add_cancel (List.length_pos_iff.mpr hready.log)
  have hready' : (nd.appended entry).Ready := ⟨by simp [Node.appended], hready.nextIndex⟩
  have hprev' : (nd.appended entry).log[nd.logMaxIndex]? = some prev := by
    simp only [Node.appended]
    rw [List.getElem?_append_left (by omega)]
    exact hprev
  have hentry' : (nd.appended entry).log[nd.logMaxIndex + 1]? = some entry := by
    simp [Node.appended, hlen]
  have hloop : Node.LeaderOps (fun _ => False) (fun _ _ => True) (nd.appended entry) _ :=
    Node.offerEntry_foldl_ops hready' hprev' hentry' (List.finRange n)
  have hend := Node.updateOwnIndices_ops (O := fun _ => False) (C := fun _ _ => True)
    (hready'.ops hloop)
  rw [hterm] at hloop hend
  exact (appended_office nd entry).trans (leaderOps_office (hloop.trans hend))

/-- An iteration of the leader, where it is not given a request of a higher term and does
not end before it reads its message. -/
theorem leader_office (hrole : nd.currentRole = .leader) (hready : nd.Ready)
    (heartbeat : Bool) (expired : Fin n → Bool) (incoming : Option (Fin n × Message n V))
    (hsends : incoming ≠ none → (nd.leaderSends heartbeat expired).loop = .leader)
    (hstay : ∀ q t i u, incoming = some (q, .requestVotes t i u) → t ≤ nd.currentTerm) :
    ∃ nd₁, OfficeFrame nd nd₁ (incoming.bind fun m => m.2.request).toList ∧ nd₁.Ready ∧
      (nd.leader heartbeat expired incoming = nd₁ ∨
      ∃ entry rest, nd₁.clientQueue = entry :: rest ∧ nd₁.loop = .leader ∧
        nd.leader heartbeat expired incoming =
          { nd₁ with clientQueue := rest }.broadcastAppendEntries entry) := by
  have hops₀ : Node.LeaderOps (fun _ => False) (fun _ _ => True) nd
      (nd.leaderSends heartbeat expired) := Node.leaderSends_ops hready heartbeat expired
  obtain ⟨talker₀, loop₀, hsame₀⟩ := Node.leaderSends_eq nd heartbeat expired
  have hframe₀ := leaderOps_office hops₀
  have hready₀ := hready.ops hops₀
  unfold Node.leader
  rw [if_pos hrole]
  set nd₀ := nd.leaderSends heartbeat expired with hnd₀
  -- after the message comes the client queue
  have hend : ∀ nd₁ : Node n V,
      (if nd₁.loop = .leader then nd₁.leaderClientRequest else nd₁) = nd₁ ∨
      ∃ entry rest, nd₁.clientQueue = entry :: rest ∧ nd₁.loop = .leader ∧
        (if nd₁.loop = .leader then nd₁.leaderClientRequest else nd₁) =
          { nd₁ with clientQueue := rest }.broadcastAppendEntries entry := by
    intro nd₁
    split
    · rename_i hloop
      unfold Node.leaderClientRequest
      split
      · exact .inl rfl
      · rename_i entry rest hqueue
        exact .inr ⟨entry, rest, hqueue, hloop, rfl⟩
    · exact .inl rfl
  simp only
  cases incoming with
  | none =>
    refine ⟨nd₀, hframe₀, hready₀, ?_⟩
    split
    · exact hend nd₀
    · exact .inl rfl
  | some m =>
    obtain ⟨q, message⟩ := m
    rw [if_pos (hsends (by simp))]
    set held : Node n V := { nd₀ with incomingMessage := some message } with hheld
    have hhold : OfficeFrame nd held [] :=
      hframe₀.trans (.of_talker rfl rfl (by simp [hheld]) rfl (.inl rfl) rfl)
    have hreadyHeld : held.Ready := hready₀.congr rfl rfl
    have hreceive : nd₀.receive Node.leaderMessage (some (q, message)) =
        held.leaderMessage q message := rfl
    simp only [hreceive, Option.bind_some]
    cases message with
    | clientRequest t e =>
      have hbroadcast := broadcastAppendEntries_office hreadyHeld e
      have hready₁ : (held.broadcastAppendEntries e).Ready :=
        hreadyHeld.broadcastAppendEntries e
      exact ⟨_, hhold.trans hbroadcast, hready₁, hend _⟩
    | requestVotes t i u =>
      -- the term is not higher, so the request is ignored
      have hignored : held.leaderMessage q (.requestVotes t i u) = held := by
        have hle := hstay q t i u rfl
        have hnot : ¬ t > held.currentTerm := by
          simp only [hheld, hsame₀]
          omega
        simp only [Node.leaderMessage, if_neg hnot]
      rw [hignored]
      exact ⟨held, hhold, hreadyHeld, hend held⟩
    | acknowledge t success =>
      have hack : Node.LeaderOps (fun _ => False) (fun _ _ => True) held
          (held.leaderAcknowledge q success) :=
        Node.leaderAcknowledge_ops hreadyHeld fun _ _ _ => trivial
      exact ⟨_, hhold.trans (leaderOps_office hack), hreadyHeld.ops hack, hend _⟩
    | _ => exact ⟨held, hhold, hreadyHeld, hend held⟩

/-- Taking office appends the first entry of the leader. -/
theorem enterLeader_office [EmptyCollection V] (hready : nd.Ready) :
    ∃ nd₁, OfficeFrame nd nd₁ [nd.noop] ∧ nd.enterLeader = { nd₁ with loop := .leader } := by
  have hbegin : OfficeFrame nd nd.inaugurated [] := by
    have hheartbeat : OfficeFrame nd nd.sendHeartbeat [] := sendMessage_office rfl
    exact hheartbeat.trans (.of_talker rfl rfl (by simp [Node.inaugurated]) rfl (.inl rfl) rfl)
  exact ⟨_, hbegin.trans (broadcastAppendEntries_office hready.inaugurated nd.noop),
    Node.enterLeader_eq nd⟩

end Office

end DreamboatRpc.Raft
