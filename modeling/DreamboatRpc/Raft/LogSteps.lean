import DreamboatRpc.Raft.Discipline

/-!
# What an iteration does to the log

For statements about logs alone, without what nodes have acknowledged. `LogStep` lists
what an iteration does to the log of a node and which entries it offers to others: a node
keeps its log, accepts an entry, or appends entries as a leader.

## Main definitions

* `Message.OffersFrom` — the entry a message offers, and its predecessor, are in a log
* `LogStep` — what an iteration does to the log

## Main results

* `iteration_logStep` — every iteration is such a step, if leaders append entries of their
  own term only
-/

namespace DreamboatRpc.Raft

open CS FifoNetwork

variable {n : ℕ} {V : Type*}

/-- What the message offers, if it offers an entry, is from the log of the leader of `t`. -/
def Message.OffersFrom (log : List (Entry V)) (t : ℕ) : Message n V → Prop
  | .appendEntries term _ k u e _ => term = t ∧ (log[k]?).map Entry.term = some u ∧
      log[k + 1]? = some e
  | _ => True

/-- The message offers no entry. -/
def Message.OffersNothing (message : Message n V) : Prop :=
  ∀ log t, message.OffersFrom log t

theorem Message.offersNothing_of_isPlain {message : Message n V} (h : message.isPlain = true) :
    message.OffersNothing := by
  intro log t
  cases message with
  | appendEntries => simp [Message.isPlain] at h
  | _ => trivial

theorem Message.OffersFrom.extend {log log' : List (Entry V)} {t : ℕ} {message : Message n V}
    (h : message.OffersFrom log t) (hlog : log <+: log') : message.OffersFrom log' t := by
  cases message with
  | appendEntries term l k u e c =>
    obtain ⟨hterm, hprev, he⟩ := h
    obtain ⟨prev, hprev', rfl⟩ := Option.map_eq_some_iff.mp hprev
    refine ⟨hterm, ?_, Archive.getElem?_of_extended hlog he⟩
    rw [Archive.getElem?_of_extended hlog hprev']
    rfl
  | _ => trivial

/-- `nd'` has sent what `nd` has, and then messages in `P`. -/
def Sent (P : Message n V → Prop) (nd nd' : Node n V) : Prop :=
  ∃ out, nd'.talker = nd.talker ++ out ∧ ∀ m ∈ out, P m.2.message

section Sent

variable {nd nd' nd'' : Node n V} {P Q : Message n V → Prop}

theorem Sent.refl : Sent P nd nd := ⟨[], by simp, by simp⟩

theorem Sent.of_eq (h : nd'.talker = nd.talker) : Sent P nd nd' := ⟨[], by simp [h], by simp⟩

theorem Sent.trans (h : Sent P nd nd') (h' : Sent P nd' nd'') : Sent P nd nd'' := by
  obtain ⟨out, hout, hP⟩ := h
  obtain ⟨out', hout', hP'⟩ := h'
  refine ⟨out ++ out', by rw [hout', hout, List.append_assoc], fun m hm => ?_⟩
  exact (List.mem_append.mp hm).elim (hP m) (hP' m)

theorem Sent.mono (h : Sent P nd nd') (hPQ : ∀ message, P message → Q message) :
    Sent Q nd nd' := by
  obtain ⟨out, hout, hP⟩ := h
  exact ⟨out, hout, fun m hm => hPQ _ (hP m hm)⟩

theorem Sent.of_send {receiver : Option (Fin n)} {packet : Packet n V}
    (htalker : nd'.talker = nd.talker ++ [(receiver, packet)]) (h : P packet.message) :
    Sent P nd nd' := by
  refine ⟨_, htalker, fun m hm => ?_⟩
  rw [List.mem_singleton.mp hm]
  exact h

theorem Sent.send {receiver : Option (Fin n)} {message : Message n V} (h : P message) :
    Sent P nd (nd.sendMessage receiver message) :=
  .of_send rfl h

theorem LogFrame.sent (h : LogFrame nd nd') : Sent Message.OffersNothing nd nd' := by
  obtain ⟨out, hout, hplain⟩ := h.talker
  exact ⟨out, hout, fun m hm => Message.offersNothing_of_isPlain (hplain m hm)⟩

end Sent

/-- What an iteration that has read `incoming` does to the log. -/
inductive LogStep (incoming : Option (Fin n × Message n V)) (nd nd' : Node n V) : Prop
  | keep : nd'.log = nd.log → Sent Message.OffersNothing nd nd' → LogStep incoming nd nd'
  /-- A follower accepts an entry behind one it has. -/
  | accept {q l : Fin n} {t k u c : ℕ} {e : Entry V} :
      incoming = some (q, .appendEntries t l k u e c) →
      (nd.log[k]?).map Entry.term = some u → nd'.log = nd.log.take (k + 1) ++ [e] →
      nd'.currentRole ≠ .leader → Sent Message.OffersNothing nd nd' → LogStep incoming nd nd'
  /-- A leader appends entries of its own term. -/
  | append {new : List (Entry V)} : nd.currentRole = .leader → nd'.log = nd.log ++ new →
      (∀ e ∈ new, e.term = nd.currentTerm) →
      Sent (Message.OffersFrom nd'.log nd.currentTerm) nd nd' → LogStep incoming nd nd'

section Loops

variable {incoming : Option (Fin n × Message n V)} {nd nd' nd₁ : Node n V}

theorem LogFrame.logStep (h : LogFrame nd nd') : LogStep incoming nd nd' :=
  .keep h.log h.sent

/-- The timer of an election expires. -/
theorem LogStep.timeout (h : LogStep incoming nd nd') :
    LogStep incoming nd { nd' with currentRole := .candidate, loop := .run } := by
  cases h with
  | keep hlog hsent => exact .keep hlog hsent
  | accept hheard hprev hlog _ hsent => exact .accept hheard hprev hlog (by simp) hsent
  | append hrole hlog hnew hsent => exact .append hrole hlog hnew hsent

theorem followerMessage_logStep (hrole : nd.currentRole = .follower) (q : Fin n)
    (message : Message n V) :
    LogStep (some (q, message)) nd (nd.followerMessage q message) := by
  have hne : nd.currentRole ≠ .leader := by simp [hrole]
  cases message with
  | requestVotes t i u => exact (followerRequestVotes_quiet hrole q t i u).toLogFrame.logStep
  | heartbeat t l => exact (followerHeartbeat_quiet hrole t l).toLogFrame.logStep
  | appendEntries t l k u e c =>
    simp only [Node.followerMessage, Node.followerAppendEntries]
    split
    · rename_i haccept
      obtain ⟨prev, hprev, hterm⟩ := Node.term_of_acceptsAppendEntries haccept
      -- the log is cut behind the predecessor, with or without a commit
      have hsame : ∀ b, ((nd.appendEntry e b (some k)).1).log = nd.log.take (k + 1) ++ [e] ∧
          ((nd.appendEntry e b (some k)).1).currentRole = nd.currentRole ∧
          ((nd.appendEntry e b (some k)).1).talker = nd.talker := by
        intro b
        simp only [Node.appendEntry, Node.cutLog]
        split <;> exact ⟨rfl, rfl, rfl⟩
      obtain ⟨hlog, hrole', htalker⟩ := hsame (decide (c > nd.commitIndex))
      refine .accept rfl (by rw [hprev, Option.map_some, hterm]) hlog ?_ ?_
      · rw [← hrole'] at hne
        exact hne
      · exact (Sent.of_eq htalker).trans (.send fun _ _ => trivial)
    · exact .keep rfl (.send fun _ _ => trivial)
  | _ => exact .keep rfl .refl

theorem follower_logStep (incoming : Option (Fin n × Message n V)) (timeout : Bool) :
    LogStep incoming nd (nd.follower incoming timeout) := by
  unfold Node.follower
  split
  · rename_i hrole
    have hmessage : LogStep incoming nd (nd.receive Node.followerMessage incoming) := by
      cases incoming with
      | none => exact .keep rfl .refl
      | some x =>
        set held : Node n V := { nd with incomingMessage := some x.2 }
        have hrole' : held.currentRole = .follower := hrole
        cases followerMessage_logStep hrole' x.1 x.2 with
        | keep hlog hsent => exact .keep hlog hsent
        | accept hheard hprev hlog hne hsent => exact .accept hheard hprev hlog hne hsent
        -- a follower appends nothing of its own
        | append hlead _ _ _ => simp [hrole'] at hlead
    simp only
    split
    · exact hmessage.timeout
    · exact hmessage
  · exact .keep rfl .refl

theorem candidate_logStep (k m : ℕ) (incoming : Option (Fin n × Message n V)) (timeout : Bool) :
    LogStep incoming nd (nd.candidate k m incoming timeout) := by
  by_cases hrole : nd.currentRole = .candidate
  · rcases candidate_cases hrole k m incoming timeout with hquiet | hwin
    · exact hquiet.toLogFrame.logStep
    · exact .keep hwin.log (.of_eq hwin.talker)
  · unfold Node.candidate
    rw [if_neg hrole]
    exact .keep rfl .refl

/-! ## Leaders -/

/-- The operations of a leader offer what is in its log. -/
theorem LeaderOps.sent {O : Entry V → Prop} {C : Fin n → ℕ → Prop}
    (hops : Node.LeaderOps O C nd nd') :
    Sent (Message.OffersFrom nd'.log nd.currentTerm) nd nd' := by
  -- by operations: an entry is sent with its index and its predecessor
  induction hops with
  | refl => exact .refl
  | tail hbefore hop ih =>
    have hterm := Node.LeaderOps.currentTerm hbefore
    cases hop with
    | append entry _ => exact ih.mono fun _ h => h.extend (List.prefix_append _ _)
    | sendEntry node index prev entry hprev hentry =>
      refine ih.trans (.send ⟨hterm, ?_, hentry⟩)
      simp [hprev]
    | heartbeat => exact ih.trans (.send trivial)
    | committal node => exact ih.trans (.send trivial)
    | _ => exact ih

/-- What an iteration of a leader offers is in the log it ends with. -/
theorem leader_offers (hready : nd.Ready) (heartbeat : Bool) (expired : Fin n → Bool)
    (hrole : nd.currentRole = .leader) :
    Sent (Message.OffersFrom (nd.leader heartbeat expired incoming).log nd.currentTerm) nd
      (nd.leader heartbeat expired incoming) := by
  obtain ⟨nd₁, hops, hcases⟩ := Node.leader_cases (O := fun _ => True) (C := fun _ _ => True)
    hrole hready heartbeat expired incoming (fun _ _ _ _ => trivial) (fun _ _ _ _ _ => trivial)
  have hsent := LeaderOps.sent hops
  obtain heq | ⟨q, t, i, u, -, hlt, heq⟩ | ⟨entry, rest, hrest, -, hyield, heq⟩ := hcases
  · rwa [heq]
  · -- it steps down with the log it has
    have hframe : LogFrame nd₁ (nd₁.yieldTo q t) :=
      (yieldTo_quiet q (by rw [hops.currentTerm]; exact hlt.le)).toLogFrame
    rw [heq]
    exact hsent.trans (hframe.sent.mono fun message h => h _ _)
  · -- the oldest entry of its queue comes last, and what was offered is in the longer log too
    have hready' : ({ nd₁ with clientQueue := rest } : Node n V).Ready :=
      (hready.ops hops).congr rfl rfl
    have hops' := Node.broadcastAppendEntries_ops (O := fun _ => True) (C := fun _ _ => False)
      hready' entry trivial
    have hsent' := LeaderOps.sent hops'
    have hterm : nd₁.currentTerm = nd.currentTerm := hops.currentTerm
    rw [heq]
    exact (hsent.mono fun _ h => h.extend hops'.grows.1).trans (hterm ▸ hsent')

theorem leader_logStep (hready : nd.Ready) (heartbeat : Bool) (expired : Fin n → Bool)
    (hoffer : ∀ q t e, incoming = some (q, .clientRequest t e) → e.term = nd.currentTerm)
    (hqueue : ∀ entry rest, nd.clientQueue = entry :: rest →
      (∀ q t i u, incoming = some (q, .requestVotes t i u) → t ≤ nd.currentTerm) →
      entry.term = nd.currentTerm) (hrole : nd.currentRole = .leader) :
    LogStep incoming nd (nd.leader heartbeat expired incoming) := by
  have hsent : Sent (Message.OffersFrom (nd.leader heartbeat expired incoming).log
      nd.currentTerm) nd (nd.leader heartbeat expired incoming) :=
    leader_offers hready heartbeat expired hrole
  obtain ⟨nd₁, hops, hcases⟩ := Node.leader_cases (O := fun e => e.term = nd.currentTerm)
    (C := fun _ _ => True) hrole hready heartbeat expired incoming hoffer fun _ _ _ _ _ => trivial
  obtain ⟨new, hlog, hnew⟩ := hops.log
  obtain heq | ⟨q, t, i, u, -, -, heq⟩ | ⟨entry, rest, hrest, -, hyield, heq⟩ := hcases
  · exact .append hrole (by rw [heq, hlog]) hnew hsent
  · exact .append hrole (by rw [heq]; exact hlog) hnew hsent
  · have hready' : ({ nd₁ with clientQueue := rest } : Node n V).Ready :=
      (hready.ops hops).congr rfl rfl
    obtain ⟨new', hlog', hnew'⟩ := (Node.broadcastAppendEntries_ops
      (O := fun e => e.term = nd.currentTerm) (C := fun _ _ => False) hready' entry
      (hqueue entry rest hrest hyield)).log
    have hboth : ∀ e ∈ new ++ new', e.term = nd.currentTerm :=
      fun e he => (List.mem_append.mp he).elim (hnew e) (hnew' e)
    refine .append hrole ?_ hboth hsent
    rw [heq, hlog', hlog, List.append_assoc]

theorem run_logStep [EmptyCollection V] (hready : nd.Ready) : LogStep incoming nd nd.run := by
  unfold Node.run
  split
  · rename_i hrole
    have hops := Node.broadcastAppendEntries_ops (O := fun e => e.term = nd.currentTerm)
      (C := fun _ _ => False) hready.inaugurated nd.noop rfl
    obtain ⟨new, hlog, hnew⟩ := hops.log
    have hfirst : Sent (Message.OffersFrom (nd.inaugurated.broadcastAppendEntries nd.noop).log
        nd.currentTerm) nd nd.inaugurated := .send trivial
    have hsent := hfirst.trans (LeaderOps.sent hops)
    rw [Node.enterLeader_eq]
    exact .append hrole hlog hnew hsent
  · exact .keep rfl .refl
  · rename_i hrole
    exact (enterCandidate_quiet hrole).toLogFrame.logStep
  · exact .keep rfl .refl

theorem LogStep.offers (h : LogStep incoming nd nd') :
    Sent (Message.OffersFrom nd'.log nd.currentTerm) nd nd' := by
  cases h with
  | keep _ hsent => exact hsent.mono fun _ h => h _ _
  | accept _ _ _ _ hsent => exact hsent.mono fun _ h => h _ _
  | append _ _ _ hsent => exact hsent

end Loops

/-- Whatever a node offers in a step of the cluster is in the log it ends with. -/
theorem iteration_offers [EmptyCollection V] {s s' : Cluster n V} {e : Event n V} {p : Fin n}
    {nd : Node n V} (hready : s.Ready) (hs : s.exec e = some s')
    (h : s.iteration e = some (p, nd)) :
    Sent (Message.OffersFrom nd.log (s.nodes p).currentTerm) (s.nodes p) nd := by
  obtain ⟨rfl, -, rfl⟩ | ⟨source, timeout, rfl, -, rfl⟩ | ⟨source, timeout, k, m, rfl, -, rfl⟩ |
    ⟨heartbeat, expired, source, rfl, -, rfl⟩ := Cluster.iteration_cases hs h
  · have hrun : LogStep none (s.nodes p) (s.nodes p).run := run_logStep (hready p)
    exact hrun.offers
  · exact (follower_logStep (s.received p source) timeout).offers
  · exact (candidate_logStep k m (s.received p source) timeout).offers
  · by_cases hrole : (s.nodes p).currentRole = .leader
    · exact leader_offers (hready p) heartbeat expired hrole
    · unfold Node.leader
      rw [if_neg hrole]
      exact .of_eq rfl

/-- Every iteration in a step of the cluster is one of these, if leaders append entries of
their own term only. -/
theorem iteration_logStep [EmptyCollection V] {s s' : Cluster n V} {e : Event n V} {p : Fin n}
    {nd : Node n V} (hready : s.Ready) (hguard : appendsOwnTerm s e = true)
    (hs : s.exec e = some s') (h : s.iteration e = some (p, nd)) :
    LogStep (s.incoming e) (s.nodes p) nd := by
  obtain ⟨rfl, -, rfl⟩ | ⟨source, timeout, rfl, -, rfl⟩ | ⟨source, timeout, k, m, rfl, -, rfl⟩ |
    ⟨heartbeat, expired, source, rfl, -, rfl⟩ := Cluster.iteration_cases hs h
  · exact run_logStep (hready p)
  · exact follower_logStep _ timeout
  · exact candidate_logStep k m _ timeout
  · by_cases hrole : (s.nodes p).currentRole = .leader
    · obtain ⟨hoffer, hqueue⟩ := of_appendsOwnTerm hguard hrole
      exact leader_logStep (hready p) heartbeat expired hoffer hqueue hrole
    · unfold Node.leader
      rw [if_neg hrole]
      exact .keep rfl .refl

end DreamboatRpc.Raft
