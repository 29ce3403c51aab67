import DreamboatRpc.CS.Agreement
import DreamboatRpc.Raft.StableLeader

/-!
# What becomes of submitted values

A value a client submits waits in the queue of a node, is forwarded to the leader and
gets the next place in its log. Under one stable leader the places are given out in
order, so a property of values that depends on their place only is kept by every
iteration, as long as the values that wait are all at one node: those of different nodes
would overtake each other.

## Main definitions

* `Cluster.pending` — the entries of a node that are not in the log of the leader yet
* `Lineup` — every value has the property that belongs to its place, also those under
  way, and those that wait will have it

## Main results

* `Lineup.exec` — every step under a stable leader keeps the lineup
* `Lineup.submit` — a value may join the lineup behind those that wait at its node
-/

namespace DreamboatRpc.Raft

open CS FifoNetwork

variable {n : ℕ} {V : Type*}

/-- The entries of `p` that are not in the log of `ℓ` yet, oldest first. -/
def Cluster.pending (s : Cluster n V) (ℓ p : Fin n) : List (Entry V) :=
  (s.inflight p ℓ).filterMap (fun packet => packet.message.request) ++ (s.nodes p).clientQueue

/-- What may be under way from `p` to `q`: an entry has the property of its place, only the
leader sends heartbeats, and only to the leader are requests forwarded. -/
def Packet.Lawful (P : ℕ → V → Prop) (ℓ p q : Fin n) (packet : Packet n V) : Prop :=
  match packet.message with
  | .appendEntries _ _ prevLogIndex _ entries _ => P (prevLogIndex + 1) entries.entry
  | .heartbeat _ leaderId => p = ℓ ∧ leaderId = ℓ
  | .clientRequest _ _ => p ≠ ℓ ∧ q = ℓ
  | _ => True

/-- All that waits to be appended waits at one node, behind the entries in `hand`, and
will have the property of its place; `K` entries have been submitted in all. The first
places of the log are those of the initial entry and of the first entry of the leader. -/
def Waiting (P : ℕ → V → Prop) (ℓ : Fin n) (K : ℕ) (hand : List (Entry V))
    (s : Cluster n V) : Prop :=
  ∃ p, (∀ q, q ≠ p → s.pending ℓ q = []) ∧
    max 2 (s.nodes ℓ).log.length + (hand ++ s.pending ℓ p).length = K + 2 ∧
    ∀ j e, (hand ++ s.pending ℓ p)[j]? = some e →
      P (max 2 (s.nodes ℓ).log.length + j) e.entry

/-- Every value has the property of its place. In the course of an iteration the leader
holds the entries in `hand`. -/
structure Lineup (P : ℕ → V → Prop) (ℓ : Fin n) (K : ℕ) (hand : List (Entry V))
    (s : Cluster n V) : Prop where
  myId : ∀ q, (s.nodes q).myId = q
  stored : ∀ q i e, (s.nodes q).log[i]? = some e → P i e.entry
  sent : ∀ p q, ∀ packet ∈ s.inflight p q, packet.Lawful P ℓ p q
  office : ∀ q, (s.nodes q).Led → q = ℓ
  /-- Before the leader takes office there are only elections. -/
  early : ¬ (s.nodes ℓ).Led → (s.nodes ℓ).log.length = 1 ∧
    ∀ p q, ∀ packet ∈ s.inflight p q, packet.message.isElection = true
  leads : (s.nodes ℓ).loop = .leader → (s.nodes ℓ).currentRole = .leader
  long : (s.nodes ℓ).Led → 2 ≤ (s.nodes ℓ).log.length
  waiting : Waiting P ℓ K hand s

variable {P P' : ℕ → V → Prop} {ℓ p q : Fin n} {K K' : ℕ} {hand hand' : List (Entry V)}
  {s s' : Cluster n V} {nd : Node n V} {out : List (Option (Fin n) × Packet n V)}

/-! ## Pending entries -/

theorem pending_setNode_of_ne (h : q ≠ p) : (s.setNode p nd).pending ℓ q = s.pending ℓ q := by
  rw [Cluster.pending, Cluster.inflight_setNode_of_ne h, Cluster.setNode_nodes_of_ne h,
    Cluster.pending]

theorem pending_setNode_self (out : List (Option (Fin n) × Packet n V))
    (h : nd.talker = (s.nodes p).talker ++ out) :
    (s.setNode p nd).pending ℓ p =
      (s.inflight p ℓ).filterMap (fun packet => packet.message.request) ++
        ((addressedTo ℓ out).filterMap (fun packet => packet.message.request) ++
          nd.clientQueue) := by
  rw [Cluster.pending, Cluster.inflight_setNode_self out h, List.filterMap_append,
    Cluster.setNode_nodes_self, List.append_assoc]

theorem pending_publish : (s.publish p).pending ℓ q = s.pending ℓ q := by
  rw [Cluster.pending, Cluster.inflight_publish, Cluster.pending]
  by_cases h : q = p
  · subst h
    rw [Cluster.publish_nodes_self]
  · rw [Cluster.publish_nodes_of_ne h]

/-- Taking a message shortens what is pending by the request that was taken. -/
theorem pending_take {source : Option (Fin n)} {incoming : Option (Fin n × Packet n V)}
    (h : s.take p source = some (s', incoming)) (a : Fin n) :
    s.pending ℓ a = (incoming.elim [] fun m =>
      if a = m.1 ∧ p = ℓ then m.2.message.request.toList else []) ++ s'.pending ℓ a := by
  obtain ⟨-, rfl, rfl⟩ | ⟨q, packet, -, rfl, hnodes, hnet, hother⟩ := Cluster.take_cases h
  · rfl
  · simp only [Option.elim_some, Cluster.pending, hnodes, ← List.append_assoc]
    congr 1
    -- only the channel that was taken from has changed
    by_cases ha : a = q ∧ p = ℓ
    · obtain ⟨rfl, rfl⟩ := ha
      simp only [and_self, if_true, Cluster.inflight, hnodes, hnet, List.cons_append]
      rw [List.filterMap_cons]
      split
      · rename_i hrequest
        simp [hrequest]
      · rename_i e hrequest
        simp [hrequest]
    · have hsame : s'.net a ℓ = s.net a ℓ := hother a ℓ (by tauto)
      rw [if_neg ha]
      simp only [Cluster.inflight, hsame, hnodes, List.nil_append]

/-- What waits, and the log it waits for, stay as they are. -/
theorem Waiting.congr (h : Waiting P ℓ K hand s)
    (hlog : (s'.nodes ℓ).log = (s.nodes ℓ).log)
    (hpending : ∀ a, s'.pending ℓ a = s.pending ℓ a) : Waiting P ℓ K hand s' := by
  obtain ⟨r, hothers, hcount, hplace⟩ := h
  refine ⟨r, fun q hq => ?_, ?_, ?_⟩
  · rw [hpending]
    exact hothers q hq
  · rw [hlog, hpending]
    exact hcount
  · rw [hlog, hpending]
    exact hplace

/-- No requests are sent to the leader, if no message is one. -/
theorem requests_eq_nil (h : ∀ m ∈ out, m.2.message.request = none) :
    (addressedTo ℓ out).filterMap (fun packet => packet.message.request) = [] := by
  rw [List.filterMap_eq_nil_iff]
  intro packet hpacket
  rcases mem_addressedTo.mp hpacket with hm | hm
  · exact h _ hm
  · exact h _ hm

namespace Lineup

/-! ## Steps that keep the logs -/

/-- Where logs, roles and loops stay and nothing new is under way, only what waits has to
be looked at. -/
theorem congr (h : Lineup P ℓ K hand s)
    (hnodes : ∀ q, (s'.nodes q).myId = (s.nodes q).myId ∧ (s'.nodes q).log = (s.nodes q).log ∧
      (s'.nodes q).loop = (s.nodes q).loop ∧ (s'.nodes q).currentRole = (s.nodes q).currentRole)
    (hsent : ∀ p q, ∀ packet ∈ s'.inflight p q, packet ∈ s.inflight p q)
    (hwaiting : Waiting P ℓ K' hand' s') : Lineup P ℓ K' hand' s' := by
  have hled : ∀ q, (s'.nodes q).Led ↔ (s.nodes q).Led := by
    intro q
    rw [Node.Led, Node.Led, (hnodes q).2.2.1]
  constructor
  case myId => exact fun q => (hnodes q).1.trans (h.myId q)
  case stored =>
    intro q i e he
    rw [(hnodes q).2.1] at he
    exact h.stored q i e he
  case sent => exact fun p q packet hpacket => h.sent p q packet (hsent p q packet hpacket)
  case office => exact fun q hq => h.office q ((hled q).mp hq)
  case early =>
    intro hnot
    obtain ⟨hlog, helection⟩ := h.early fun hl => hnot ((hled ℓ).mpr hl)
    exact ⟨by rw [(hnodes ℓ).2.1]; exact hlog,
      fun p q packet hpacket => helection p q packet (hsent p q packet hpacket)⟩
  case leads =>
    rw [(hnodes ℓ).2.2.1, (hnodes ℓ).2.2.2]
    exact h.leads
  case long =>
    rw [hled ℓ, (hnodes ℓ).2.1]
    exact h.long
  case waiting => exact hwaiting

theorem fewer (h : Lineup P ℓ K hand s) (hs : s'.Fewer s) (hwaiting : Waiting P ℓ K hand' s') :
    Lineup P ℓ K hand' s' := by
  apply h.congr _ (fun p q packet hpacket => (hs.inflight p q).mem hpacket) hwaiting
  intro q
  rw [hs.nodes]
  exact ⟨rfl, rfl, rfl, rfl⟩

theorem publish (h : Lineup P ℓ K hand s) (p : Fin n) : Lineup P ℓ K hand (s.publish p) := by
  have hnodes : ∀ q, ((s.publish p).nodes q).myId = (s.nodes q).myId ∧
      ((s.publish p).nodes q).log = (s.nodes q).log ∧
      ((s.publish p).nodes q).loop = (s.nodes q).loop ∧
      ((s.publish p).nodes q).currentRole = (s.nodes q).currentRole := by
    intro q
    by_cases hq : q = p
    · subst hq
      rw [Cluster.publish_nodes_self]
      exact ⟨rfl, rfl, rfl, rfl⟩
    · rw [Cluster.publish_nodes_of_ne hq]
      exact ⟨rfl, rfl, rfl, rfl⟩
  refine h.congr hnodes (fun p' q packet hpacket => ?_) ?_
  · rwa [Cluster.inflight_publish] at hpacket
  · exact h.waiting.congr (hnodes ℓ).2.1 fun _ => pending_publish

/-- Where one node changes its client queue only. -/
theorem setQueue (h : Lineup P ℓ K hand s) (queue : List (Entry V))
    (hwaiting : Waiting P ℓ K' hand'
      (s.setNode p { s.nodes p with clientQueue := queue })) :
    Lineup P ℓ K' hand' (s.setNode p { s.nodes p with clientQueue := queue }) := by
  refine h.congr (fun q => ?_) (fun p' q packet hpacket => ?_) hwaiting
  · rw [Cluster.setNode_nodes]
    split
    · rename_i hq
      subst hq
      exact ⟨rfl, rfl, rfl, rfl⟩
    · exact ⟨rfl, rfl, rfl, rfl⟩
  · by_cases hp : p' = p
    · subst hp
      rwa [Cluster.inflight_setNode_self [] (by simp), addressedTo_nil, List.append_nil]
        at hpacket
    · rwa [Cluster.inflight_setNode_of_ne hp] at hpacket

/-- A node holds the message it is about to handle. -/
theorem hold (h : Lineup P ℓ K hand s) (message : Option (Message n V)) :
    Lineup P ℓ K hand (s.setNode p { s.nodes p with incomingMessage := message }) := by
  have hnodes : ∀ q, ∃ m, (s.setNode p { s.nodes p with incomingMessage := message }).nodes q =
      { s.nodes q with incomingMessage := m } := by
    exact Cluster.forall_setNode
      (Q := fun q x => ∃ m, x = { s.nodes q with incomingMessage := m }) ⟨message, rfl⟩
      fun q => ⟨(s.nodes q).incomingMessage, rfl⟩
  have hinflight : ∀ a b, (s.setNode p { s.nodes p with incomingMessage := message }).inflight a b =
      s.inflight a b := by
    intro a b
    obtain ⟨m, hm⟩ := hnodes a
    rw [Cluster.inflight, hm]
    rfl
  refine h.congr (fun q => ?_) (fun a b packet hpacket => ?_) ?_
  · obtain ⟨m, hm⟩ := hnodes q
    rw [hm]
    exact ⟨rfl, rfl, rfl, rfl⟩
  · rwa [hinflight] at hpacket
  · have hpending : ∀ a, (s.setNode p { s.nodes p with incomingMessage := message }).pending ℓ a =
        s.pending ℓ a := by
      intro a
      obtain ⟨m, hm⟩ := hnodes a
      rw [Cluster.pending, hinflight, hm, Cluster.pending]
    obtain ⟨m, hm⟩ := hnodes ℓ
    exact h.waiting.congr (by rw [hm]) hpending

/-- The leader takes the oldest entry of its own queue in hand. -/
theorem pop (h : Lineup P ℓ K [] s) {entry : Entry V} {rest : List (Entry V)}
    (hqueue : (s.nodes ℓ).clientQueue = entry :: rest) :
    Lineup P ℓ K [entry] (s.setNode ℓ { s.nodes ℓ with clientQueue := rest }) := by
  apply h.setQueue
  -- no request is forwarded by the leader itself, so its queue is all that waits
  have hnone : (s.inflight ℓ ℓ).filterMap (fun packet => packet.message.request) = [] := by
    rw [List.filterMap_eq_nil_iff]
    intro packet hpacket
    have hlawful := h.sent ℓ ℓ packet hpacket
    unfold Packet.Lawful at hlawful
    cases hmessage : packet.message with
    | clientRequest t e =>
      rw [hmessage] at hlawful
      exact absurd rfl hlawful.1
    | _ => rfl
  have hpending : s.pending ℓ ℓ = entry :: rest := by
    rw [Cluster.pending, hnone, hqueue, List.nil_append]
  have hpending' : (s.setNode ℓ { s.nodes ℓ with clientQueue := rest }).pending ℓ ℓ = rest := by
    rw [pending_setNode_self [] (by simp), hnone]
    rfl
  obtain ⟨r, hothers, hcount, hplace⟩ := h.waiting
  have hr : r = ℓ := by
    by_contra hne
    have hempty := hothers ℓ (Ne.symm hne)
    rw [hpending] at hempty
    simp at hempty
  subst hr
  refine ⟨r, fun q hq => ?_, ?_, ?_⟩
  · rw [pending_setNode_of_ne hq]
    exact hothers q hq
  · rw [hpending', Cluster.setNode_nodes_self]
    simpa [hpending] using hcount
  · rw [hpending', Cluster.setNode_nodes_self]
    simpa [hpending] using hplace

/-- Where only entries of one node wait, they have the places behind the log. -/
theorem waiting_at (h : Lineup P ℓ K [] s) (hothers : ∀ q, q ≠ p → s.pending ℓ q = []) :
    max 2 (s.nodes ℓ).log.length + (s.pending ℓ p).length = K + 2 ∧
      ∀ j e, (s.pending ℓ p)[j]? = some e → P (max 2 (s.nodes ℓ).log.length + j) e.entry := by
  obtain ⟨r, hnone, hcount, hplace⟩ := h.waiting
  by_cases hr : r = p
  · subst hr
    exact ⟨hcount, hplace⟩
  · have hp := hnone p (Ne.symm hr)
    have hr' := hothers r hr
    simp only [List.nil_append, hr', List.length_nil] at hcount
    simp [hp, hcount]

/-- The last of all submissions is at the end of the log, or of what waits behind it. -/
theorem last_of_others (h : Lineup P ℓ K [] s) (hothers : ∀ q, q ≠ p → s.pending ℓ q = [])
    (hpos : 0 < K) {e : Entry V} (he : ((s.nodes ℓ).log ++ s.pending ℓ p).getLast? = some e) :
    P (K + 1) e.entry := by
  obtain ⟨hcount, hplace⟩ := h.waiting_at hothers
  rw [List.getLast?_eq_getElem?, List.length_append] at he
  rcases Nat.eq_zero_or_pos (s.pending ℓ p).length with hnone | hsome
  · have hlength : (s.nodes ℓ).log.length = K + 2 := by omega
    rw [List.getElem?_append_left (by omega), hnone, hlength] at he
    exact h.stored ℓ _ e he
  · -- the entry waits, so its place is the last of those behind the log
    rw [List.getElem?_append_right (by omega)] at he
    have hlast := hplace _ e he
    have hend : max 2 (s.nodes ℓ).log.length +
        ((s.nodes ℓ).log.length + (s.pending ℓ p).length - 1 - (s.nodes ℓ).log.length) =
          K + 1 := by omega
    rwa [hend] at hlast

/-- A value joins the lineup behind those that wait, if all of these wait at its node. -/
theorem submit (h : Lineup P ℓ K [] s) (value : V) (idNum : ℤ)
    (hothers : ∀ q, q ≠ p → s.pending ℓ q = []) (hvalue : P (K + 2) value) :
    Lineup P ℓ (K + 1) [] (s.setNode p ((s.nodes p).clientRequest value idNum)) := by
  set entry : Entry V := ⟨(s.nodes p).currentTerm, value, idNum⟩ with hentry
  have hpending : (s.setNode p ((s.nodes p).clientRequest value idNum)).pending ℓ p =
      s.pending ℓ p ++ [entry] := by
    rw [pending_setNode_self [] (by simp [Node.clientRequest])]
    simp [Cluster.pending, Node.clientRequest, hentry]
  have hlog : ((s.setNode p ((s.nodes p).clientRequest value idNum)).nodes ℓ).log =
      (s.nodes ℓ).log := by
    rw [Cluster.setNode_nodes]
    split
    · rename_i hℓ
      subst hℓ
      rfl
    · rfl
  obtain ⟨hcount, hplace⟩ := h.waiting_at hothers
  have hjoined : Waiting P ℓ (K + 1) [] (s.setNode p ((s.nodes p).clientRequest value idNum)) := by
    refine ⟨p, fun q hq => ?_, ?_, ?_⟩
    · rw [pending_setNode_of_ne hq]
      exact hothers q hq
    · rw [hlog, hpending, List.nil_append, List.length_append, List.length_singleton]
      omega
    · rw [hlog, hpending, List.nil_append]
      intro j e he
      rcases Nat.lt_or_ge j (s.pending ℓ p).length with hj | hj
      · rw [List.getElem?_append_left hj] at he
        exact hplace j e he
      · rw [List.getElem?_append_right hj] at he
        rw [List.getElem?_singleton] at he
        split at he
        · rename_i hzero
          have hend : max 2 (s.nodes ℓ).log.length + j = K + 2 := by omega
          rw [hend, ← Option.some.inj he]
          exact hvalue
        · simp at he
  exact h.setQueue _ hjoined

/-! ## Steps of a node that does not lead -/

/-- A node that does not lead runs one iteration: either the leader is in office, or only
elections take place. -/
theorem follow (h : Lineup P ℓ K hand s) (hidle : ¬ (s.nodes p).Led)
    (hid : nd.myId = (s.nodes p).myId) (hled : ¬ nd.Led)
    (hlog : ∀ i e, nd.log[i]? = some e → P i e.entry)
    (htalker : nd.talker = (s.nodes p).talker ++ out)
    (hcase : (p ≠ ℓ ∧ (s.nodes ℓ).Led) ∨
      nd.log = (s.nodes p).log ∧ ∀ m ∈ out, m.2.message.isElection = true)
    (hsent : ∀ m ∈ out, ∀ q, m.1 = none ∨ m.1 = some q → m.2.Lawful P ℓ p q)
    (hqueue : (addressedTo ℓ out).filterMap (fun packet => packet.message.request) ++
      nd.clientQueue = (s.nodes p).clientQueue) : Lineup P ℓ K hand (s.setNode p nd) := by
  have hpending : ∀ q, (s.setNode p nd).pending ℓ q = s.pending ℓ q := by
    intro q
    by_cases hq : q = p
    · subst hq
      rw [pending_setNode_self out htalker, hqueue, Cluster.pending]
    · exact pending_setNode_of_ne hq
  have hℓ : p = ℓ → nd.log = (s.nodes p).log := by
    rintro rfl
    rcases hcase with ⟨hne, -⟩ | ⟨hsame, -⟩
    · exact absurd rfl hne
    · exact hsame
  have hlogℓ : ((s.setNode p nd).nodes ℓ).log = (s.nodes ℓ).log := by
    rw [Cluster.setNode_nodes]
    split
    · rename_i heq
      rw [hℓ heq.symm, heq]
    · rfl
  constructor
  case myId =>
    exact Cluster.forall_setNode (Q := fun q x => x.myId = q) (hid.trans (h.myId p)) h.myId
  case stored =>
    exact Cluster.forall_setNode (Q := fun _ x => ∀ i e, x.log[i]? = some e → P i e.entry)
      hlog h.stored
  case sent =>
    intro a b packet hpacket
    obtain hold | ⟨rfl, receiver, haddress, hm⟩ :=
      Cluster.mem_inflight_setNode out htalker hpacket
    · exact h.sent a b packet hold
    · exact hsent _ hm b haddress
  case office =>
    exact Cluster.forall_setNode (Q := fun q x => x.Led → q = ℓ) (fun hin => absurd hin hled)
      h.office
  case early =>
    intro hnot
    have hnotℓ : ¬ (s.nodes ℓ).Led := by
      rw [Cluster.setNode_nodes] at hnot
      split at hnot
      · rename_i heq
        rwa [heq]
      · exact hnot
    rw [hlogℓ]
    refine ⟨(h.early hnotℓ).1, fun a b packet hpacket => ?_⟩
    obtain hold | ⟨-, receiver, -, hm⟩ := Cluster.mem_inflight_setNode out htalker hpacket
    · exact (h.early hnotℓ).2 a b packet hold
    · rcases hcase with ⟨-, hin⟩ | ⟨-, helection⟩
      · exact absurd hin hnotℓ
      · exact helection _ hm
  case leads =>
    rw [Cluster.setNode_nodes]
    split
    · intro hloop
      exact absurd (.inl hloop) hled
    · exact h.leads
  case long =>
    rw [Cluster.setNode_nodes]
    split
    · intro hin
      exact absurd hin hled
    · exact h.long
  case waiting => exact h.waiting.congr hlogℓ hpending

/-- An iteration that is about elections only. -/
theorem election (h : Lineup P ℓ K hand s) (hidle : ¬ (s.nodes p).Led)
    (hf : ElectionFrame (s.nodes p) nd) : Lineup P ℓ K hand (s.setNode p nd) := by
  obtain ⟨out, htalker, hout⟩ := hf.talker
  refine h.follow hidle hf.myId hf.led ?_ htalker (.inr ⟨hf.log, hout⟩) ?_ ?_
  · rw [hf.log]
    exact h.stored p
  · intro m hm q _
    have helection := hout m hm
    unfold Packet.Lawful
    cases hmessage : m.2.message with
    | requestVotes => trivial
    | vote => trivial
    | _ => simp [hmessage, Message.isElection] at helection
  · rw [requests_eq_nil fun m hm => ?_, hf.clientQueue, List.nil_append]
    have helection := hout m hm
    cases hmessage : m.2.message with
    | clientRequest t e => simp [hmessage, Message.isElection] at helection
    | _ => rfl

/-- A follower passes on the oldest entry of its queue to the leader. -/
theorem forward (h : Lineup P ℓ K hand s) (hidle : ¬ (s.nodes p).Led)
    (hoffice : (s.nodes ℓ).Led) (hf : ForwardFrame (s.nodes p) nd ℓ) :
    Lineup P ℓ K hand (s.setNode p nd) := by
  have hne : p ≠ ℓ := by
    rintro rfl
    exact hidle hoffice
  have hled : ¬ nd.Led := by
    rw [Node.Led, hf.loop]
    exact hidle
  have hlog : ∀ i e, nd.log[i]? = some e → P i e.entry := by
    rw [hf.log]
    exact h.stored p
  -- the request moves from the queue onto the channel to the leader, in the same order
  obtain ⟨hqueue, htalker⟩ | ⟨t, entry, cause, hqueue, htalker⟩ := hf.forwarded
  · have hnothing : nd.talker = (s.nodes p).talker ++ [] := by rw [htalker, List.append_nil]
    exact h.follow hidle hf.myId hled hlog hnothing (.inl ⟨hne, hoffice⟩) (by simp)
      (by simpa using hqueue)
  · apply h.follow hidle hf.myId hled hlog htalker (.inl ⟨hne, hoffice⟩)
    · intro m hm q haddress
      rw [List.mem_singleton.mp hm] at haddress ⊢
      refine ⟨hne, ?_⟩
      simpa [eq_comm] using haddress
    · simp [addressedTo, Message.request, hqueue]

/-- A follower takes an entry of the leader, or refuses it. -/
theorem accept (h : Lineup P ℓ K hand s) (hidle : ¬ (s.nodes p).Led)
    (hoffice : (s.nodes ℓ).Led) {t : ℕ} {l : Fin n} {k u : ℕ} {e : Entry V} {c : ℕ}
    (hplace : P (k + 1) e.entry) :
    Lineup P ℓ K hand (s.setNode p ((s.nodes p).followerAppendEntries t l k u e c)) := by
  have hne : p ≠ ℓ := by
    rintro rfl
    exact hidle hoffice
  obtain ⟨success, htalker⟩ := followerAppendEntries_talker (s.nodes p) t l k u e c
  have hsame : ((s.nodes p).followerAppendEntries t l k u e c).myId = (s.nodes p).myId ∧
      ((s.nodes p).followerAppendEntries t l k u e c).loop = (s.nodes p).loop ∧
      ((s.nodes p).followerAppendEntries t l k u e c).clientQueue = (s.nodes p).clientQueue := by
    simp only [Node.followerAppendEntries, Node.appendEntry, Node.cutLog]
    split
    · split <;> exact ⟨rfl, rfl, rfl⟩
    · exact ⟨rfl, rfl, rfl⟩
  obtain ⟨hid, hloop, hqueue⟩ := hsame
  apply h.follow hidle hid _ _ htalker (.inl ⟨hne, hoffice⟩)
  · intro m hm q _
    rw [List.mem_singleton.mp hm]
    trivial
  · rw [hqueue]
    simp [addressedTo, Message.request]
  · rw [Node.Led, hloop]
    exact hidle
  · intro i e' he'
    rw [Node.followerAppendEntries_log] at he'
    split at he'
    · rename_i haccept
      obtain ⟨prev, hprev, -⟩ := Node.term_of_acceptsAppendEntries haccept
      -- what is kept is in its place, and the entry on offer gets the next one
      rw [getElem?_cut_append (List.getElem?_eq_some_iff.mp hprev).1] at he'
      split at he'
      · exact h.stored p i e' he'
      · split at he'
        · rename_i hi
          rw [hi, ← Option.some.inj he']
          exact hplace
        · simp at he'
    · exact h.stored p i e' he'

/-! ## Steps of the leader -/

/-- The leader appends the entries in `done`, which it had in hand. -/
theorem lead {done : List (Entry V)} (h : Lineup P ℓ K (done ++ hand) s)
    (hid : nd.myId = ℓ) (hled : nd.Led) (hleads : nd.loop = .leader → nd.currentRole = .leader)
    (hqueue : nd.clientQueue = (s.nodes ℓ).clientQueue) (hlong : 2 ≤ nd.log.length)
    (hlen : max 2 nd.log.length = max 2 (s.nodes ℓ).log.length + done.length)
    (hlog : ∀ i e, nd.log[i]? = some e → P i e.entry)
    (htalker : nd.talker = (s.nodes ℓ).talker ++ out)
    (hout : ∀ m ∈ out, m.2.message.BackedBy nd.log ℓ) :
    Lineup P ℓ K hand (s.setNode ℓ nd) := by
  have hnone : (addressedTo ℓ out).filterMap (fun packet => packet.message.request) = [] := by
    refine requests_eq_nil fun m hm => ?_
    have hbacked := hout m hm
    cases hmessage : m.2.message with
    | clientRequest t e =>
      rw [hmessage] at hbacked
      exact hbacked.elim
    | _ => rfl
  have hpending : ∀ q, (s.setNode ℓ nd).pending ℓ q = s.pending ℓ q := by
    intro q
    by_cases hq : q = ℓ
    · subst hq
      rw [pending_setNode_self out htalker, hnone, hqueue, List.nil_append, Cluster.pending]
    · exact pending_setNode_of_ne hq
  constructor
  case myId => exact Cluster.forall_setNode (Q := fun q x => x.myId = q) hid h.myId
  case stored =>
    exact Cluster.forall_setNode (Q := fun _ x => ∀ i e, x.log[i]? = some e → P i e.entry)
      hlog h.stored
  case sent =>
    intro a b packet hpacket
    obtain hold | ⟨rfl, receiver, -, hm⟩ := Cluster.mem_inflight_setNode out htalker hpacket
    · exact h.sent a b packet hold
    · have hbacked : packet.message.BackedBy nd.log a := hout _ hm
      unfold Packet.Lawful
      cases hmessage : packet.message with
      | appendEntries t l k u e c =>
        rw [hmessage] at hbacked
        exact hlog (k + 1) e hbacked
      | heartbeat t l =>
        rw [hmessage] at hbacked
        exact ⟨rfl, hbacked⟩
      | clientRequest t e =>
        rw [hmessage] at hbacked
        exact hbacked.elim
      | _ => trivial
  case office =>
    exact Cluster.forall_setNode (Q := fun q x => x.Led → q = ℓ) (fun _ => rfl) h.office
  case early =>
    rw [Cluster.setNode_nodes_self]
    exact fun hnot => absurd hled hnot
  case leads =>
    rw [Cluster.setNode_nodes_self]
    exact hleads
  case long =>
    rw [Cluster.setNode_nodes_self]
    exact fun _ => hlong
  case waiting =>
    obtain ⟨r, hothers, hcount, hplace⟩ := h.waiting
    refine ⟨r, fun q hq => by rw [hpending]; exact hothers q hq, ?_, ?_⟩
    · rw [Cluster.setNode_nodes_self, hpending, hlen]
      simp only [List.append_assoc, List.length_append] at hcount ⊢
      omega
    · rw [Cluster.setNode_nodes_self, hpending, hlen]
      intro j e he
      rw [Nat.add_assoc]
      -- the entries of `done` have taken the first places
      apply hplace (done.length + j) e
      rwa [List.append_assoc, List.getElem?_append_right (by omega), Nat.add_sub_cancel_left]

/-- A leader in office goes on, and appends what it has in hand. -/
theorem office_step {done : List (Entry V)} (h : Lineup P ℓ K (done ++ hand) s)
    (hled : (s.nodes ℓ).Led) (hrole : (s.nodes ℓ).currentRole = .leader)
    (hf : OfficeFrame (s.nodes ℓ) nd done) : Lineup P ℓ K hand (s.setNode ℓ nd) := by
  obtain ⟨out, htalker, hout⟩ := hf.talker
  have hlong := h.long hled
  have hlen : nd.log.length = (s.nodes ℓ).log.length + done.length := by
    rw [hf.log, List.length_append]
  have hid : nd.myId = ℓ := hf.myId.trans (h.myId ℓ)
  apply h.lead hid _ _ hf.clientQueue (by omega) (by omega) _ htalker
  · intro m hm
    rw [← hid]
    exact hout m hm
  · rcases hf.loop with hloop | hcrash
    · rw [Node.Led, hloop]
      exact hled
    · exact .inr hcrash
  · intro _
    exact hf.currentRole.trans hrole
  · -- the entries in hand get the places behind the log
    intro i e he
    rw [hf.log] at he
    rcases Nat.lt_or_ge i (s.nodes ℓ).log.length with hi | hi
    · rw [List.getElem?_append_left hi] at he
      exact h.stored ℓ i e he
    · rw [List.getElem?_append_right hi] at he
      obtain ⟨r, -, -, hplace⟩ := h.waiting
      have hin := (List.getElem?_eq_some_iff.mp he).1
      have hfront : (done ++ hand ++ s.pending ℓ r)[i - (s.nodes ℓ).log.length]? = some e := by
        rw [List.append_assoc, List.getElem?_append_left hin]
        exact he
      have hi' := hplace _ e hfront
      rwa [max_eq_right hlong, Nat.add_sub_cancel' hi] at hi'

/-- The leader takes office, with its first entry. -/
theorem enterLeader [EmptyCollection V] (h : Lineup P ℓ K hand s) (hidle : ¬ (s.nodes ℓ).Led)
    (hrole : (s.nodes ℓ).currentRole = .leader) (hready : (s.nodes ℓ).Ready)
    (hfirst : P 1 ({} : V)) : Lineup P ℓ K hand (s.setNode ℓ (s.nodes ℓ).enterLeader) := by
  obtain ⟨nd, hf, heq⟩ := enterLeader_office hready
  obtain ⟨out, htalker, hout⟩ := hf.talker
  have hlength := (h.early hidle).1
  have hlen : nd.log.length = 2 := by
    rw [hf.log, List.length_append, hlength]
    rfl
  have hid : nd.myId = ℓ := hf.myId.trans (h.myId ℓ)
  -- the first entry is not one of those that wait
  have hnone : Lineup P ℓ K ([] ++ hand) s := h
  have hlead := @Lineup.lead _ _ _ _ _ _ _ { nd with loop := .leader } out _ hnone
  rw [heq]
  apply hlead hid (.inl rfl) _ hf.clientQueue hlen.ge _ _ htalker
  · intro m hm
    rw [← hid]
    exact hout m hm
  · intro _
    exact hf.currentRole.trans hrole
  · simp only [hlen, hlength]
    rfl
  · intro i e he
    simp only [hf.log] at he
    rcases Nat.lt_or_ge i (s.nodes ℓ).log.length with hi | hi
    · rw [List.getElem?_append_left hi] at he
      exact h.stored ℓ i e he
    · rw [List.getElem?_append_right hi, List.getElem?_singleton] at he
      split at he
      · have hi' : i = 1 := by omega
        rw [hi', ← Option.some.inj he]
        exact hfirst
      · simp at he

/-! ## All steps -/

/-- A node that does not lead takes a message: nothing that waits is in it. -/
theorem take_idle (h : Lineup P ℓ K [] s) (hidle : ¬ (s.nodes p).Led)
    {source : Option (Fin n)} {incoming : Option (Fin n × Packet n V)}
    (htake : s.take p source = some (s', incoming)) : Lineup P ℓ K [] s' := by
  have hpending : ∀ a, s'.pending ℓ a = s.pending ℓ a := by
    intro a
    rw [pending_take htake a]
    cases incoming with
    | none => rfl
    | some m =>
      obtain ⟨q, packet⟩ := m
      simp only [Option.elim_some]
      split
      · rename_i ha
        obtain ⟨rfl, rfl⟩ := ha
        -- the leader is not in office yet
        have hin : packet ∈ s.inflight a p := by
          rw [Cluster.take_inflight_head htake]
          exact List.mem_cons_self ..
        have helection := (h.early hidle).2 a p packet hin
        cases hmessage : packet.message with
        | clientRequest t e => simp [hmessage, Message.isElection] at helection
        | _ => rfl
      · rfl
  apply h.fewer (Cluster.take_fewer htake)
  exact h.waiting.congr (by rw [Cluster.take_nodes htake]) hpending

/-- The leader takes a message, and has the request that is in it in hand. -/
theorem take_leader (h : Lineup P ℓ K [] s) {source : Option (Fin n)}
    {incoming : Option (Fin n × Packet n V)}
    (htake : s.take ℓ source = some (s', incoming)) :
    Lineup P ℓ K (incoming.bind fun m => m.2.message.request).toList s' := by
  have hnodes := Cluster.take_nodes htake
  have hpending := fun a => pending_take (ℓ := ℓ) htake a
  apply h.fewer (Cluster.take_fewer htake)
  cases hrequest : incoming.bind fun m => m.2.message.request with
  | none =>
    have hsame : ∀ a, s'.pending ℓ a = s.pending ℓ a := by
      intro a
      rw [hpending]
      cases incoming with
      | none => rfl
      | some m =>
        simp only [Option.bind_some] at hrequest
        simp [hrequest]
    exact h.waiting.congr (by rw [hnodes]) hsame
  | some e =>
    obtain ⟨m, rfl, hm⟩ := Option.bind_eq_some_iff.mp hrequest
    simp only [Option.elim_some, and_true, hm, Option.toList_some] at hpending
    obtain ⟨r, hothers, hcount, hplace⟩ := h.waiting
    -- the request comes from where everything waits
    have hr : m.1 = r := by
      by_contra hne
      have hempty := hothers m.1 hne
      rw [hpending, if_pos rfl] at hempty
      simp at hempty
    have hfirst : s.pending ℓ r = e :: s'.pending ℓ r := by
      rw [hpending, if_pos hr.symm]
      rfl
    refine ⟨r, fun q hq => ?_, ?_, ?_⟩
    · have hq' := hothers q hq
      rw [hpending] at hq'
      exact (List.append_eq_nil_iff.mp hq').2
    · rw [hnodes]
      simpa [hfirst] using hcount
    · rw [hnodes]
      simpa [hfirst] using hplace

variable [EmptyCollection V] {e : Event n V}

/-- One iteration of `run`. -/
theorem run (h : Lineup P ℓ K [] s) (hready : s.Ready) (hfirst : P 1 ({} : V))
    (hloop : (s.nodes p).loop = .run) (hguard : stableLeader ℓ s (.run p) = true) :
    Lineup P ℓ K [] (s.setNode p (s.nodes p).run) := by
  have hidle : ¬ (s.nodes p).Led := by simp [Node.Led, hloop]
  cases hrole : (s.nodes p).currentRole with
  | leader =>
    have hp : p = ℓ := by simpa [stableLeader, hrole] using hguard
    subst hp
    simp only [Node.run, hrole]
    exact h.enterLeader hidle hrole (hready p) hfirst
  | follower =>
    simp only [Node.run, hrole]
    exact h.election hidle (.of_talker rfl rfl rfl (by simp [Node.Led]) rfl)
  | candidate =>
    simp only [Node.run, hrole]
    exact h.election hidle (enterCandidate_election _)
  | none =>
    simp only [Node.run, hrole]
    rwa [Cluster.setNode_self]

omit [EmptyCollection V] in
/-- What is in a message that was under way is in its place, and before the leader is in
office it is about elections. -/
theorem taken_lawful (h : Lineup P ℓ K hand s) {source : Option (Fin n)} {packet : Packet n V}
    (htake : s.take p source = some (s', some (q, packet))) :
    packet.Lawful P ℓ q p ∧ (packet.message.isElection = false → (s.nodes ℓ).Led) := by
  have hin : packet ∈ s.inflight q p := by
    rw [Cluster.take_inflight_head htake]
    exact List.mem_cons_self ..
  refine ⟨h.sent q p packet hin, fun hother => ?_⟩
  by_contra hnot
  have helection := (h.early hnot).2 q p packet hin
  simp [hother] at helection

omit [EmptyCollection V] in
/-- A follower handles a message. -/
theorem followerMessage (h : Lineup P ℓ K hand s) (hidle : ¬ (s.nodes p).Led) (a : Fin n)
    {packet : Packet n V} (hlawful : packet.Lawful P ℓ a p)
    (hoffice : packet.message.isElection = false → (s.nodes ℓ).Led) :
    Lineup P ℓ K hand (s.setNode p ((s.nodes p).followerMessage a packet.message)) ∧
      ¬ ((s.nodes p).followerMessage a packet.message).Led := by
  unfold Packet.Lawful at hlawful
  cases hmessage : packet.message with
  | heartbeat t l =>
    rw [hmessage] at hlawful hoffice
    obtain ⟨-, rfl⟩ := hlawful
    have hf := followerHeartbeat_forward (s.nodes p) t l
    refine ⟨h.forward hidle (hoffice rfl) hf, ?_⟩
    rw [Node.followerMessage, Node.Led, hf.loop]
    exact hidle
  | appendEntries t l k u e c =>
    rw [hmessage] at hlawful hoffice
    refine ⟨h.accept hidle (hoffice rfl) hlawful, ?_⟩
    have hloop : ((s.nodes p).followerAppendEntries t l k u e c).loop = (s.nodes p).loop := by
      simp only [Node.followerAppendEntries, Node.appendEntry, Node.cutLog]
      split
      · split <;> rfl
      · rfl
    rw [Node.followerMessage, Node.Led, hloop]
    exact hidle
  | _ =>
    have hf : ElectionFrame (s.nodes p) ((s.nodes p).followerMessage a packet.message) := by
      apply followerMessage_election hidle
      · simp [hmessage]
      · simp [hmessage]
    rw [hmessage] at hf
    exact ⟨h.election hidle hf, hf.led⟩

omit [EmptyCollection V] in
/-- One iteration of `_follower`. -/
theorem follower (h : Lineup P ℓ K [] s) (hidle : ¬ (s.nodes p).Led)
    {source : Option (Fin n)} {taken : Cluster n V} {incoming : Option (Fin n × Packet n V)}
    (htake : s.take p source = some (taken, incoming)) (timeout : Bool) :
    Lineup P ℓ K [] (taken.setNode p ((s.nodes p).follower
      (incoming.map fun (q, packet) => (q, packet.message)) timeout)) := by
  have htaken := h.take_idle hidle htake
  rw [← Cluster.take_nodes htake] at hidle ⊢
  -- first the message, then the timeout
  set received := (taken.nodes p).receive Node.followerMessage
    (incoming.map fun (q, packet) => (q, packet.message)) with hreceived
  have hmessage : Lineup P ℓ K [] (taken.setNode p received) ∧ ¬ received.Led := by
    rw [hreceived]
    cases incoming with
    | none =>
      simp only [Option.map_none, Node.receive, Cluster.setNode_self]
      exact ⟨htaken, hidle⟩
    | some m =>
      obtain ⟨q, packet⟩ := m
      obtain ⟨hlawful, hoffice⟩ := h.taken_lawful htake
      rw [← Cluster.take_nodes htake] at hoffice
      have hhold := htaken.hold (p := p) (some packet.message)
      have hidle' : ¬ ((taken.setNode p
          { taken.nodes p with incomingMessage := some packet.message }).nodes p).Led := by
        rw [Cluster.setNode_nodes_self]
        exact hidle
      have hoffice' : packet.message.isElection = false → ((taken.setNode p
          { taken.nodes p with incomingMessage := some packet.message }).nodes ℓ).Led := by
        intro hother
        rw [Cluster.setNode_nodes]
        -- a node in office is not the one that follows
        split
        · rename_i hℓ
          exact absurd (hℓ ▸ hoffice hother) hidle
        · exact hoffice hother
      have hmessage := hhold.followerMessage hidle' q hlawful hoffice'
      rwa [Cluster.setNode_setNode, Cluster.setNode_nodes_self] at hmessage
  unfold Node.follower
  split
  · have hidle' : ¬ ((taken.setNode p received).nodes p).Led := by
      rw [Cluster.setNode_nodes_self]
      exact hmessage.2
    have hend := hmessage.1.election hidle'
      (by rw [Cluster.setNode_nodes_self]; exact followerTimeout_election hmessage.2 timeout)
    rwa [Cluster.setNode_setNode] at hend
  · exact htaken.election hidle (exitLoop_election _)

omit [EmptyCollection V] in
/-- One iteration of `_leader`. -/
theorem leader (h : Lineup P ℓ K [] s) (hready : s.Ready) (hloop : (s.nodes ℓ).loop = .leader)
    {source : Option (Fin n)} {taken : Cluster n V} {incoming : Option (Fin n × Packet n V)}
    {heartbeat : Bool} {expired : Fin n → Bool}
    (hsource : source = none ∨ (s.nodes ℓ).currentRole = .leader ∧
      ((s.nodes ℓ).leaderSends heartbeat expired).loop = .leader)
    (htake : s.take ℓ source = some (taken, incoming))
    (hguard : stableLeader ℓ s (.leader ℓ heartbeat expired source) = true) :
    Lineup P ℓ K [] (taken.setNode ℓ ((s.nodes ℓ).leader heartbeat expired
      (incoming.map fun (q, packet) => (q, packet.message)))) := by
  have hrole := h.leads hloop
  have htaken := h.take_leader htake
  have hsends : (incoming.map fun (q, packet) => (q, packet.message)) ≠ none →
      ((s.nodes ℓ).leaderSends heartbeat expired).loop = .leader := by
    rcases hsource with rfl | ⟨-, hsends⟩
    · simp only [Cluster.take, Option.some.injEq, Prod.mk.injEq] at htake
      simp [← htake.2]
    · exact fun _ => hsends
  have hstay : ∀ q t i u, (incoming.map fun (q, packet) => (q, packet.message)) =
      some (q, .requestVotes t i u) → t ≤ (s.nodes ℓ).currentTerm := by
    intro q t i u hmessage
    obtain ⟨packet, -, htakenMessage, hpacket, -⟩ := Cluster.received_of_take htake hmessage
    simpa [stableLeader, htakenMessage, hpacket] using hguard
  obtain ⟨nd, hf, hready', hcases⟩ :=
    leader_office hrole (hready ℓ) heartbeat expired _ hsends hstay
  -- the request of the message, which was in hand, is in the log
  have hrequest : ((incoming.map fun (q, packet) => (q, packet.message)).bind
      fun m => m.2.request) = incoming.bind fun m => m.2.message.request := by
    cases incoming <;> rfl
  rw [hrequest, ← Cluster.take_nodes htake] at hf
  have hled : (taken.nodes ℓ).Led := by
    rw [Cluster.take_nodes htake]
    exact .inl hloop
  have hrole' : (taken.nodes ℓ).currentRole = .leader := by
    rw [Cluster.take_nodes htake]
    exact hrole
  have hin : Lineup P ℓ K ((incoming.bind fun m => m.2.message.request).toList ++ []) taken := by
    rwa [List.append_nil]
  have hhandled : Lineup P ℓ K [] (taken.setNode ℓ nd) := hin.office_step hled hrole' hf
  rcases hcases with heq | ⟨entry, rest, hqueue, hloop', heq⟩
  · rw [heq]
    exact hhandled
  · have hpopped : Lineup P ℓ K [entry] ((taken.setNode ℓ nd).setNode ℓ
        { (taken.setNode ℓ nd).nodes ℓ with clientQueue := rest }) :=
      hhandled.pop (by rw [Cluster.setNode_nodes_self]; exact hqueue)
    rw [Cluster.setNode_setNode, Cluster.setNode_nodes_self] at hpopped
    have hhand : Lineup P ℓ K ([entry] ++ [])
        (taken.setNode ℓ { nd with clientQueue := rest }) := hpopped
    have hready'' : ({ nd with clientQueue := rest } : Node n V).Ready := hready'.congr rfl rfl
    have hend := hhand.office_step (by rw [Cluster.setNode_nodes_self]; exact .inl hloop')
      (by rw [Cluster.setNode_nodes_self]; exact hf.currentRole.trans hrole')
      (by rw [Cluster.setNode_nodes_self]; exact broadcastAppendEntries_office hready'' entry)
    rwa [Cluster.setNode_setNode, ← heq] at hend

/-- Every step under a stable leader keeps the lineup. -/
theorem exec (h : Lineup P ℓ K [] s) (hready : s.Ready) (hfirst : P 1 ({} : V))
    (hs : s.exec e = some s') (hguard : stableLeader ℓ s e = true)
    (hclient : ∀ p value idNum, e ≠ .clientRequest p value idNum) : Lineup P ℓ K [] s' := by
  obtain ⟨p, rfl, hloop, rfl⟩ | ⟨p, source, timeout, taken, incoming, rfl, hloop, -, htake, rfl⟩ |
    ⟨p, source, timeout, taken, incoming, k, m, rfl, hloop, -, htake, rfl⟩ |
    ⟨p, heartbeat, expired, source, taken, incoming, rfl, hloop, hsource, htake, rfl⟩ |
    ⟨p, value, idNum, rfl, rfl⟩ | ⟨p, rfl, rfl⟩ | ⟨p, rfl, rfl⟩ | ⟨src, dst, i, rfl, rfl⟩ :=
    Cluster.exec_cases hs
  · exact (h.run hready hfirst hloop hguard).publish p
  · have hidle : ¬ (s.nodes p).Led := by simp [Node.Led, hloop]
    exact (h.follower hidle htake timeout).publish p
  · have hidle : ¬ (s.nodes p).Led := by simp [Node.Led, hloop]
    have htaken := h.take_idle hidle htake
    rw [← Cluster.take_nodes htake] at hidle ⊢
    exact (htaken.election hidle (candidate_election hidle k m _ timeout)).publish p
  · obtain rfl := h.office p (.inl hloop)
    exact (h.leader hready hloop hsource htake hguard).publish p
  · exact absurd rfl (hclient p value idNum)
  · have hidle : ¬ (s.nodes p).Led := fun hled => by simp [stableLeader, h.office p hled] at hguard
    exact h.election hidle (.of_talker rfl rfl rfl hidle rfl)
  · have hidle : ¬ (s.nodes p).Led := fun hled => by simp [stableLeader, h.office p hled] at hguard
    unfold Node.unPause
    split
    · exact h.election hidle (.of_talker rfl rfl rfl hidle rfl)
    · rwa [Cluster.setNode_self]
  · simp [stableLeader] at hguard

end Lineup

end DreamboatRpc.Raft
