import DreamboatRpc.Raft.Submission

/-!
# Values that change in place

An entry refers to its value, and whoever holds the same reference may change the value
later. Here a change of values is a map over all entries of a node; nothing a node decides
depends on a value.

## Main results

* `Lineup.revalue` — a change of values that respects their places keeps the lineup
* `Lineup.length_log` — when nothing waits any more, all that was submitted is in the log
-/

namespace DreamboatRpc.Raft

open CS FifoNetwork

variable {n : ℕ} {V : Type*}

/-- An entry with another value. -/
def Entry.map (f : V → V) (e : Entry V) : Entry V := { e with entry := f e.entry }

/-- A message with other values. -/
def Message.map (f : V → V) : Message n V → Message n V
  | .requestVotes term lastLogIndex lastLogTerm => .requestVotes term lastLogIndex lastLogTerm
  | .vote term voteGranted => .vote term voteGranted
  | .heartbeat term leaderId => .heartbeat term leaderId
  | .appendEntries term leaderId prevLogIndex prevLogTerm entries leaderCommit =>
    .appendEntries term leaderId prevLogIndex prevLogTerm (entries.map f) leaderCommit
  | .committal term prevLogIndex prevLogTerm => .committal term prevLogIndex prevLogTerm
  | .acknowledge term success => .acknowledge term success
  | .clientRequest term entries => .clientRequest term (entries.map f)

/-- A packet with other values. -/
def Packet.map (f : V → V) (packet : Packet n V) : Packet n V :=
  ⟨packet.message.map f, packet.cause.map (Message.map f)⟩

/-- A node whose entries have other values. Between two iterations it has no message in
hand and nothing to send. -/
def Node.mapEntries (f : V → V) (nd : Node n V) : Node n V :=
  { nd with
    log := nd.log.map (Entry.map f)
    logHash := nd.logHash.map fun (id, e) => (id, e.map f)
    clientQueue := nd.clientQueue.map (Entry.map f) }

/-- The cluster with other values, in the nodes and on the network. -/
def Cluster.revalue (s : Cluster n V) (f : Fin n → V → V) (g : V → V) : Cluster n V where
  nodes p := (s.nodes p).mapEntries (f p)
  net p q := (s.net p q).map (Packet.map g)

variable {P P' : ℕ → V → Prop} {ℓ p : Fin n} {K : ℕ} {s s' : Cluster n V}
  {f : Fin n → V → V} {g : V → V}

/-- No node has anything to send. -/
def Cluster.Drained (s : Cluster n V) : Prop := ∀ q, (s.nodes q).talker = []

theorem Cluster.Drained.publish (h : ∀ q, q ≠ p → (s.nodes q).talker = []) :
    (s.publish p).Drained := by
  intro q
  by_cases hq : q = p
  · subst hq
    rw [Cluster.publish_nodes_self]
  · rw [Cluster.publish_nodes_of_ne hq]
    exact h q hq

/-- Every step hands all it sends to the network. -/
theorem Cluster.Drained.exec [EmptyCollection V] {e : Event n V} (h : s.Drained)
    (hs : s.exec e = some s') : s'.Drained := by
  have hthread : ∀ {taken : Cluster n V} {p source incoming nd},
      s.take p source = some (taken, incoming) → ((taken.setNode p nd).publish p).Drained := by
    intro taken p source incoming nd htake
    apply Cluster.Drained.publish
    intro q hq
    rw [Cluster.setNode_nodes_of_ne hq, Cluster.take_nodes htake]
    exact h q
  have hclient : ∀ {p nd}, nd.talker = (s.nodes p).talker → (s.setNode p nd).Drained := by
    intro p nd htalker
    exact Cluster.forall_setNode (Q := fun _ x => x.talker = []) (htalker.trans (h p)) h
  obtain ⟨p, -, -, rfl⟩ | ⟨p, source, timeout, taken, incoming, -, -, -, htake, rfl⟩ |
    ⟨p, source, timeout, taken, incoming, k, m, -, -, -, htake, rfl⟩ |
    ⟨p, heartbeat, expired, source, taken, incoming, -, -, -, htake, rfl⟩ |
    ⟨p, value, idNum, -, rfl⟩ | ⟨p, -, rfl⟩ | ⟨p, -, rfl⟩ | ⟨src, dst, i, -, rfl⟩ :=
    Cluster.exec_cases hs
  · have hnone : s.take p none = some (s, none) := rfl
    exact hthread hnone
  · exact hthread htake
  · exact hthread htake
  · exact hthread htake
  · exact hclient rfl
  · exact hclient rfl
  · refine hclient ?_
    unfold Node.unPause
    split <;> rfl
  · exact h

theorem Cluster.Drained.revalue (h : s.Drained) : (s.revalue f g).Drained := h

theorem Message.request_map (message : Message n V) :
    (message.map g).request = message.request.map (Entry.map g) := by
  cases message <;> rfl

theorem Message.isElection_map (message : Message n V) :
    (message.map g).isElection = message.isElection := by
  cases message <;> rfl

theorem inflight_revalue (hdrained : s.Drained) (p q : Fin n) :
    (s.revalue f g).inflight p q = (s.inflight p q).map (Packet.map g) := by
  have htalker : ((s.revalue f g).nodes p).talker = [] := hdrained p
  rw [Cluster.inflight, Cluster.inflight, htalker, hdrained p, addressedTo_nil, List.append_nil,
    List.append_nil]
  rfl

theorem pending_revalue (hdrained : s.Drained) (p : Fin n) : (s.revalue f g).pending ℓ p =
    ((s.inflight p ℓ).filterMap fun packet => packet.message.request).map (Entry.map g) ++
      (s.nodes p).clientQueue.map (Entry.map (f p)) := by
  rw [Cluster.pending, inflight_revalue hdrained, List.filterMap_map, List.map_filterMap]
  congr 2
  funext packet
  exact packet.message.request_map

theorem length_pending_revalue (hdrained : s.Drained) (p : Fin n) :
    ((s.revalue f g).pending ℓ p).length = (s.pending ℓ p).length := by
  rw [pending_revalue hdrained, Cluster.pending]
  simp

theorem Cluster.Ready.revalue (h : s.Ready) : (s.revalue f g).Ready := fun p =>
  ⟨by simpa [Cluster.revalue, Node.mapEntries] using (h p).log, (h p).nextIndex⟩

/-- A change of values that respects their places keeps the lineup. -/
theorem Lineup.revalue (h : Lineup P ℓ K [] s) (hdrained : s.Drained)
    (hf : ∀ q i v, P i v → P' i (f q v)) (hg : ∀ i v, P i v → P' i (g v)) :
    Lineup P' ℓ K [] (s.revalue f g) := by
  have hloop : ∀ q, ((s.revalue f g).nodes q).Led ↔ (s.nodes q).Led := fun _ => Iff.rfl
  have hlength : ((s.revalue f g).nodes ℓ).log.length = (s.nodes ℓ).log.length := by
    simp [Cluster.revalue, Node.mapEntries]
  constructor
  case myId => exact h.myId
  case stored =>
    intro q i e he
    simp only [Cluster.revalue, Node.mapEntries, List.getElem?_map,
      Option.map_eq_some_iff] at he
    obtain ⟨e₀, he₀, rfl⟩ := he
    exact hf q i _ (h.stored q i e₀ he₀)
  case sent =>
    intro p q packet hpacket
    rw [inflight_revalue hdrained] at hpacket
    obtain ⟨packet₀, hpacket₀, rfl⟩ := List.mem_map.mp hpacket
    have hlawful := h.sent p q packet₀ hpacket₀
    unfold Packet.Lawful Packet.map at *
    cases hmessage : packet₀.message with
    | appendEntries t l k u e c =>
      rw [hmessage] at hlawful
      exact hg _ _ hlawful
    | heartbeat t l =>
      rw [hmessage] at hlawful
      exact hlawful
    | clientRequest t e =>
      rw [hmessage] at hlawful
      exact hlawful
    | _ => trivial
  case office => exact h.office
  case early =>
    intro hnot
    obtain ⟨hlog, helection⟩ := h.early hnot
    refine ⟨hlength.trans hlog, fun p q packet hpacket => ?_⟩
    rw [inflight_revalue hdrained] at hpacket
    obtain ⟨packet₀, hpacket₀, rfl⟩ := List.mem_map.mp hpacket
    exact (Message.isElection_map _).trans (helection p q packet₀ hpacket₀)
  case leads => exact h.leads
  case long =>
    rw [hlength]
    exact h.long
  case waiting =>
    obtain ⟨r, hothers, hcount, hplace⟩ := h.waiting
    refine ⟨r, fun q hq => ?_, ?_, ?_⟩
    · rw [← List.length_eq_zero_iff, length_pending_revalue hdrained, hothers q hq]
      rfl
    · rw [hlength, List.nil_append, length_pending_revalue hdrained]
      exact hcount
    · rw [hlength, List.nil_append, pending_revalue hdrained]
      intro j e he
      rw [List.getElem?_append] at he
      simp only [List.nil_append, Cluster.pending, List.getElem?_append] at hplace
      split at he
      · -- an entry on its way to the leader is a copy
        rename_i hj
        rw [List.length_map] at hj
        rw [List.getElem?_map, Option.map_eq_some_iff] at he
        obtain ⟨e₀, he₀, rfl⟩ := he
        exact hg _ _ (hplace j e₀ (by rw [if_pos hj]; exact he₀))
      · -- one in the queue is shared with its node
        rename_i hj
        rw [List.length_map] at hj he
        rw [List.getElem?_map, Option.map_eq_some_iff] at he
        obtain ⟨e₀, he₀, rfl⟩ := he
        exact hf _ _ _ (hplace j e₀ (by rw [if_neg hj]; exact he₀))

/-- The lineup at the start. -/
theorem lineup_init [EmptyCollection V] (hinit : P 0 ({} : V)) :
    Lineup P ℓ 0 [] (Cluster.init : Cluster n V) := by
  have hlog : ∀ q, ((Cluster.init : Cluster n V).nodes q).log = [Node.initialEntry] := fun _ => rfl
  have hinflight : ∀ p q, (Cluster.init : Cluster n V).inflight p q = [] := fun _ _ => rfl
  have hidle : ∀ q, ¬ ((Cluster.init : Cluster n V).nodes q).Led := by
    intro q hled
    rcases hled with hloop | hloop
    · simp [Cluster.init, Node.init] at hloop
    · simp [Cluster.init, Node.init] at hloop
  constructor
  case myId => exact fun _ => rfl
  case stored =>
    intro q i e he
    rw [hlog, List.getElem?_singleton] at he
    split at he
    · rename_i hi
      rw [hi, ← Option.some.inj he]
      exact hinit
    · simp at he
  case sent => simp [hinflight]
  case office => exact fun q hq => absurd hq (hidle q)
  case early => exact fun _ => ⟨rfl, by simp [hinflight]⟩
  case leads => exact fun hloop => absurd (.inl hloop) (hidle ℓ)
  case long => exact fun hled => absurd hled (hidle ℓ)
  case waiting =>
    have hpending : ∀ q, (Cluster.init : Cluster n V).pending ℓ q = [] := fun _ => rfl
    exact ⟨ℓ, fun q _ => hpending q, rfl, by simp [hpending]⟩

/-- When nothing waits any more, every entry that was submitted is in the log. -/
theorem Lineup.length_log (h : Lineup P ℓ K [] s) (hnone : ∀ p, s.pending ℓ p = []) :
    max 2 (s.nodes ℓ).log.length = K + 2 := by
  obtain ⟨r, -, hcount, -⟩ := h.waiting
  simpa [hnone r] using hcount

end DreamboatRpc.Raft
