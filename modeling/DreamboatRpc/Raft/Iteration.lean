import DreamboatRpc.Raft.Quiet

/-!
# Iterations as functions of state and event

For statements about what a node does and sends in a step: the node whose thread runs,
as its iteration leaves it, with everything it has sent still in its talker. All other
steps are calls of the client interface, which change at most a queue and a role, or
lose a message.

## Main definitions

* `Cluster.received` — the message at the head of a channel, with its sender
* `Cluster.iteration` — the node whose thread runs in a step, as its iteration leaves it
* `Cluster.incoming` — the message an event makes a node read

## Main results

* `exec_iteration` — a step publishes an iteration, or is a call or a loss
* `exec_node` — the same for each node
* `exec_idle` — what happens to a node whose thread does not run
-/

namespace DreamboatRpc.Raft

open CS FifoNetwork

variable {n : ℕ} {V : Type*}

/-- One step of the cluster. -/
abbrev Step (n : ℕ) (V : Type*) := Transition (Cluster n V) (Event n V)

/-- What a call of the client interface does to a node: it may add to its queue, pause it,
or let it go on as a follower. -/
def Node.Called (nd nd' : Node n V) : Prop :=
  ∃ queue role, nd' = { nd with clientQueue := queue, currentRole := role } ∧
    (role = .leader → nd.currentRole = .leader)

theorem Node.Called.refl {nd : Node n V} : nd.Called nd := ⟨_, _, rfl, id⟩

namespace Cluster

variable {s s' taken : Cluster n V} {e : Event n V} {p q : Fin n} {source : Option (Fin n)}

/-- The message a node gets from a channel, with its sender. -/
def received (s : Cluster n V) (p : Fin n) (source : Option (Fin n)) :
    Option (Fin n × Message n V) :=
  source.bind fun q => (s.net q p).head?.map fun packet => (q, packet.message)

/-- The node whose thread runs in an event, as its iteration leaves it. -/
def iteration [EmptyCollection V] (s : Cluster n V) : Event n V → Option (Fin n × Node n V)
  | .run p => some (p, (s.nodes p).run)
  | .follower p source timeout => some (p, (s.nodes p).follower (s.received p source) timeout)
  | .candidate p source timeout =>
    match (s.nodes p).loop with
    | .candidate votesForMe totalVotes =>
      some (p, (s.nodes p).candidate votesForMe totalVotes (s.received p source) timeout)
    | _ => none
  | .leader p heartbeat expired source =>
    some (p, (s.nodes p).leader heartbeat expired (s.received p source))
  | .clientRequest _ _ _ | .pause _ | .unPause _ | .lose _ _ _ => none

/-- The message a node reads in an event, if it reads one. -/
def incoming (s : Cluster n V) : Event n V → Option (Fin n × Message n V)
  | .follower p source _ | .candidate p source _ | .leader p _ _ source => s.received p source
  | .run _ | .clientRequest _ _ _ | .pause _ | .unPause _ | .lose _ _ _ => none

theorem received_eq_of_take {incoming : Option (Fin n × Packet n V)}
    (h : s.take p source = some (taken, incoming)) :
    (incoming.map fun (q, packet) => (q, packet.message)) = s.received p source := by
  obtain ⟨rfl, -, rfl⟩ | ⟨q, packet, rfl, rfl, -, hnet, -⟩ := take_cases h
  · rfl
  · simp [received, hnet]

/-- What is received was under way. -/
theorem mem_inflight_of_received {message : Message n V}
    (h : s.received p source = some (q, message)) :
    source = some q ∧ ∃ packet ∈ s.inflight q p, packet.message = message := by
  cases source with
  | none => simp [received] at h
  | some r =>
    simp only [received, Option.bind_some, Option.map_eq_some_iff, Prod.mk.injEq] at h
    obtain ⟨packet, hhead, rfl, hmessage⟩ := h
    exact ⟨rfl, packet, mem_inflight_of_net (List.mem_of_head? hhead), hmessage⟩

theorem taken_of_received {message : Message n V}
    (h : s.received p source = some (q, message)) :
    (s.taken p source).map Packet.message = some message := by
  cases source with
  | none => simp [received] at h
  | some r =>
    simp only [received, Option.bind_some, Option.map_eq_some_iff, Prod.mk.injEq] at h
    obtain ⟨packet, hhead, -, rfl⟩ := h
    simp [Cluster.taken, hhead]

theorem taken_eq_received (s : Cluster n V) (p : Fin n) (source : Option (Fin n)) :
    (s.taken p source).map Packet.message = (s.received p source).map Prod.snd := by
  cases source with
  | none => rfl
  | some q => simp [Cluster.taken, received, Option.map_map, Function.comp_def]

/-- What is left under way when node `p` has taken what it reads. -/
structure TakenFor (taken s : Cluster n V) (p : Fin n) (incoming : Option (Fin n × Message n V)) :
    Prop extends taken.Fewer s where
  head : ∀ q message, incoming = some (q, message) →
    ∃ packet, packet.message = message ∧ s.inflight q p = packet :: taken.inflight q p

theorem takenFor_of_take {incoming : Option (Fin n × Packet n V)}
    (h : s.take p source = some (taken, incoming)) :
    TakenFor taken s p (s.received p source) := by
  refine ⟨take_fewer h, fun q message hreceived => ?_⟩
  rw [← received_eq_of_take h] at hreceived
  obtain ⟨⟨q', packet⟩, rfl, heq⟩ := Option.map_eq_some_iff.mp hreceived
  simp only [Prod.mk.injEq] at heq
  obtain ⟨rfl, hmessage⟩ := heq
  exact ⟨packet, hmessage, take_inflight_head h⟩

/-- A step publishes what an iteration has done, after a message was taken if one was; or
it is a call of the client interface, or the loss of a message. -/
theorem exec_iteration [EmptyCollection V] (hs : s.exec e = some s') :
    (∃ (p : Fin n) (nd : Node n V) (taken : Cluster n V), s.iteration e = some (p, nd) ∧
      TakenFor taken s p (s.incoming e) ∧ s' = (taken.setNode p nd).publish p) ∨
    (s.iteration e = none ∧
      ((∃ p nd, (s.nodes p).Called nd ∧ s' = s.setNode p nd) ∨ s'.Fewer s)) := by
  obtain ⟨p, rfl, -, rfl⟩ | ⟨p, source, timeout, taken, incoming, rfl, -, -, htake, rfl⟩ |
    ⟨p, source, timeout, taken, incoming, k, m, rfl, hloop, -, htake, rfl⟩ |
    ⟨p, heartbeat, expired, source, taken, incoming, rfl, -, -, htake, rfl⟩ |
    ⟨p, value, idNum, rfl, rfl⟩ | ⟨p, rfl, rfl⟩ | ⟨p, rfl, rfl⟩ | ⟨src, dst, i, rfl, rfl⟩ :=
    exec_cases hs
  · -- entering a loop takes no message
    exact .inl ⟨p, _, s, rfl, ⟨.refl, by simp [Cluster.incoming]⟩, rfl⟩
  · refine .inl ⟨p, _, taken, rfl, takenFor_of_take htake, ?_⟩
    rw [received_eq_of_take htake]
  · -- the tally of a candidate is part of its loop
    refine .inl ⟨p, (s.nodes p).candidate k m (s.received p source) timeout, taken, ?_,
      takenFor_of_take htake, ?_⟩
    · simp only [iteration, hloop]
    · rw [received_eq_of_take htake]
  · refine .inl ⟨p, _, taken, rfl, takenFor_of_take htake, ?_⟩
    rw [received_eq_of_take htake]
  · -- `client_request`, `pause` and `un_pause` touch the queue and the role
    exact .inr ⟨rfl, .inl ⟨p, _, ⟨_, _, rfl, id⟩, rfl⟩⟩
  · exact .inr ⟨rfl, .inl ⟨p, _, ⟨_, _, rfl, by simp⟩, rfl⟩⟩
  · refine .inr ⟨rfl, .inl ⟨p, _, ?_, rfl⟩⟩
    unfold Node.unPause
    split
    · exact ⟨_, _, rfl, by simp⟩
    · exact ⟨_, _, rfl, id⟩
  · exact .inr ⟨rfl, .inr (lose_fewer src dst i)⟩

/-- The step of the node whose thread runs. -/
theorem exec_taken [EmptyCollection V] {nd : Node n V} (hs : s.exec e = some s')
    (hiteration : s.iteration e = some (p, nd)) :
    ∃ taken, TakenFor taken s p (s.incoming e) ∧ s' = (taken.setNode p nd).publish p := by
  obtain ⟨p', nd', taken, hiteration', htaken, rfl⟩ | ⟨hidle, -⟩ := exec_iteration hs
  · rw [hiteration, Option.some.injEq, Prod.mk.injEq] at hiteration'
    obtain ⟨rfl, rfl⟩ := hiteration'
    exact ⟨taken, htaken, rfl⟩
  · simp [hidle] at hiteration

/-- What a step does to one node: its iteration, which it publishes, or at most a call. -/
theorem exec_node [EmptyCollection V] (hs : s.exec e = some s') (q : Fin n) :
    (∃ nd, s.iteration e = some (q, nd) ∧
      s'.nodes q = { nd with talker := [], incomingMessage := none }) ∨
    ((∀ nd, s.iteration e ≠ some (q, nd)) ∧ (s.nodes q).Called (s'.nodes q)) := by
  obtain ⟨p, nd, taken, hiteration, hfewer, rfl⟩ |
    ⟨hidle, ⟨p, nd, hcalled, rfl⟩ | hfewer⟩ := exec_iteration hs
  · -- the node whose thread runs, or another one
    by_cases hq : q = p
    · subst hq
      refine .inl ⟨nd, hiteration, ?_⟩
      rw [publish_nodes_self, setNode_nodes_self]
    · refine .inr ⟨fun nd' h => ?_, ?_⟩
      · rw [hiteration, Option.some.injEq, Prod.mk.injEq] at h
        exact hq h.1.symm
      · rw [publish_nodes_of_ne hq, setNode_nodes_of_ne hq, hfewer.nodes]
        exact .refl
  · refine .inr ⟨fun nd' h => by simp [hidle] at h, ?_⟩
    rw [setNode_nodes]
    split
    · rename_i hq
      rwa [hq]
    · exact .refl
  · refine .inr ⟨fun nd' h => by simp [hidle] at h, ?_⟩
    rw [hfewer.nodes]
    exact .refl

/-- What happens to a node whose thread does not run: a client calls it, or nothing does. -/
theorem exec_idle [EmptyCollection V] (hs : s.exec e = some s')
    (hidle : ∀ nd, s.iteration e ≠ some (q, nd)) :
    s'.nodes q = s.nodes q ∨
    (∃ value idNum, e = .clientRequest q value idNum ∧
      s'.nodes q = (s.nodes q).clientRequest value idNum) ∨
    (e = .pause q ∧ s'.nodes q = (s.nodes q).pause) ∨
    (e = .unPause q ∧ s'.nodes q = (s.nodes q).unPause) := by
  obtain ⟨p, nd, taken, hiteration, htaken, rfl⟩ | ⟨hnone, -⟩ := exec_iteration hs
  · -- the thread is that of another node
    have hq : q ≠ p := by
      rintro rfl
      exact hidle nd hiteration
    left
    rw [publish_nodes_of_ne hq, setNode_nodes_of_ne hq, htaken.nodes]
  · obtain ⟨p, rfl, -, -⟩ | ⟨p, source, timeout, taken, incoming, rfl, -, -, -, -⟩ |
      ⟨p, source, timeout, taken, incoming, k, m, rfl, hloop, -, -, -⟩ |
      ⟨p, heartbeat, expired, source, taken, incoming, rfl, -, -, -, -⟩ |
      ⟨p, value, idNum, rfl, rfl⟩ | ⟨p, rfl, rfl⟩ | ⟨p, rfl, rfl⟩ | ⟨src, dst, i, rfl, rfl⟩ :=
      exec_cases hs
    · simp [iteration] at hnone
    · simp [iteration] at hnone
    · simp [iteration, hloop] at hnone
    · simp [iteration] at hnone
    · by_cases hq : q = p
      · subst hq
        exact .inr (.inl ⟨value, idNum, rfl, setNode_nodes_self⟩)
      · exact .inl (setNode_nodes_of_ne hq)
    · by_cases hq : q = p
      · subst hq
        exact .inr (.inr (.inl ⟨rfl, setNode_nodes_self⟩))
      · exact .inl (setNode_nodes_of_ne hq)
    · by_cases hq : q = p
      · subst hq
        exact .inr (.inr (.inr ⟨rfl, setNode_nodes_self⟩))
      · exact .inl (setNode_nodes_of_ne hq)
    · exact .inl rfl

/-- A thread runs the loop its node is in. -/
theorem iteration_cases [EmptyCollection V] {nd : Node n V} (hs : s.exec e = some s')
    (hiteration : s.iteration e = some (p, nd)) :
    (e = .run p ∧ (s.nodes p).loop = .run ∧ nd = (s.nodes p).run) ∨
    (∃ source timeout, e = .follower p source timeout ∧ (s.nodes p).loop = .follower ∧
      nd = (s.nodes p).follower (s.received p source) timeout) ∨
    (∃ source timeout k m, e = .candidate p source timeout ∧
      (s.nodes p).loop = .candidate k m ∧
      nd = (s.nodes p).candidate k m (s.received p source) timeout) ∨
    (∃ heartbeat expired source, e = .leader p heartbeat expired source ∧
      (s.nodes p).loop = .leader ∧
      nd = (s.nodes p).leader heartbeat expired (s.received p source)) := by
  obtain ⟨p', rfl, hloop, -⟩ | ⟨p', source, timeout, taken, incoming, rfl, hloop, -, -, -⟩ |
    ⟨p', source, timeout, taken, incoming, k, m, rfl, hloop, -, -, -⟩ |
    ⟨p', heartbeat, expired, source, taken, incoming, rfl, hloop, -, -, -⟩ |
    ⟨p', value, idNum, rfl, -⟩ | ⟨p', rfl, -⟩ | ⟨p', rfl, -⟩ | ⟨src, dst, i, rfl, -⟩ :=
    exec_cases hs
  · simp only [iteration, Option.some.injEq, Prod.mk.injEq] at hiteration
    obtain ⟨rfl, rfl⟩ := hiteration
    exact .inl ⟨rfl, hloop, rfl⟩
  · simp only [iteration, Option.some.injEq, Prod.mk.injEq] at hiteration
    obtain ⟨rfl, rfl⟩ := hiteration
    exact .inr (.inl ⟨source, timeout, rfl, hloop, rfl⟩)
  · simp only [iteration, hloop, Option.some.injEq, Prod.mk.injEq] at hiteration
    obtain ⟨rfl, rfl⟩ := hiteration
    exact .inr (.inr (.inl ⟨source, timeout, k, m, rfl, hloop, rfl⟩))
  · simp only [iteration, Option.some.injEq, Prod.mk.injEq] at hiteration
    obtain ⟨rfl, rfl⟩ := hiteration
    exact .inr (.inr (.inr ⟨heartbeat, expired, source, rfl, hloop, rfl⟩))
  · simp [iteration] at hiteration
  · simp [iteration] at hiteration
  · simp [iteration] at hiteration
  · simp [iteration] at hiteration

/-- In the loop of a follower a message is taken only by a node that is one. -/
theorem follower_of_received [EmptyCollection V] {timeout : Bool} {x : Fin n × Message n V}
    (hs : s.exec (.follower p source timeout) = some s')
    (hreceived : s.received p source = some x) : (s.nodes p).currentRole = .follower := by
  obtain ⟨rfl, -⟩ := mem_inflight_of_received hreceived
  simp only [exec] at hs
  split at hs
  · rename_i hcond
    exact hcond.2.resolve_left (by simp)
  · cases hs

/-- The thread of a node in the loop of a candidate runs that loop. -/
theorem event_of_candidate [EmptyCollection V] {nd : Node n V} {k m : ℕ}
    (hs : s.exec e = some s') (hiteration : s.iteration e = some (p, nd))
    (hloop : (s.nodes p).loop = .candidate k m) :
    ∃ source timeout, e = .candidate p source timeout := by
  obtain ⟨_, hother, _⟩ | ⟨_, _, _, hother, _⟩ | ⟨source, timeout, k', m', rfl, -, -⟩ |
    ⟨_, _, _, _, hother, _⟩ := iteration_cases hs hiteration
  · simp [hloop] at hother
  · simp [hloop] at hother
  · exact ⟨source, timeout, rfl⟩
  · simp [hloop] at hother

/-- The thread of a node in the loop of a follower runs that loop. -/
theorem event_of_follower [EmptyCollection V] {nd : Node n V}
    (hs : s.exec e = some s') (hiteration : s.iteration e = some (p, nd))
    (hloop : (s.nodes p).loop = .follower) :
    ∃ source timeout, e = .follower p source timeout := by
  obtain ⟨_, hother, _⟩ | ⟨source, timeout, rfl, -, -⟩ | ⟨_, _, _, _, _, hother, _⟩ |
    ⟨_, _, _, _, hother, _⟩ := iteration_cases hs hiteration
  · simp [hloop] at hother
  · exact ⟨source, timeout, rfl⟩
  · simp [hloop] at hother
  · simp [hloop] at hother

end Cluster

end DreamboatRpc.Raft
