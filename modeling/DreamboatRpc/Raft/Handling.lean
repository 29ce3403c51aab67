import DreamboatRpc.Raft.Iteration

/-!
# Handling one message

An iteration of a role loop prepares, handles the message it has got, and concludes: a
follower and a candidate look at their timers, a leader at its client queue. This file
takes the handling out of the iteration, for statements about what a node does with one
message and not about the timers.

## Main definitions

* `Node.handle` — what the loop a node is in does with a message
* `Cluster.handling` — the node that handles a message in a step, its sender and the message
* `Event.conclude` — what is left of the iteration then

## Main results

* `handling_cases` — a node handles messages only in the loop of its role, and concludes
-/

namespace DreamboatRpc.Raft

variable {n : ℕ} {V : Type*}

/-- What a node does with a message in the loop it is in. -/
def Node.handle (nd : Node n V) (sender : Fin n) (message : Message n V) : Node n V :=
  match nd.loop with
  | .follower => nd.followerMessage sender message
  | .candidate votesForMe totalVotes => nd.candidateMessage votesForMe totalVotes sender message
  | .leader => nd.leaderMessage sender message
  | .run | .crashed => nd

section Handle

variable {nd : Node n V} (q : Fin n) (message : Message n V)

theorem Node.handle_follower (h : nd.loop = .follower) :
    nd.handle q message = nd.followerMessage q message := by
  simp only [Node.handle, h]

theorem Node.handle_candidate {k m : ℕ} (h : nd.loop = .candidate k m) :
    nd.handle q message = nd.candidateMessage k m q message := by
  simp only [Node.handle, h]

theorem Node.handle_leader (h : nd.loop = .leader) :
    nd.handle q message = nd.leaderMessage q message := by
  simp only [Node.handle, h]

end Handle

/-- What is left of an iteration when its message has been handled. -/
def Event.conclude : Event n V → Node n V → Node n V
  | .follower _ _ timeout, nd =>
    if timeout then { nd with currentRole := .candidate, loop := .run } else nd
  | .candidate _ _ timeout, nd =>
    if timeout ∧ nd.loop ≠ .run then { nd with currentRole := .candidate, loop := .run } else nd
  | .leader _ _ _ _, nd => if nd.loop = .leader then nd.leaderClientRequest else nd
  | .run _, nd | .clientRequest _ _ _, nd | .pause _, nd | .unPause _, nd | .lose _ _ _, nd => nd

namespace Cluster

variable {s s' : Cluster n V} {e : Event n V} {nd : Node n V} {q : Fin n}
  {message : Message n V}

/-- The node that handles a message in an event, right before it does, with the sender and
the message. A leader has sent what was due by then. -/
def handling (s : Cluster n V) : Event n V → Option (Node n V × Fin n × Message n V)
  | .follower p source _ | .candidate p source _ =>
    (s.received p source).map fun (q, message) =>
      ({ s.nodes p with incomingMessage := some message }, q, message)
  | .leader p heartbeat expired source =>
    (s.received p source).map fun (q, message) =>
      ({ (s.nodes p).leaderSends heartbeat expired with incomingMessage := some message },
        q, message)
  | .run _ | .clientRequest _ _ _ | .pause _ | .unPause _ | .lose _ _ _ => none

variable [EmptyCollection V]

/-- An event in which a message is handled, by the loop of the role of the node. -/
theorem handling_cases (hs : s.exec e = some s') (h : s.handling e = some (nd, q, message)) :
    ∃ p held, s.received p (some q) = some (q, message) ∧
      nd = { held with incomingMessage := some message } ∧
      (held = s.nodes p ∨ ∃ talker, held = { s.nodes p with talker := talker }) ∧
      (nd.currentRole = .follower ∧ nd.loop = .follower ∨
        (nd.currentRole = .candidate ∧ ∃ k m, nd.loop = .candidate k m) ∨
        nd.currentRole = .leader ∧ nd.loop = .leader) ∧
      s.iteration e = some (p, e.conclude (nd.handle q message)) := by
  obtain ⟨p, rfl, -, -⟩ | ⟨p, source, timeout, taken, incoming, rfl, hloop, hrole, -, -⟩ |
    ⟨p, source, timeout, taken, incoming, k, m, rfl, hloop, hrole, -, -⟩ |
    ⟨p, heartbeat, expired, source, taken, incoming, rfl, hloop, hrole, -, -⟩ |
    ⟨p, value, idNum, rfl, -⟩ | ⟨p, rfl, -⟩ | ⟨p, rfl, -⟩ | ⟨src, dst, i, rfl, -⟩ :=
    exec_cases hs
  · simp [handling] at h
  · -- a loop looks for a message only while the node is in its role
    simp only [handling, Option.map_eq_some_iff, Prod.mk.injEq] at h
    obtain ⟨⟨q', message'⟩, hreceived, rfl, rfl, rfl⟩ := h
    obtain ⟨rfl, -⟩ := mem_inflight_of_received hreceived
    have hrole' := hrole.resolve_left (by simp)
    refine ⟨p, s.nodes p, hreceived, rfl, .inl rfl, .inl ⟨hrole', hloop⟩, ?_⟩
    have hheld : ({ s.nodes p with incomingMessage := some message' } : Node n V).loop =
        .follower := hloop
    rw [Node.handle_follower _ _ hheld]
    simp only [iteration, hreceived, Node.follower, if_pos hrole', Node.receive, Event.conclude]
  · simp only [handling, Option.map_eq_some_iff, Prod.mk.injEq] at h
    obtain ⟨⟨q', message'⟩, hreceived, rfl, rfl, rfl⟩ := h
    obtain ⟨rfl, -⟩ := mem_inflight_of_received hreceived
    have hrole' := hrole.resolve_left (by simp)
    refine ⟨p, s.nodes p, hreceived, rfl, .inl rfl, .inr (.inl ⟨hrole', k, m, hloop⟩), ?_⟩
    have hheld : ({ s.nodes p with incomingMessage := some message' } : Node n V).loop =
        .candidate k m := hloop
    rw [Node.handle_candidate _ _ hheld]
    simp only [iteration, hloop, hreceived, Node.candidate, if_pos hrole', Node.receive,
      Event.conclude]
  · simp only [handling, Option.map_eq_some_iff, Prod.mk.injEq] at h
    obtain ⟨⟨q', message'⟩, hreceived, rfl, rfl, rfl⟩ := h
    obtain ⟨rfl, -⟩ := mem_inflight_of_received hreceived
    obtain ⟨hrole', hsends⟩ := hrole.resolve_left (by simp)
    obtain ⟨talker, loop, heq⟩ := Node.leaderSends_eq (s.nodes p) heartbeat expired
    -- the thread is still in the loop, or it would not look for a message
    have hsame : (s.nodes p).leaderSends heartbeat expired =
        { s.nodes p with talker := talker } := by
      have hsends' : loop = (s.nodes p).loop := by
        rw [heq] at hsends
        exact hsends.trans hloop.symm
      rw [heq, hsends']
    -- before it looks for a message a leader has sent what was due
    have hheld : ({ (s.nodes p).leaderSends heartbeat expired with
        incomingMessage := some message' } : Node n V).loop = .leader := hsends
    refine ⟨p, _, hreceived, rfl, .inr ⟨talker, hsame⟩, .inr (.inr ⟨?_, hheld⟩), ?_⟩
    · rw [hsame]
      exact hrole'
    · rw [Node.handle_leader _ _ hheld]
      simp only [iteration, hreceived, Node.leader, if_pos hrole', if_pos hsends, Node.receive,
        Event.conclude]
  · simp [handling] at h
  · simp [handling] at h
  · simp [handling] at h
  · simp [handling] at h

/-- The node that handles a message is as usable as it was before the step. -/
theorem Ready.handling (h : s.Ready) (hs : s.exec e = some s')
    (hhandling : s.handling e = some (nd, q, message)) : nd.Ready := by
  obtain ⟨p, held, -, rfl, hheld, -, -⟩ := handling_cases hs hhandling
  rcases hheld with rfl | ⟨talker, rfl⟩
  · exact (h p).congr rfl rfl
  · exact (h p).congr rfl rfl

end Cluster

end DreamboatRpc.Raft
