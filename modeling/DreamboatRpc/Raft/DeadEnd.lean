import DreamboatRpc.Raft.EveryoneLeads
import DreamboatRpc.Raft.Sending
import DreamboatRpc.Raft.Sends

/-!
# A cluster of leaders

A leader only listens to requests for votes, to acknowledges and to client requests, and none
of these is sent by a leader. Once all nodes lead and nothing is under way, nobody steps down
and nobody answers any more: requests are still appended, and nothing is ever committed.

## Main definitions

* `Message.Unheard` — the messages a leader ignores
* `Node.Presides` — a leader that has gone on, and has committed nothing
* `Cluster.Deadlocked` — all nodes preside, and hear nothing they listen to

## Main results

* `leader_presides` — an iteration of a leader that is told nothing it listens to
* `dead_end` — the cluster can come to such an end from every reachable state
-/

namespace DreamboatRpc.Raft

open CS FifoNetwork TransitionSystem

variable {n : ℕ} {V : Type*}

/-- The messages `_leader` ignores. -/
def Message.Unheard : Message n V → Prop
  | .vote _ _ | .heartbeat _ _ | .appendEntries _ _ _ _ _ _ | .committal _ _ _ => True
  | .requestVotes _ _ _ | .acknowledge _ _ | .clientRequest _ _ => False

/-! ## One iteration -/

namespace Node

variable {nd nd' nd'' : Node n V}

/-- `nd'` leads in the term of `nd`; it may have appended entries, but committed none. -/
structure Presides (nd nd' : Node n V) : Prop where
  currentRole : nd'.currentRole = .leader
  loop : nd'.loop = .leader
  myId : nd'.myId = nd.myId
  currentTerm : nd'.currentTerm = nd.currentTerm
  commitIndex : nd'.commitIndex = nd.commitIndex
  log : nd.log <+: nd'.log

theorem Presides.refl (hrole : nd.currentRole = .leader) (hloop : nd.loop = .leader) :
    nd.Presides nd :=
  ⟨hrole, hloop, rfl, rfl, rfl, List.prefix_rfl⟩

theorem Presides.trans (h : nd.Presides nd') (h' : nd'.Presides nd'') : nd.Presides nd'' :=
  ⟨h'.currentRole, h'.loop, h'.myId.trans h.myId, h'.currentTerm.trans h.currentTerm,
    h'.commitIndex.trans h.commitIndex, h.log.trans h'.log⟩

theorem leaderMessage_of_unheard (nd : Node n V) (q : Fin n) {message : Message n V}
    (h : message.Unheard) : nd.leaderMessage q message = nd := by
  cases message with
  | requestVotes _ _ _ => exact h.elim
  | acknowledge _ _ => exact h.elim
  | clientRequest _ _ => exact h.elim
  | _ => rfl

/-- The oldest request of its queue is all that a leader appends by itself. -/
theorem leaderClientRequest_presides (hrole : nd.currentRole = .leader)
    (hloop : nd.loop = .leader) : nd.Presides nd.leaderClientRequest := by
  unfold leaderClientRequest
  split
  · exact .refl hrole hloop
  · rename_i entry rest _
    obtain ⟨talker, next, reached, heq⟩ :=
      ({ nd with clientQueue := rest } : Node n V).broadcastAppendEntries_eq entry
    rw [heq]
    exact ⟨hrole, hloop, rfl, rfl, rfl, List.prefix_append _ _⟩

/-- A leader that is told nothing it listens to stays in office and commits nothing. -/
theorem leader_presides (hsend : nd.Sendable) (hrole : nd.currentRole = .leader)
    (hloop : nd.loop = .leader) (heartbeat : Bool) (expired : Fin n → Bool)
    {incoming : Option (Fin n × Message n V)}
    (hunheard : ∀ q message, incoming = some (q, message) → message.Unheard) :
    nd.Presides (nd.leader heartbeat expired incoming) := by
  obtain ⟨talker, hsends⟩ := leaderSends_of_nextIndex hsend.next heartbeat expired
  have hreceive : ∃ message, (nd.leaderSends heartbeat expired).receive leaderMessage incoming =
      { nd with talker := talker, incomingMessage := message } := by
    rw [hsends]
    cases incoming with
    | none => exact ⟨_, rfl⟩
    | some m => exact ⟨_, leaderMessage_of_unheard _ m.1 (hunheard m.1 m.2 rfl)⟩
  obtain ⟨message, hreceive⟩ := hreceive
  have hstays : (nd.leaderSends heartbeat expired).loop = .leader := by
    rw [hsends]
    exact hloop
  unfold leader
  simp only [if_pos hrole, if_pos hstays, hreceive, if_pos hloop]
  have hreads : nd.Presides { nd with talker := talker, incomingMessage := message } :=
    ⟨hrole, hloop, rfl, rfl, rfl, List.prefix_rfl⟩
  exact hreads.trans (leaderClientRequest_presides hrole hloop)

end Node

/-! ## All steps -/

namespace Cluster

variable {s s' t : Cluster n V} {e : Event n V}

/-- All nodes preside as they did in `t`, and nothing is under way that they listen to. -/
structure Deadlocked (t s : Cluster n V) : Prop where
  alive : s.Alive
  ids : ∀ p, (s.nodes p).myId = p
  underway : s.Underway fun _ _ message => message.Unheard
  nodes : ∀ p, (t.nodes p).Presides (s.nodes p)

variable [EmptyCollection V]

/-- Where all nodes lead, the loop that runs is that of a leader. -/
theorem Deadlocked.iteration (h : t.Deadlocked s) (hs : s.exec e = some s') {p : Fin n}
    {nd : Node n V} (hiteration : s.iteration e = some (p, nd)) :
    (s.nodes p).Presides nd ∧
      (s.nodes p).Sends (fun _ _ message => message.Unheard) nd := by
  have hrole := (h.nodes p).currentRole
  have hloop := (h.nodes p).loop
  obtain ⟨-, hother, -⟩ | ⟨_, _, -, hother, -⟩ | ⟨_, _, _, _, -, hother, -⟩ |
    ⟨heartbeat, expired, source, -, -, rfl⟩ := iteration_cases hs hiteration
  · simp [hloop] at hother
  · simp [hloop] at hother
  · simp [hloop] at hother
  · have hpresides : (s.nodes p).Presides
        ((s.nodes p).leader heartbeat expired (s.received p source)) := by
      refine Node.leader_presides (h.alive.sendable p hloop) hrole hloop heartbeat expired ?_
      intro q message hreceived
      obtain ⟨-, packet, hpacket, rfl⟩ := mem_inflight_of_received hreceived
      exact h.underway q p packet hpacket
    have hleads : Leads (n := n) (V := V) Message.Unheard :=
      ⟨fun _ _ => trivial, fun _ _ _ _ _ _ => trivial, fun _ _ _ => trivial⟩
    exact ⟨hpresides, (leader_sent hleads (fun _ => trivial) (h.alive.ready p) heartbeat expired
      (s.received p source)).sends hpresides.myId⟩

/-- Only its own thread and `pause` take a leader out of office. -/
theorem leader_of_idle (hpause : ∀ p, e ≠ .pause p) (hs : s.exec e = some s') {q : Fin n}
    (hidle : ∀ nd, s.iteration e ≠ some (q, nd)) (hrole : (s.nodes q).currentRole = .leader) :
    (s'.nodes q).currentRole = .leader := by
  obtain heq | ⟨value, idNum, -, heq⟩ | ⟨rfl, -⟩ | ⟨-, heq⟩ := exec_idle hs hidle
  · rwa [heq]
  · rw [heq]
    exact hrole
  · exact absurd rfl (hpause q)
  · -- a leader is not paused, so there is nothing to undo
    rw [heq, Node.unPause, if_neg (by simp [hrole])]
    exact hrole

/-- Whatever is said or done while all nodes lead, they go on leading. -/
theorem Deadlocked.exec (h : t.Deadlocked s) (hpause : ∀ p, e ≠ .pause p)
    (hs : s.exec e = some s') : t.Deadlocked s' := by
  refine ⟨h.alive.exec hs, ids_exec h.ids (fun p nd hnd => (h.iteration hs hnd).2.myId) hs,
    h.underway.exec h.ids (fun p nd hnd => (h.iteration hs hnd).2) hs, fun p => ?_⟩
  refine (h.nodes p).trans ?_
  obtain ⟨nd, hiteration, heq⟩ | ⟨hidle, hcalled⟩ := exec_node hs p
  · obtain ⟨hrole, hloop, hid, hterm, hcommit, hlog⟩ := (h.iteration hs hiteration).1
    rw [heq]
    exact ⟨hrole, hloop, hid, hterm, hcommit, hlog⟩
  · have hrole := leader_of_idle hpause hs hidle (h.nodes p).currentRole
    obtain ⟨queue, role, heq, -⟩ := hcalled
    rw [heq] at hrole ⊢
    exact ⟨hrole, (h.nodes p).loop, rfl, rfl, rfl, List.prefix_rfl⟩

omit [EmptyCollection V] in
/-- Once all nodes lead, it is enough to lose what is under way. -/
theorem Ordered.deadlocked (h : s.Ordered)
    (hlead : ∀ p, (s.nodes p).loop = .leader ∧ (s.nodes p).currentRole = .leader) :
    Deadlocked { s with net := FifoNetwork.empty } { s with net := FifoNetwork.empty } := by
  refine ⟨h.alive.network _, fun p => (h.talked p).1, ?_, fun p => .refl (hlead p).2 (hlead p).1⟩
  intro p q packet hpacket
  -- between two iterations a talker is empty
  have htalker := (h.talked p).2
  simp [inflight, FifoNetwork.empty, htalker] at hpacket

end Cluster

/-! ## The end -/

variable [EmptyCollection V] {s : Cluster n V}

theorem Cluster.Deadlocked.leads {t u : Cluster n V} (h : t.Deadlocked t)
    (hleads : (unreliableSystem n V).LeadsTo (fun _ e => ∀ p, e ≠ .event (.pause p)) t u) :
    t.Deadlocked u := by
  refine TransitionSystem.LeadsTo.invariant (I := t.Deadlocked) ?_ hleads h
  intro s e s' hbefore hpause hstep
  cases e with
  | event e =>
    have hcall : ∀ p, e ≠ .pause p := by
      rintro p rfl
      exact hpause p rfl
    exact hbefore.exec hcall hstep
  | rearrange net =>
    obtain ⟨hnet, rfl⟩ := hstep
    exact ⟨hbefore.alive.network net, hbefore.ids, hbefore.underway.rearranges hnet, hbefore.nodes⟩

/-- From every reachable state, without a call of `pause`, the cluster can come to a state `t`
after which nothing is committed any more: whatever happens then and whatever the network does
with the messages, as long as `pause` is not called, all nodes go on as leaders of their
terms, append to their logs, and stay with the commit index they have. -/
theorem dead_end (h : (clusterSystem n V).Reachable unguarded s) :
    ∃ t, (clusterSystem n V).LeadsTo (fun _ e => ∀ p, e ≠ .pause p) s t ∧
      ∀ u, (unreliableSystem n V).LeadsTo (fun _ e => ∀ p, e ≠ .event (.pause p)) t u → ∀ p,
        (u.nodes p).currentRole = .leader ∧ (u.nodes p).loop = .leader ∧
          (u.nodes p).currentTerm = (t.nodes p).currentTerm ∧
          (u.nodes p).commitIndex = (t.nodes p).commitIndex ∧
          (t.nodes p).log <+: (u.nodes p).log := by
  obtain ⟨s', term, hleads, hordered, hall⟩ := all_come_to_lead (Cluster.ordered_of_reachable h)
  have hdead := hordered.deadlocked fun p => ⟨(hall p).1, (hall p).2.1⟩
  refine ⟨{ s' with net := FifoNetwork.empty }, ?_, fun u hu p => ?_⟩
  · have hunpaused : (clusterSystem n V).LeadsTo (fun _ e => ∀ p, e ≠ .pause p) s s' := by
      refine hleads.mono fun _ e he => ?_
      rintro p rfl
      obtain ⟨_, hpause⟩ := he
      exact hpause
    exact hunpaused.trans (Cluster.loses (fun _ _ _ _ _ => by simp)
      fun _ _ => List.nil_sublist _)
  · obtain ⟨hrole, hloop, -, hterm, hcommit, hlog⟩ := (hdead.leads hu).nodes p
    exact ⟨hrole, hloop, hterm, hcommit, hlog⟩

/-- A leader and what it has sent first can be left without effect. -/
theorem dead_end_unheardLeader : ∃ s t : Cluster 2 (List ℕ), leadsUnheard s = true ∧
    (clusterSystem 2 (List ℕ)).LeadsTo (fun _ e => ∀ p, e ≠ .pause p) s t ∧
      ∀ u, (unreliableSystem 2 (List ℕ)).LeadsTo (fun _ e => ∀ p, e ≠ .event (.pause p)) t u →
        ∀ p, (u.nodes p).commitIndex = (t.nodes p).commitIndex := by
  obtain ⟨history, s, hrun, htest⟩ := exists_leadsUnheard
  obtain ⟨t, hleads, hend⟩ := dead_end ⟨history, hrun⟩
  exact ⟨s, t, htest, hleads, fun u hu p => (hend u hu p).2.2.2.1⟩

end DreamboatRpc.Raft
