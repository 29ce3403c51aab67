import DreamboatRpc.Raft.Appends

/-!
# What other threads read of a node

`check_committed_entry` is called by the HTTP threads while the thread of the node is at work.
It reads the log, `log_hash` and the commit index, and the thread of the node changes these in
several writes: `_append_entry` cuts the log, appends the entry and then commits. Between two
writes the HTTP threads see what the first has left.

## Main definitions

* `LogWrite` — a change to what the HTTP threads read
* `Node.writeAll` — the node after some of these
* `Cluster.logWrites` — what the thread of a node writes in an event, in this order
* `Node.ReadsAs` — the HTTP threads read the same

## Main results

* `exec_logWrites` — after a step they read what was written
-/

namespace DreamboatRpc.Raft

open CS

variable {n : ℕ} {V : Type*}

/-- A change to the log, `log_hash` or the commit index: `self.log[:prev_index+1]` is assigned to
the log; an entry is appended and put into `log_hash`, under the lock; or the commit index is set,
under the lock. -/
inductive LogWrite (V : Type*)
  | cut (prevIndex : ℕ)
  | append (entry : Entry V)
  | commit (index : ℕ)
  deriving DecidableEq

namespace Node

/-- The node after a write. -/
def write (nd : Node n V) : LogWrite V → Node n V
  | .cut prevIndex => { nd with log := nd.log.take (prevIndex + 1) }
  | .append entry =>
    { nd with log := nd.log ++ [entry], logHash := (entry.id, entry) :: nd.logHash }
  | .commit index => { nd with commitIndex := index }

/-- The node after some writes, the first of them first. -/
def writeAll (nd : Node n V) (writes : List (LogWrite V)) : Node n V := writes.foldl write nd

/-- What `_append_entry` writes. -/
def appendWrites (nd : Node n V) (entry : Entry V) (commit : Bool) (prevIndex : Option ℕ) :
    List (LogWrite V) :=
  (prevIndex.elim [] fun prevIndex => [.cut prevIndex]) ++ .append entry ::
    if commit then [.commit (prevIndex.getD (nd.log.length - 1))] else []

/-- What `_follower` writes on a message. -/
def followerWrites (nd : Node n V) : Message n V → List (LogWrite V)
  | .appendEntries term _ prevLogIndex prevLogTerm entries leaderCommit =>
    if nd.acceptsAppendEntries term prevLogIndex prevLogTerm then
      nd.appendWrites entries (decide (leaderCommit > nd.commitIndex)) (some prevLogIndex)
    else []
  | .committal _ prevLogIndex _ => [.commit prevLogIndex]
  | .requestVotes _ _ _ | .vote _ _ | .heartbeat _ _ | .acknowledge _ _ | .clientRequest _ _ => []

/-- What `_leader` writes on a message: it appends a client request, and commits on an acknowledge
if it commits at all. -/
def leaderMessageWrites (nd : Node n V) (sender : Fin n) : Message n V → List (LogWrite V)
  | .acknowledge _ success =>
    let index := (nd.leaderAcknowledge sender success).commitIndex
    if index = nd.commitIndex then [] else [.commit index]
  | .clientRequest _ entries => nd.appendWrites entries false none
  | .requestVotes _ _ _ | .vote _ _ | .heartbeat _ _ | .appendEntries _ _ _ _ _ _
  | .committal _ _ _ => []

/-- What `_leader` writes for the oldest client request of its queue. -/
def clientRequestWrites (nd : Node n V) : List (LogWrite V) :=
  match nd.clientQueue with
  | [] => []
  | entry :: _ => nd.appendWrites entry false none

/-- What an iteration of `_leader` writes. -/
def leaderWrites (nd : Node n V) (heartbeat : Bool) (expired : Fin n → Bool)
    (incoming : Option (Fin n × Message n V)) : List (LogWrite V) :=
  if nd.currentRole = .leader then
    let sent := nd.leaderSends heartbeat expired
    if sent.loop = .leader then
      let received := sent.receive leaderMessage incoming
      (incoming.elim [] fun m =>
          { sent with incomingMessage := some m.2 }.leaderMessageWrites m.1 m.2) ++
        if received.loop = .leader then received.clientRequestWrites else []
    else []
  else []

/-- `nd'` shows the HTTP threads what `nd` shows them. -/
structure ReadsAs (nd nd' : Node n V) : Prop where
  log : nd'.log = nd.log
  logHash : nd'.logHash = nd.logHash
  commitIndex : nd'.commitIndex = nd.commitIndex

variable {nd nd' nd'' : Node n V}

@[simp] theorem writeAll_nil (nd : Node n V) : nd.writeAll [] = nd := rfl

@[simp] theorem writeAll_cons (nd : Node n V) (w : LogWrite V) (writes : List (LogWrite V)) :
    nd.writeAll (w :: writes) = (nd.write w).writeAll writes := rfl

theorem writeAll_append (nd : Node n V) (writes later : List (LogWrite V)) :
    nd.writeAll (writes ++ later) = (nd.writeAll writes).writeAll later := by
  simp [writeAll]

namespace ReadsAs

theorem refl : nd.ReadsAs nd := ⟨rfl, rfl, rfl⟩

theorem trans (h : nd.ReadsAs nd') (h' : nd'.ReadsAs nd'') : nd.ReadsAs nd'' :=
  ⟨h'.log.trans h.log, h'.logHash.trans h.logHash, h'.commitIndex.trans h.commitIndex⟩

theorem write (h : nd.ReadsAs nd') (w : LogWrite V) : (nd.write w).ReadsAs (nd'.write w) := by
  cases w with
  | cut prevIndex => exact ⟨by simp only [Node.write, h.log], h.logHash, h.commitIndex⟩
  | append entry =>
    exact ⟨by simp only [Node.write, h.log], by simp only [Node.write, h.logHash], h.commitIndex⟩
  | commit index => exact ⟨h.log, h.logHash, rfl⟩

theorem writeAll (h : nd.ReadsAs nd') (writes : List (LogWrite V)) :
    (nd.writeAll writes).ReadsAs (nd'.writeAll writes) := by
  induction writes generalizing nd nd' with
  | nil => exact h
  | cons w writes ih => exact ih (h.write w)

end ReadsAs

/-! ## Followers and candidates -/

theorem followerMessage_readsAs (nd : Node n V) (q : Fin n) (message : Message n V) :
    (nd.writeAll (nd.followerWrites message)).ReadsAs (nd.followerMessage q message) := by
  cases message with
  | requestVotes t i u =>
    simp only [followerMessage, followerRequestVotes, followerWrites]
    split <;> split <;> exact ⟨rfl, rfl, rfl⟩
  | heartbeat t l =>
    simp only [followerMessage, followerHeartbeat, forwardClientRequest, followerWrites]
    split <;> split <;> exact ⟨rfl, rfl, rfl⟩
  | appendEntries t l k u e c =>
    simp only [followerMessage, followerAppendEntries, followerWrites]
    split
    · simp only [appendEntry, appendWrites, decide_eq_true_eq]
      split <;> exact ⟨rfl, rfl, rfl⟩
    · exact ⟨rfl, rfl, rfl⟩
  | _ => exact ⟨rfl, rfl, rfl⟩

theorem follower_readsAs (incoming : Option (Fin n × Message n V)) (timeout : Bool)
    (hrole : incoming = none ∨ nd.currentRole = .follower) :
    (nd.writeAll (incoming.elim [] fun m => nd.followerWrites m.2)).ReadsAs
      (nd.follower incoming timeout) := by
  unfold Node.follower
  split
  · have hmessage : (nd.writeAll (incoming.elim [] fun m => nd.followerWrites m.2)).ReadsAs
        (nd.receive followerMessage incoming) := by
      cases incoming with
      | none => exact .refl
      | some m =>
        have hheld : nd.ReadsAs { nd with incomingMessage := some m.2 } := ⟨rfl, rfl, rfl⟩
        exact (hheld.writeAll (nd.followerWrites m.2)).trans (followerMessage_readsAs _ m.1 m.2)
    simp only
    split
    · exact hmessage.trans ⟨rfl, rfl, rfl⟩
    · exact hmessage
  · rename_i hother
    obtain rfl := hrole.resolve_right hother
    exact ⟨rfl, rfl, rfl⟩

theorem candidate_readsAs (nd : Node n V) (k m : ℕ) (incoming : Option (Fin n × Message n V))
    (timeout : Bool) : nd.ReadsAs (nd.candidate k m incoming timeout) := by
  obtain ⟨role, leader, term, voted, talker, loop, held, heq⟩ :=
    nd.candidate_eq k m incoming timeout
  rw [heq]
  exact ⟨rfl, rfl, rfl⟩

/-! ## Leaders -/

theorem broadcastAppendEntries_readsAs (nd : Node n V) (entry : Entry V) :
    (nd.writeAll (nd.appendWrites entry false none)).ReadsAs (nd.broadcastAppendEntries entry) := by
  obtain ⟨talker, next, reached, heq⟩ := nd.broadcastAppendEntries_eq entry
  rw [heq]
  exact ⟨rfl, rfl, rfl⟩

theorem leaderMessage_readsAs (h : nd.Sendable) (hloop : nd.loop = .leader) (sender : Fin n)
    (message : Message n V) : (nd.writeAll (nd.leaderMessageWrites sender message)).ReadsAs
      (nd.leaderMessage sender message) := by
  cases message with
  | acknowledge term success =>
    obtain ⟨talker, next, reached, index, applied, term', heq, -⟩ :=
      h.leaderAcknowledge (by simp [hloop]) sender success
    simp only [leaderMessageWrites, Node.leaderMessage, heq]
    split
    · rename_i hindex
      exact ⟨rfl, rfl, hindex⟩
    · exact ⟨rfl, rfl, rfl⟩
  | clientRequest term entries => exact broadcastAppendEntries_readsAs nd entries
  | requestVotes term i t =>
    simp only [Node.leaderMessage]
    split <;> exact ⟨rfl, rfl, rfl⟩
  | _ => exact .refl

theorem leaderClientRequest_readsAs (nd : Node n V) :
    (nd.writeAll nd.clientRequestWrites).ReadsAs nd.leaderClientRequest := by
  unfold clientRequestWrites leaderClientRequest
  cases nd.clientQueue with
  | nil => exact .refl
  | cons entry rest =>
    have hpopped : nd.ReadsAs { nd with clientQueue := rest } := ⟨rfl, rfl, rfl⟩
    exact (hpopped.writeAll _).trans (broadcastAppendEntries_readsAs _ entry)

/-- What a leader writes on a message. -/
theorem receive_readsAs (h : nd.Sendable) (hloop : nd.loop = .leader)
    (incoming : Option (Fin n × Message n V)) :
    (nd.writeAll (incoming.elim [] fun m =>
      { nd with incomingMessage := some m.2 }.leaderMessageWrites m.1 m.2)).ReadsAs
      (nd.receive leaderMessage incoming) := by
  cases incoming with
  | none => exact .refl
  | some m =>
    have hheld : nd.ReadsAs { nd with incomingMessage := some m.2 } := ⟨rfl, rfl, rfl⟩
    have hsend : ({ nd with incomingMessage := some m.2 } : Node n V).Sendable :=
      h.congr rfl rfl rfl rfl
    exact (hheld.writeAll _).trans (leaderMessage_readsAs hsend hloop m.1 m.2)

theorem leader_readsAs (h : nd.Sendable) (heartbeat : Bool) (expired : Fin n → Bool)
    (incoming : Option (Fin n × Message n V)) :
    (nd.writeAll (nd.leaderWrites heartbeat expired incoming)).ReadsAs
      (nd.leader heartbeat expired incoming) := by
  unfold leaderWrites Node.leader
  by_cases hrole : nd.currentRole = .leader
  swap
  · rw [if_neg hrole, if_neg hrole]
    exact ⟨rfl, rfl, rfl⟩
  rw [if_pos hrole, if_pos hrole]
  obtain ⟨talker, hsends⟩ := leaderSends_of_nextIndex h.next heartbeat expired
  simp only [hsends]
  set sent : Node n V := { nd with talker := talker }
  have hsent : nd.ReadsAs sent := ⟨rfl, rfl, rfl⟩
  by_cases hloop : sent.loop = .leader
  swap
  · rw [if_neg hloop, if_neg hloop]
    exact hsent
  rw [if_pos hloop, if_pos hloop, writeAll_append]
  -- first what the message asks for, then the oldest request of the queue
  have hreceived := (hsent.writeAll _).trans
    (receive_readsAs (h.congr rfl rfl rfl rfl : sent.Sendable) hloop incoming)
  split
  · exact (hreceived.writeAll _).trans (leaderClientRequest_readsAs _)
  · exact hreceived

theorem run_readsAs [EmptyCollection V] (nd : Node n V) :
    (nd.writeAll (if nd.currentRole = .leader then nd.appendWrites nd.noop false none
      else [])).ReadsAs nd.run := by
  unfold Node.run
  cases hrole : nd.currentRole with
  | leader =>
    -- the entry of its term is the first that a new leader appends
    have hoffice : nd.ReadsAs nd.inaugurated := ⟨rfl, rfl, rfl⟩
    have happend := (hoffice.writeAll _).trans
      (broadcastAppendEntries_readsAs nd.inaugurated nd.noop)
    rw [if_pos rfl, enterLeader_eq]
    exact happend.trans ⟨rfl, rfl, rfl⟩
  | _ => exact ⟨rfl, rfl, rfl⟩

end Node

/-! ## All steps -/

namespace Cluster

variable [EmptyCollection V] {s s' : Cluster n V} {e : Event n V}

/-- What the thread of node `q` writes in an event. -/
def logWrites (s : Cluster n V) (q : Fin n) : Event n V → List (LogWrite V)
  | .run p =>
    if p = q ∧ (s.nodes p).currentRole = .leader then
      (s.nodes p).appendWrites (s.nodes p).noop false none
    else []
  | .follower p source _ =>
    if p = q then (s.received p source).elim [] fun m => (s.nodes p).followerWrites m.2 else []
  | .leader p heartbeat expired source =>
    if p = q then (s.nodes p).leaderWrites heartbeat expired (s.received p source) else []
  | .candidate _ _ _ | .clientRequest _ _ _ | .pause _ | .unPause _ | .lose _ _ _ => []

/-- A node whose thread does not run writes nothing. -/
theorem logWrites_of_idle {q : Fin n} (hidle : ∀ nd, s.iteration e ≠ some (q, nd)) :
    s.logWrites q e = [] := by
  cases e with
  | run p | follower p _ _ | leader p _ _ _ =>
    have hne : p ≠ q := by
      rintro rfl
      exact hidle _ rfl
    simp [logWrites, hne]
  | _ => rfl

/-- After a step other threads read what was written in it. -/
theorem exec_logWrites (hsend : s.Sendable) (hs : s.exec e = some s') (q : Fin n) :
    ((s.nodes q).writeAll (s.logWrites q e)).ReadsAs (s'.nodes q) := by
  obtain ⟨nd, hiteration, heq⟩ | ⟨hidle, queue, role, heq, -⟩ := exec_node hs q
  swap
  · rw [logWrites_of_idle hidle, heq]
    exact ⟨rfl, rfl, rfl⟩
  have hrest : nd.ReadsAs (s'.nodes q) := by rw [heq]; exact ⟨rfl, rfl, rfl⟩
  refine Node.ReadsAs.trans ?_ hrest
  obtain ⟨rfl, -, rfl⟩ | ⟨source, timeout, rfl, -, rfl⟩ | ⟨source, timeout, k, m, rfl, -, rfl⟩ |
    ⟨heartbeat, expired, source, rfl, hloop, rfl⟩ := iteration_cases hs hiteration
  · simp only [logWrites, true_and]
    exact (s.nodes q).run_readsAs
  · simp only [logWrites, if_true]
    refine Node.follower_readsAs _ timeout ?_
    cases hreceived : s.received q source with
    | none => exact .inl rfl
    | some x => exact .inr (follower_of_received hs hreceived)
  · exact (s.nodes q).candidate_readsAs k m (s.received q source) timeout
  · simp only [logWrites, if_true]
    exact Node.leader_readsAs (hsend q hloop) heartbeat expired _

end Cluster

end DreamboatRpc.Raft
