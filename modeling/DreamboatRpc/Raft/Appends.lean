import DreamboatRpc.Raft.Iteration
import DreamboatRpc.Raft.Leadership

/-!
# What is appended in a step

A node appends to its log when it enters office, when it leads and is given a client
request or has one in its queue, and when it accepts an entry as a follower; `log_hash` is
written in the same places and nowhere else. Which entries these are can be told from the
state and the event: in no run does the thread of a leader end on the way to its queue.

## Main definitions

* `Node.Sendable` — what a leader has to send, and what it has itself, is in its log
* `Node.bindings` — what appending some entries writes to `log_hash`
* `Cluster.appends` — the entries a node appends in an event

## Main results

* `Sendable.of_reachable` — leaders can send what they have to
* `exec_appends` — log and `log_hash` of every node after a step; a leader only appends
-/

namespace DreamboatRpc.Raft

open CS

variable {n : ℕ} {V : Type*}

/-! ## The entries -/

namespace Node

/-- A leader steps down on the message before it looks at its queue. -/
def yieldsOn (nd : Node n V) : Message n V → Bool
  | .requestVotes term _ _ => decide (term > nd.currentTerm)
  | _ => false

/-- The client requests a leader appends in an iteration: the one it is given, and the oldest
one of its queue. -/
def leaderAppends (nd : Node n V) (incoming : Option (Fin n × Message n V)) : List (Entry V) :=
  (incoming.elim [] fun m => m.2.request.toList) ++
    if incoming.any fun m => nd.yieldsOn m.2 then [] else nd.clientQueue.head?.toList

/-- The entry a follower accepts, if it does. -/
def followerAppends (nd : Node n V) : Option (Fin n × Message n V) → List (Entry V)
  | some (_, .appendEntries term _ prevLogIndex prevLogTerm entries _) =>
    if nd.acceptsAppendEntries term prevLogIndex prevLogTerm then [entries] else []
  | _ => []

/-- What appending the entries writes to `log_hash`, the latest binding first. -/
def bindings (entries : List (Entry V)) : List (ℤ × Entry V) :=
  (entries.map fun entry => (entry.id, entry)).reverse

@[simp] theorem bindings_nil : bindings ([] : List (Entry V)) = [] := rfl

@[simp] theorem bindings_singleton (entry : Entry V) : bindings [entry] = [(entry.id, entry)] :=
  rfl

theorem bindings_append (entries entries' : List (Entry V)) :
    bindings (entries ++ entries') = bindings entries' ++ bindings entries := by
  simp [bindings]

/-! ## Leaders -/

/-- What a leader has to send is in its log, and so is all it says to have itself. -/
structure Sendable (nd : Node n V) : Prop where
  own : nd.matchIndex nd.myId < nd.log.length
  next : ∀ q k, nd.nextIndex q = some k → 1 ≤ k ∧ k < nd.log.length

/-- `nd'` is `nd` after it has appended entries, and sent. -/
structure AppendsTo (nd nd' : Node n V) (entries : List (Entry V)) : Prop where
  log : nd'.log = nd.log ++ entries
  logHash : nd'.logHash = bindings entries ++ nd.logHash

variable {nd nd' nd'' : Node n V} {entries entries' : List (Entry V)}

theorem Sendable.congr (h : nd.Sendable) (hid : nd'.myId = nd.myId) (hlog : nd'.log = nd.log)
    (hmatch : nd'.matchIndex = nd.matchIndex) (hnext : nd'.nextIndex = nd.nextIndex) :
    nd'.Sendable := by
  constructor
  · rw [hmatch, hid, hlog]
    exact h.own
  · rw [hnext, hlog]
    exact h.next

theorem AppendsTo.of_eq (hlog : nd'.log = nd.log) (hhash : nd'.logHash = nd.logHash) :
    nd.AppendsTo nd' [] :=
  ⟨by rw [hlog, List.append_nil], hhash⟩

theorem AppendsTo.trans (h : nd.AppendsTo nd' entries) (h' : nd'.AppendsTo nd'' entries') :
    nd.AppendsTo nd'' (entries ++ entries') := by
  constructor
  · rw [h'.log, h.log, List.append_assoc]
  · rw [h'.logHash, h.logHash, bindings_append, List.append_assoc]

theorem broadcastAppendEntries_appendsTo (nd : Node n V) (entry : Entry V) :
    nd.AppendsTo (nd.broadcastAppendEntries entry) [entry] := by
  obtain ⟨talker, next, reached, heq⟩ := nd.broadcastAppendEntries_eq entry
  rw [heq]
  exact ⟨rfl, rfl⟩

/-- After a broadcast the new entry is the one to send, or an earlier one is. -/
theorem sendable_broadcastAppendEntries (hlog : nd.log ≠ [])
    (hnext : ∀ q k, nd.nextIndex q = some k → 1 ≤ k ∧ k < nd.log.length) (entry : Entry V) :
    (nd.broadcastAppendEntries entry).Sendable := by
  obtain ⟨talker, heq⟩ := nd.broadcastAppendEntries_indices entry
  have hlen : (nd.appended entry).log.length = nd.log.length + 1 := by simp [appended]
  have hpos : 1 ≤ nd.log.length := List.length_pos_iff.mpr hlog
  rw [heq]
  refine ⟨?_, fun q k hk => ?_⟩
  · rw [hlen]
    simp [appended]
  · simp only at hk
    rw [hlen]
    split at hk
    · simp at hk
    · rw [Option.some.injEq] at hk
      subst hk
      cases hq : nd.nextIndex q with
      | none => exact ⟨hpos, Nat.lt_succ_self _⟩
      | some k =>
        obtain ⟨hone, hlt⟩ := hnext q k hq
        exact ⟨hone, hlt.trans (Nat.lt_succ_self _)⟩

/-- What is sent next is in the log, whatever the next index of the receiver has become. -/
theorem sendable_bringUpToDate (nd : Node n V) (q : Fin n)
    (hown : nd.matchIndex nd.myId < nd.log.length)
    (hnext : ∀ r k, r ≠ q → nd.nextIndex r = some k → 1 ≤ k ∧ k < nd.log.length) {k : ℕ}
    (hq : nd.nextIndex q = some k) (hk : 1 ≤ k) :
    ∃ talker next, nd.bringUpToDate q = { nd with talker := talker, nextIndex := next } ∧
      (nd.bringUpToDate q).Sendable := by
  by_cases hlast : k > nd.logMaxIndex
  · rw [bringUpToDate_of_gt hq hlast]
    refine ⟨_, _, rfl, hown, fun r k' hr => ?_⟩
    simp only [Function.update_apply] at hr
    split at hr
    · simp at hr
    · exact hnext r k' ‹_› hr
  · have hlt : k < nd.log.length := by
      rw [logMaxIndex] at hlast
      omega
    obtain ⟨prev, entry, -, -, heq⟩ := nd.sendEntryAt_eq q ⟨hk, hlt⟩
    rw [bringUpToDate_of_le hq (not_lt.mp hlast), heq]
    refine ⟨_, _, rfl, hown, fun r k' hr => ?_⟩
    by_cases hrq : r = q
    · subst hrq
      have hsame : nd.nextIndex r = some k' := hr
      rw [hq, Option.some.injEq] at hsame
      subst hsame
      exact ⟨hk, hlt⟩
    · exact hnext r k' hrq hr

/-- The indices of the sender after an acknowledge, and what it is sent then. -/
theorem Sendable.acknowledged (h : nd.Sendable) (sender : Fin n) (success : Bool) {k : ℕ}
    (hk : nd.nextIndex sender = some k) :
    ∃ talker next reached, (nd.creditAcknowledge sender k success).bringUpToDate sender =
        { nd with talker := talker, nextIndex := next, matchIndex := reached } ∧
      ((nd.creditAcknowledge sender k success).bringUpToDate sender).Sendable := by
  obtain ⟨hone, hlt⟩ := h.next sender k hk
  -- the next index of the sender is given a new value, and no other one
  have hother : ∀ (next : Option ℕ) (r : Fin n) (k' : ℕ), r ≠ sender →
      Function.update nd.nextIndex sender next r = some k' → 1 ≤ k' ∧ k' < nd.log.length := by
    intro next r k' hr hk'
    rw [Function.update_of_ne hr] at hk'
    exact h.next r k' hk'
  unfold creditAcknowledge
  split
  · have hown : Function.update nd.matchIndex sender k nd.myId < nd.log.length := by
      rw [Function.update_apply]
      split
      · exact hlt
      · exact h.own
    obtain ⟨talker, next, heq, hsend⟩ := sendable_bringUpToDate { nd with
        matchIndex := Function.update nd.matchIndex sender k
        nextIndex := Function.update nd.nextIndex sender (some (k + 1)) } sender hown (hother _)
      (Function.update_self ..) (Nat.le_add_left 1 k)
    exact ⟨talker, next, _, heq, hsend⟩
  · split
    · rename_i hne
      obtain ⟨talker, next, heq, hsend⟩ := sendable_bringUpToDate { nd with
          nextIndex := Function.update nd.nextIndex sender (some (k - 1)) } sender h.own (hother _)
        (Function.update_self ..) (by omega)
      exact ⟨talker, next, _, heq, hsend⟩
    · obtain ⟨talker, next, heq, hsend⟩ := sendable_bringUpToDate nd sender h.own
        (fun r k' _ => h.next r k') hk hone
      exact ⟨talker, next, _, heq, hsend⟩

/-- An acknowledge, whatever it says and whoever sends it, changes indices, and the leader can
go on sending. -/
theorem Sendable.leaderAcknowledge (h : nd.Sendable) (hloop : nd.loop ≠ .crashed) (sender : Fin n)
    (success : Bool) :
    ∃ talker next reached index applied term, nd.leaderAcknowledge sender success = { nd with
        talker := talker, nextIndex := next, matchIndex := reached, commitIndex := index
        lastAppliedIndex := applied, lastAppliedTerm := term } ∧
      (nd.leaderAcknowledge sender success).Sendable := by
  cases hk : nd.nextIndex sender with
  | none =>
    simp only [Node.leaderAcknowledge, hk]
    exact ⟨_, _, _, _, _, _, rfl, h⟩
  | some k =>
    obtain ⟨talker, next, reached, heq, hsend⟩ := h.acknowledged sender success hk
    simp only [Node.leaderAcknowledge, hk]
    set nd₁ := (nd.creditAcknowledge sender k success).bringUpToDate sender
    have hloop₁ : nd₁.loop ≠ .crashed := by rwa [heq]
    rw [if_neg hloop₁]
    -- the index to commit is at most that of the last entry of the leader
    have hin : nd₁.maxCommittableIndex < nd₁.log.length :=
      (nd₁.maxCommittableIndex_le nd₁.myId).trans_lt hsend.own
    obtain ⟨talker', index, applied, term, -, hcommit⟩ := commitCommittable_eq hin
    rw [hcommit]
    refine ⟨talker', next, reached, index, applied, term, ?_, hsend.own, hsend.next⟩
    rw [heq]

/-- What a leader in its loop does with a message: it appends a client request, it steps down,
or its log stays as it is; as long as it is in its loop it can go on sending. -/
theorem Sendable.leaderMessage (h : nd.Sendable) (hloop : nd.loop = .leader) (sender : Fin n)
    (message : Message n V) :
    nd.AppendsTo (nd.leaderMessage sender message) message.request.toList ∧
      (nd.leaderMessage sender message).clientQueue = nd.clientQueue ∧
      if nd.yieldsOn message then (nd.leaderMessage sender message).loop = .run
      else (nd.leaderMessage sender message).loop = .leader ∧
        (nd.leaderMessage sender message).Sendable := by
  cases message with
  | acknowledge term success =>
    obtain ⟨talker, next, reached, index, applied, term, heq, hsend⟩ :=
      h.leaderAcknowledge (by simp [hloop]) sender success
    simp only [Node.leaderMessage, yieldsOn]
    refine ⟨?_, ?_, ?_, hsend⟩
    · rw [heq]
      exact .of_eq rfl rfl
    · rw [heq]
    · rw [heq]
      exact hloop
  | clientRequest term entries =>
    have hlog : nd.log ≠ [] := List.ne_nil_of_length_pos (Nat.zero_lt_of_lt h.own)
    obtain ⟨talker, next, reached, heq⟩ := nd.broadcastAppendEntries_eq entries
    simp only [Node.leaderMessage, yieldsOn]
    refine ⟨nd.broadcastAppendEntries_appendsTo entries, ?_, ?_,
      sendable_broadcastAppendEntries hlog h.next entries⟩
    · rw [heq]
      rfl
    · rw [heq]
      exact hloop
  | requestVotes term i t =>
    simp only [Node.leaderMessage, yieldsOn, decide_eq_true_eq]
    split
    · exact ⟨.of_eq rfl rfl, rfl, rfl⟩
    · exact ⟨.of_eq rfl rfl, rfl, hloop, h⟩
  | _ => exact ⟨.of_eq rfl rfl, rfl, hloop, h⟩

/-- The end of an iteration. -/
theorem Sendable.leaderClientRequest (h : nd.Sendable) :
    nd.AppendsTo nd.leaderClientRequest nd.clientQueue.head?.toList ∧
      nd.leaderClientRequest.clientQueue = nd.clientQueue.tail ∧
      nd.leaderClientRequest.Sendable := by
  unfold Node.leaderClientRequest
  split
  · rename_i hqueue
    rw [hqueue]
    exact ⟨.of_eq rfl rfl, rfl, h⟩
  · rename_i entry rest hqueue
    set popped : Node n V := { nd with clientQueue := rest }
    have hpopped : popped.Sendable := h.congr rfl rfl rfl rfl
    have hlog : popped.log ≠ [] := List.ne_nil_of_length_pos (Nat.zero_lt_of_lt hpopped.own)
    obtain ⟨happlog, happhash⟩ := popped.broadcastAppendEntries_appendsTo entry
    obtain ⟨talker, next, reached, heq⟩ := popped.broadcastAppendEntries_eq entry
    have hrest : (popped.broadcastAppendEntries entry).clientQueue = rest := by
      rw [heq]
      rfl
    rw [hqueue]
    exact ⟨⟨happlog, happhash⟩, hrest, sendable_broadcastAppendEntries hlog hpopped.next entry⟩

/-- What an iteration of a leader appends, what it leaves in its queue, and that it can go on
sending. -/
theorem Sendable.leader (h : nd.Sendable) (hrole : nd.currentRole = .leader)
    (hloop : nd.loop = .leader) (heartbeat : Bool) (expired : Fin n → Bool)
    (incoming : Option (Fin n × Message n V)) :
    nd.AppendsTo (nd.leader heartbeat expired incoming) (nd.leaderAppends incoming) ∧
      (nd.leader heartbeat expired incoming).clientQueue =
        (if incoming.any fun m => nd.yieldsOn m.2 then nd.clientQueue
        else nd.clientQueue.tail) ∧
      ((nd.leader heartbeat expired incoming).loop = .leader →
        (nd.leader heartbeat expired incoming).Sendable) := by
  unfold Node.leader
  rw [if_pos hrole]
  obtain ⟨talker, hsends⟩ := leaderSends_of_nextIndex h.next heartbeat expired
  simp only [hsends]
  set sent : Node n V := { nd with talker := talker }
  have hloop₁ : sent.loop = .leader := hloop
  rw [if_pos hloop₁]
  -- the message, if there is one
  have hreceive : nd.AppendsTo (sent.receive Node.leaderMessage incoming)
        (incoming.elim [] fun m => m.2.request.toList) ∧
      (sent.receive Node.leaderMessage incoming).clientQueue = nd.clientQueue ∧
      if incoming.any fun m => nd.yieldsOn m.2 then
        (sent.receive Node.leaderMessage incoming).loop = .run
      else (sent.receive Node.leaderMessage incoming).loop = .leader ∧
        (sent.receive Node.leaderMessage incoming).Sendable := by
    cases incoming with
    | none => exact ⟨.of_eq rfl rfl, rfl, hloop, h.congr rfl rfl rfl rfl⟩
    | some m =>
      obtain ⟨q, message⟩ := m
      have hheld : ({ sent with incomingMessage := some message } : Node n V).Sendable :=
        h.congr rfl rfl rfl rfl
      obtain ⟨happends, hqueue, hnext⟩ := hheld.leaderMessage hloop q message
      have hsame : ({ sent with incomingMessage := some message } : Node n V).yieldsOn message =
          nd.yieldsOn message := by
        cases message <;> rfl
      rw [hsame] at hnext
      exact ⟨⟨happends.log, happends.logHash⟩, hqueue, hnext⟩
  generalize sent.receive Node.leaderMessage incoming = received at hreceive
  obtain ⟨happends, hqueue, hnext⟩ := hreceive
  simp only [leaderAppends]
  split at hnext
  · -- the loop is left before the queue is read
    rename_i hyield
    have hleft : received.loop ≠ .leader := by simp [hnext]
    rw [if_neg hleft, if_pos hyield, if_pos hyield, List.append_nil]
    exact ⟨happends, hqueue, fun hlead => absurd hlead hleft⟩
  · rename_i hyield
    obtain ⟨hloop', hsend⟩ := hnext
    obtain ⟨hrequest, hrest, hsend'⟩ := hsend.leaderClientRequest
    rw [hqueue] at hrequest hrest
    rw [if_pos hloop', if_neg hyield, if_neg hyield]
    exact ⟨happends.trans hrequest, hrest, fun _ => hsend'⟩

theorem run_appendsTo [EmptyCollection V] (nd : Node n V) :
    nd.AppendsTo nd.run (if nd.currentRole = .leader then [nd.noop] else []) := by
  unfold Node.run
  cases hrole : nd.currentRole with
  | leader =>
    obtain ⟨talker, next, reached, heq⟩ :=
      broadcastAppendEntries_eq nd.inaugurated nd.noop
    rw [if_pos rfl]
    simp only [enterLeader_eq, heq]
    exact ⟨rfl, rfl⟩
  | _ => exact .of_eq rfl rfl

/-- A new leader can send what it has to. -/
theorem sendable_run [EmptyCollection V] (hlog : nd.log ≠ []) (hloop : nd.run.loop = .leader)
    (hrun : nd.loop = .run) : nd.run.Sendable := by
  unfold Node.run at hloop ⊢
  cases hrole : nd.currentRole with
  | leader =>
    simp only [enterLeader_eq]
    have hnext : ∀ q k, nd.inaugurated.nextIndex q = some k →
        1 ≤ k ∧ k < nd.inaugurated.log.length := by simp [inaugurated]
    have hlog' : nd.inaugurated.log ≠ [] := hlog
    exact (sendable_broadcastAppendEntries hlog' hnext nd.noop).congr rfl rfl rfl rfl
  | follower => simp [hrole] at hloop
  | candidate => simp [hrole, enterCandidate] at hloop
  | none => simp [hrole, hrun] at hloop

/-! ## Followers and candidates -/

/-- `nd'` has kept part of the log of `nd`, its first entry at least, and has appended
entries. -/
structure Writes (nd nd' : Node n V) (entries : List (Entry V)) : Prop where
  log : ∃ kept, kept <+: nd.log ∧ kept ≠ [] ∧ nd'.log = kept ++ entries
  logHash : nd'.logHash = bindings entries ++ nd.logHash

theorem AppendsTo.writes (h : nd.AppendsTo nd' entries) (hlog : nd.log ≠ []) :
    nd.Writes nd' entries :=
  ⟨⟨nd.log, List.prefix_rfl, hlog, h.log⟩, h.logHash⟩

/-- What a follower writes. -/
theorem followerMessage_writes (hlog : nd.log ≠ []) (q : Fin n) (message : Message n V) :
    nd.Writes (nd.followerMessage q message) (nd.followerAppends (some (q, message))) := by
  cases message with
  | requestVotes t i u =>
    refine AppendsTo.writes ?_ hlog
    simp only [followerMessage, followerRequestVotes, followerAppends]
    split <;> split <;> exact .of_eq rfl rfl
  | heartbeat t l =>
    refine AppendsTo.writes ?_ hlog
    simp only [followerMessage, followerHeartbeat, forwardClientRequest, followerAppends]
    split <;> split <;> exact .of_eq rfl rfl
  | appendEntries t l k u e c =>
    simp only [followerMessage, followerAppendEntries, followerAppends]
    split
    · -- what is cut is behind the predecessor
      have hkept : nd.log.take (k + 1) ≠ [] := by simp [hlog]
      have hparts : ∀ commit, (nd.appendEntry e commit (some k)).1.log =
            nd.log.take (k + 1) ++ [e] ∧
          (nd.appendEntry e commit (some k)).1.logHash = bindings [e] ++ nd.logHash := by
        intro commit
        simp only [appendEntry, cutLog]
        split <;> exact ⟨rfl, rfl⟩
      obtain ⟨hlog', hhash⟩ := hparts (decide (c > nd.commitIndex))
      exact ⟨⟨_, List.take_prefix _ _, hkept, hlog'⟩, hhash⟩
    · exact AppendsTo.writes (.of_eq rfl rfl) hlog
  | _ => exact AppendsTo.writes (.of_eq rfl rfl) hlog

theorem follower_writes (hlog : nd.log ≠ []) (incoming : Option (Fin n × Message n V))
    (timeout : Bool) (hrole : incoming = none ∨ nd.currentRole = .follower) :
    nd.Writes (nd.follower incoming timeout) (nd.followerAppends incoming) := by
  unfold Node.follower
  split
  · have hmessage : nd.Writes (nd.receive followerMessage incoming)
        (nd.followerAppends incoming) := by
      cases incoming with
      | none => exact AppendsTo.writes (.of_eq rfl rfl) hlog
      | some m =>
        have hheld : ({ nd with incomingMessage := some m.2 } : Node n V).log ≠ [] := hlog
        obtain ⟨hkept, hhash⟩ := followerMessage_writes hheld m.1 m.2
        exact ⟨hkept, hhash⟩
    simp only
    split
    · exact ⟨hmessage.log, hmessage.logHash⟩
    · exact hmessage
  · rename_i hother
    obtain rfl := hrole.resolve_right hother
    exact AppendsTo.writes (.of_eq rfl rfl) hlog

theorem followerMessage_loop (nd : Node n V) (q : Fin n) (message : Message n V) :
    (nd.followerMessage q message).loop = nd.loop := by
  cases message with
  | requestVotes t i u =>
    simp only [followerMessage, followerRequestVotes]
    split <;> split <;> rfl
  | heartbeat t l =>
    simp only [followerMessage, followerHeartbeat, forwardClientRequest]
    split <;> split <;> rfl
  | appendEntries t l k u e c =>
    simp only [followerMessage, followerAppendEntries, appendEntry, cutLog]
    split
    · split <;> rfl
    · rfl
  | _ => rfl

/-- No follower gets into the loop of a leader without going through `run`. -/
theorem follower_loop (hloop : nd.loop = .follower) (incoming : Option (Fin n × Message n V))
    (timeout : Bool) : (nd.follower incoming timeout).loop ≠ .leader := by
  have hmessage : (nd.receive followerMessage incoming).loop = .follower := by
    cases incoming with
    | none => exact hloop
    | some m => exact (followerMessage_loop _ m.1 m.2).trans hloop
  unfold Node.follower
  split
  · simp only
    split
    · simp
    · simp [hmessage]
  · simp

theorem candidateMessage_loop {k m : ℕ} (hloop : nd.loop = .candidate k m) (q : Fin n)
    (message : Message n V) : (nd.candidateMessage k m q message).loop ≠ .leader := by
  cases message with
  | vote t granted =>
    simp only [candidateMessage, candidateVote]
    split <;> split <;> simp
  | requestVotes t i u =>
    simp only [candidateMessage]
    split
    · simp [yieldTo]
    · simp [hloop]
  | heartbeat t l =>
    simp only [candidateMessage]
    split
    · simp
    · simp [hloop]
  | _ => simp [candidateMessage, hloop]

theorem candidate_loop {k m : ℕ} (hloop : nd.loop = .candidate k m)
    (incoming : Option (Fin n × Message n V)) (timeout : Bool) :
    (nd.candidate k m incoming timeout).loop ≠ .leader := by
  have hmessage : (nd.receive (fun nd => nd.candidateMessage k m) incoming).loop ≠ .leader := by
    cases incoming with
    | none => simp [receive, hloop]
    | some x =>
      have hheld : ({ nd with incomingMessage := some x.2 } : Node n V).loop = .candidate k m :=
        hloop
      exact candidateMessage_loop hheld x.1 x.2
  unfold Node.candidate
  split
  · simp only
    split
    · simp
    · exact hmessage
  · simp

theorem candidate_appendsTo (nd : Node n V) (k m : ℕ) (incoming : Option (Fin n × Message n V))
    (timeout : Bool) : nd.AppendsTo (nd.candidate k m incoming timeout) [] := by
  obtain ⟨role, leader, term, voted, talker, loop, held, heq⟩ :=
    nd.candidate_eq k m incoming timeout
  rw [heq]
  exact .of_eq rfl rfl

end Node

/-! ## All steps -/

namespace Cluster

variable [EmptyCollection V] {s s' : Cluster n V} {e : Event n V}

/-- The entries node `q` appends in an event. -/
def appends (s : Cluster n V) (q : Fin n) : Event n V → List (Entry V)
  | .run p =>
    if p = q ∧ (s.nodes p).currentRole = .leader then [(s.nodes p).noop] else []
  | .follower p source _ => if p = q then (s.nodes p).followerAppends (s.received p source) else []
  | .leader p _ _ source =>
    if p = q ∧ (s.nodes p).currentRole = .leader then
      (s.nodes p).leaderAppends (s.received p source)
    else []
  | .candidate _ _ _ | .clientRequest _ _ _ | .pause _ | .unPause _ | .lose _ _ _ => []

/-- Every leader in its loop can send what it has to. -/
def Sendable (s : Cluster n V) : Prop :=
  ∀ p, (s.nodes p).loop = .leader → (s.nodes p).Sendable

/-- A node whose thread does not run appends nothing. -/
theorem appends_of_idle {q : Fin n} (hs : s.exec e = some s')
    (hidle : ∀ nd, s.iteration e ≠ some (q, nd)) : s.appends q e = [] := by
  cases e with
  | run p =>
    have hne : ¬ (p = q ∧ (s.nodes p).currentRole = .leader) := by
      rintro ⟨rfl, -⟩
      exact hidle _ rfl
    simp only [appends, if_neg hne]
  | follower p source timeout =>
    have hne : p ≠ q := by
      rintro rfl
      exact hidle _ rfl
    simp only [appends, if_neg hne]
  | leader p heartbeat expired source =>
    have hne : ¬ (p = q ∧ (s.nodes p).currentRole = .leader) := by
      rintro ⟨rfl, -⟩
      exact hidle _ rfl
    simp only [appends, if_neg hne]
  | _ => rfl

/-- What the iteration of a node writes. -/
theorem iteration_writes {p : Fin n} {nd : Node n V} (hready : s.Ready) (hsend : s.Sendable)
    (hs : s.exec e = some s') (hiteration : s.iteration e = some (p, nd)) :
    (s.nodes p).Writes nd (s.appends p e) ∧ (nd.loop = .leader → nd.Sendable) ∧
      ((s.nodes p).currentRole = .leader → (s.nodes p).AppendsTo nd (s.appends p e)) := by
  have hlog := (hready p).log
  obtain ⟨rfl, hloop, rfl⟩ | ⟨source, timeout, rfl, hloop, rfl⟩ |
    ⟨source, timeout, k, m, rfl, hloop, rfl⟩ | ⟨heartbeat, expired, source, rfl, hloop, rfl⟩ :=
    iteration_cases hs hiteration
  · have happends := (s.nodes p).run_appendsTo
    simp only [appends, true_and]
    exact ⟨happends.writes hlog, fun hlead => Node.sendable_run hlog hlead hloop,
      fun _ => happends⟩
  · simp only [appends, if_true]
    have hcan : s.received p source = none ∨ (s.nodes p).currentRole = .follower := by
      cases hreceived : s.received p source with
      | none => exact .inl rfl
      | some x => exact .inr (follower_of_received hs hreceived)
    refine ⟨Node.follower_writes hlog _ timeout hcan,
      fun hlead => absurd hlead (Node.follower_loop hloop _ timeout), fun hlead => ?_⟩
    -- a node that leads but is still in the loop of a follower leaves it
    have hother : ¬ (s.nodes p).currentRole = .follower := by simp [hlead]
    rw [hcan.resolve_right hother]
    simp only [Node.follower, if_neg hother]
    exact .of_eq rfl rfl
  · have happends := (s.nodes p).candidate_appendsTo k m (s.received p source) timeout
    exact ⟨happends.writes hlog, fun hlead => absurd hlead (Node.candidate_loop hloop _ timeout),
      fun _ => happends⟩
  · by_cases hrole : (s.nodes p).currentRole = .leader
    · obtain ⟨happends, -, hnext⟩ := (hsend p hloop).leader hrole hloop heartbeat expired
        (s.received p source)
      simp only [appends, hrole, and_self, if_true]
      exact ⟨happends.writes hlog, hnext, fun _ => happends⟩
    · simp only [appends, hrole, and_false, if_false, Node.leader]
      exact ⟨Node.AppendsTo.writes (.of_eq rfl rfl) hlog, by simp, by simp⟩

/-- What a step writes at every node, and that a leader only appends. -/
theorem exec_appends (hready : s.Ready) (hsend : s.Sendable) (hs : s.exec e = some s')
    (q : Fin n) : (s.nodes q).Writes (s'.nodes q) (s.appends q e) ∧
      ((s.nodes q).currentRole = .leader →
        (s.nodes q).AppendsTo (s'.nodes q) (s.appends q e)) := by
  obtain ⟨nd, hiteration, heq⟩ | ⟨hidle, queue, role, heq, -⟩ := exec_node hs q
  · obtain ⟨hwrites, -, happends⟩ := iteration_writes hready hsend hs hiteration
    rw [heq]
    exact ⟨⟨hwrites.log, hwrites.logHash⟩,
      fun hlead => ⟨(happends hlead).log, (happends hlead).logHash⟩⟩
  · have hnone : (s.nodes q).AppendsTo (s'.nodes q) [] := by
      rw [heq]
      exact .of_eq rfl rfl
    rw [appends_of_idle hs hidle]
    exact ⟨hnone.writes (hready q).log, fun _ => hnone⟩

theorem Sendable.exec (h : s.Sendable) (hready : s.Ready) (hs : s.exec e = some s') :
    s'.Sendable := by
  intro q hlead
  obtain ⟨nd, hiteration, heq⟩ | ⟨-, queue, role, heq, -⟩ := exec_node hs q
  · obtain ⟨-, hnext, -⟩ := iteration_writes hready h hs hiteration
    rw [heq] at hlead ⊢
    exact (hnext hlead).congr rfl rfl rfl rfl
  · rw [heq] at hlead ⊢
    exact (h q hlead).congr rfl rfl rfl rfl

/-- In every run leaders can send what they have to, so none of them reads beyond its log. -/
theorem Sendable.of_reachable {G : Cluster n V → Event n V → Prop}
    (h : (clusterSystem n V).Reachable G s) : s.Sendable := by
  have hboth : s.Ready ∧ s.Sendable := by
    refine TransitionSystem.Reachable.invariant (I := fun s => s.Ready ∧ s.Sendable) ?_ ?_ h
    · rintro _ rfl
      exact ⟨ready_init, fun p hlead => by simp [init, Node.init] at hlead⟩
    · rintro s e t ⟨hready, hsend⟩ _ hs
      exact ⟨hready.exec hs, hsend.exec hready hs⟩
  exact hboth.2

end Cluster

end DreamboatRpc.Raft
