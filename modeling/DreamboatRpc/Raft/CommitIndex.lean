import DreamboatRpc.Raft.LeaderCompleteness
import DreamboatRpc.Raft.LogWrites

/-!
# The commit index and the end of the log

The HTTP threads of the name service read the log at the commit index. A leader commits
only what it has, and leaders, candidates and the client interface never shorten a log.
A follower takes the index of a committal as it comes, and an entry it accepts may cut
the log below the commit index, if only until the entry is appended and committed: the
HTTP threads may read the log in between. `commitsInside` is the exact condition under which
the commit index stays inside the log after every write.

## Main definitions

* `CommitInside` — every commit index is inside the log
* `WritesInside` — every commit index is inside the log after each write of a step
* `commitsInside` — the condition on the message a follower is given

## Main results

* `writesInside_iff` — a step keeps commit indices inside iff it meets the condition
* `commit_index_inside` — the same for all steps of a run
* `commit_index_beyond` — a node that has committed an index its log does not reach
-/

namespace DreamboatRpc.Raft

open CS

variable {n : ℕ} {V : Type*}

/-- The commit index is inside the log. -/
def Node.Inside (nd : Node n V) : Prop := nd.commitIndex < nd.log.length

/-- The commit index is inside the log, and so no reader gets beyond the end of it. -/
def Node.Readable (nd : Node n V) : Prop := nd.Inside ∧ nd.checkCommittedEntry.isSome = true

/-- All commit indices are inside the logs. -/
def CommitInside (s : Cluster n V) : Prop := ∀ p, (s.nodes p).Readable

/-- After each of the writes of a step the commit index is inside the log. -/
def Node.WritesInside (nd : Node n V) (writes : List (LogWrite V)) : Prop :=
  ∀ done, done <+: writes → (nd.writeAll done).Readable

/-- In the course of a step and after it all commit indices are inside the logs. -/
def WritesInside [EmptyCollection V] (x : Step n V) : Prop :=
  (∀ p, (x.source.nodes p).WritesInside (x.source.logWrites p x.event)) ∧ CommitInside x.target

/-- A follower that is given the message commits an index its log has: a committal carries an
index the log has, and an entry that is accepted does not cut what is committed. -/
def Node.staysInside (nd : Node n V) : Message n V → Bool
  | .appendEntries term _ prevLogIndex prevLogTerm _ _ =>
    !nd.acceptsAppendEntries term prevLogIndex prevLogTerm || decide (nd.commitIndex ≤ prevLogIndex)
  | .committal _ prevLogIndex _ => decide (prevLogIndex < nd.log.length)
  | .requestVotes _ _ _ | .vote _ _ | .heartbeat _ _ | .acknowledge _ _ | .clientRequest _ _ =>
    true

/-- The message a follower is given leaves its commit index inside its log. -/
def commitsInside (s : Cluster n V) : Event n V → Bool
  | .follower p source _ => ((s.taken p source).map Packet.message).all (s.nodes p).staysInside
  | _ => true

section Inside

variable {nd nd' : Node n V}

theorem Node.readable_iff : nd.Readable ↔ nd.Inside := by
  simp [Node.Readable, Node.Inside, Node.checkCommittedEntry]

theorem commitInside_iff {s : Cluster n V} : CommitInside s ↔ ∀ p, (s.nodes p).Inside :=
  forall_congr' fun _ => Node.readable_iff

theorem Node.Inside.congr (h : nd.Inside) (hlog : nd'.log = nd.log)
    (hcommit : nd'.commitIndex = nd.commitIndex) : nd'.Inside := by
  unfold Node.Inside at *
  rwa [hlog, hcommit]

/-- A leader commits only an index it has an entry at, and only adds to its log. -/
theorem kept_inside : Kept (Node.Inside : Node n V → Prop) where
  congr _ _ h hsame := h.congr hsame.log hsame.commitIndex
  op nd nd' h hop := by
    cases hop with
    | commit index e _ _ he => exact (List.getElem?_eq_some_iff.mp he).1
    | append entry _ =>
      have hlt : nd.commitIndex < nd.log.length := h
      simp only [Node.Inside, List.length_append, List.length_singleton]
      omega
    | _ => exact h

/-! ## Writes -/

namespace Node.WritesInside

variable {w : LogWrite V} {writes later : List (LogWrite V)}

@[simp] theorem nil_iff : nd.WritesInside [] ↔ nd.Inside := by
  simp [Node.WritesInside, Node.readable_iff]

@[simp] theorem cons_iff :
    nd.WritesInside (w :: writes) ↔ nd.Inside ∧ (nd.write w).WritesInside writes := by
  constructor
  · intro h
    refine ⟨Node.readable_iff.mp (h [] List.nil_prefix), fun done hdone => ?_⟩
    exact h (w :: done) ((List.prefix_cons_inj w).mpr hdone)
  · rintro ⟨hnow, h⟩ done hdone
    rcases List.prefix_cons_iff.mp hdone with rfl | ⟨rest, rfl, hrest⟩
    · exact Node.readable_iff.mpr hnow
    · exact h rest hrest

theorem append (h : nd.WritesInside writes) (h' : (nd.writeAll writes).WritesInside later) :
    nd.WritesInside (writes ++ later) := by
  induction writes generalizing nd with
  | nil => exact h'
  | cons w writes ih =>
    obtain ⟨hnow, hrest⟩ := cons_iff.mp h
    exact cons_iff.mpr ⟨hnow, ih hrest h'⟩

theorem inside (h : nd.WritesInside writes) : (nd.writeAll writes).Inside :=
  Node.readable_iff.mp (h writes List.prefix_rfl)

theorem congr (h : nd.WritesInside writes) (hsame : nd.ReadsAs nd') : nd'.WritesInside writes := by
  intro done hdone
  have hread := hsame.writeAll done
  exact Node.readable_iff.mpr
    ((Node.readable_iff.mp (h done hdone)).congr hread.log hread.commitIndex)

/-- An entry that is appended at the end leaves the commit index where it was. -/
theorem appendWrites (h : nd.Inside) (entry : Entry V) :
    nd.WritesInside (nd.appendWrites entry false none) := by
  have hlt : nd.commitIndex < nd.log.length := h
  simp only [Node.appendWrites, Option.elim_none, List.nil_append, Bool.false_eq_true, if_false,
    cons_iff, nil_iff, h, true_and]
  simp only [Node.Inside, Node.write, List.length_append, List.length_singleton]
  omega

end Node.WritesInside

/-- What a follower writes on a message. The log that was cut is the shortest. -/
theorem followerWrites_inside_iff (h : nd.Inside) (message : Message n V) :
    nd.WritesInside (nd.followerWrites message) ↔ nd.staysInside message = true := by
  have hlt : nd.commitIndex < nd.log.length := h
  cases message with
  | appendEntries t l k u e c =>
    by_cases haccept : nd.acceptsAppendEntries t k u = true
    swap
    · simp [Node.followerWrites, Node.staysInside, haccept, h]
    obtain ⟨prev, hprev, -⟩ := Node.term_of_acceptsAppendEntries haccept
    have hk : k < nd.log.length := (List.getElem?_eq_some_iff.mp hprev).1
    simp only [Node.followerWrites, Node.staysInside, haccept, if_true, Node.appendWrites,
      Option.elim_some, List.singleton_append, Node.WritesInside.cons_iff, h, true_and,
      Bool.not_true, Bool.false_or, decide_eq_true_eq]
    split
    · simp only [Node.WritesInside.cons_iff, Node.WritesInside.nil_iff, Node.Inside, Node.write,
        List.length_append, List.length_take, List.length_singleton, Option.getD_some]
      omega
    · simp only [Node.WritesInside.nil_iff, Node.Inside, Node.write, List.length_append,
        List.length_take, List.length_singleton]
      omega
  | committal t k u =>
    simp only [Node.followerWrites, Node.staysInside, Node.WritesInside.cons_iff,
      Node.WritesInside.nil_iff, h, true_and, decide_eq_true_eq]
    rfl
  | _ => simp [Node.followerWrites, Node.staysInside, h]

theorem followerMessage_inside (h : nd.Inside) {message : Message n V}
    (hmessage : nd.staysInside message = true) (q : Fin n) :
    (nd.followerMessage q message).Inside := by
  have hread := nd.followerMessage_readsAs q message
  exact ((followerWrites_inside_iff h message).mpr hmessage).inside.congr hread.log
    hread.commitIndex

/-- What a leader writes on a message: what it commits is in its log. -/
theorem leaderMessageWrites_inside (h : nd.Inside) (hready : nd.Ready) (hsend : nd.Sendable)
    (hloop : nd.loop = .leader) (sender : Fin n) (message : Message n V) :
    nd.WritesInside (nd.leaderMessageWrites sender message) := by
  cases message with
  | acknowledge term success =>
    obtain ⟨talker, next, reached, index, applied, term', heq, -⟩ :=
      hsend.leaderAcknowledge (by simp [hloop]) sender success
    have hinside : (nd.leaderAcknowledge sender success).Inside :=
      kept_inside.ops h (Node.leaderAcknowledge_ops hready fun _ _ _ => trivial)
    rw [heq] at hinside
    simp only [Node.leaderMessageWrites, heq]
    split
    · exact Node.WritesInside.nil_iff.mpr h
    · exact Node.WritesInside.cons_iff.mpr ⟨h, Node.WritesInside.nil_iff.mpr hinside⟩
  | clientRequest term entries => exact .appendWrites h entries
  | _ => exact Node.WritesInside.nil_iff.mpr h

/-- What an iteration of a leader writes. -/
theorem leaderWrites_inside (h : nd.Inside) (hready : nd.Ready) (hsend : nd.Sendable)
    (heartbeat : Bool) (expired : Fin n → Bool) (incoming : Option (Fin n × Message n V)) :
    nd.WritesInside (nd.leaderWrites heartbeat expired incoming) := by
  unfold Node.leaderWrites
  split
  swap
  · exact Node.WritesInside.nil_iff.mpr h
  obtain ⟨talker, hsends⟩ := Node.leaderSends_of_nextIndex hsend.next heartbeat expired
  simp only [hsends]
  set sent : Node n V := { nd with talker := talker }
  split
  swap
  · exact Node.WritesInside.nil_iff.mpr h
  rename_i hloop
  have hsent : sent.Sendable := hsend.congr rfl rfl rfl rfl
  have hmessage : sent.WritesInside (incoming.elim [] fun m =>
      { sent with incomingMessage := some m.2 }.leaderMessageWrites m.1 m.2) := by
    cases incoming with
    | none => exact Node.WritesInside.nil_iff.mpr h
    | some m =>
      set held : Node n V := { sent with incomingMessage := some m.2 }
      have hheld : held.Inside := h.congr rfl rfl
      exact (leaderMessageWrites_inside hheld (hready.congr rfl rfl)
        (hsent.congr rfl rfl rfl rfl) hloop m.1 m.2).congr ⟨rfl, rfl, rfl⟩
  refine (hmessage.append ?_ : sent.WritesInside _).congr ⟨rfl, rfl, rfl⟩
  have hread := Node.receive_readsAs hsent hloop incoming
  -- then the oldest request of the queue is appended
  have hreceived := hmessage.inside.congr hread.log hread.commitIndex
  refine (?_ : (sent.receive Node.leaderMessage incoming).WritesInside _).congr
    ⟨hread.log.symm, hread.logHash.symm, hread.commitIndex.symm⟩
  split
  swap
  · exact Node.WritesInside.nil_iff.mpr hreceived
  unfold Node.clientRequestWrites
  split
  · exact Node.WritesInside.nil_iff.mpr hreceived
  · exact .appendWrites hreceived _

end Inside

/-! ## All steps -/

section Steps

variable [EmptyCollection V] {s s' : Cluster n V} {e : Event n V}

theorem commitInside_init : CommitInside (Cluster.init : Cluster n V) :=
  commitInside_iff.mpr fun _ => Nat.one_pos

theorem writesInside_of_nil (h : CommitInside s) {p : Fin n} (hp : s.logWrites p e = []) :
    (s.nodes p).WritesInside (s.logWrites p e) := by
  rw [hp]
  exact Node.WritesInside.nil_iff.mpr (commitInside_iff.mp h p)

/-- The nodes other than the follower write nothing, and it writes what it is told. -/
theorem follower_logWrites_inside_iff (h : CommitInside s) (p : Fin n) (source : Option (Fin n))
    (timeout : Bool) :
    (∀ q, (s.nodes q).WritesInside (s.logWrites q (.follower p source timeout))) ↔
      commitsInside s (.follower p source timeout) = true := by
  have hinside := commitInside_iff.mp h p
  -- what the follower writes is all that can go wrong
  have hself : (s.nodes p).WritesInside (s.logWrites p (.follower p source timeout)) ↔
      commitsInside s (.follower p source timeout) = true := by
    simp only [Cluster.logWrites, if_true, commitsInside, Cluster.taken_eq_received]
    cases s.received p source with
    | none => simp [hinside]
    | some m =>
      simp only [Option.elim_some, Option.map_some, Option.all_some]
      exact followerWrites_inside_iff hinside m.2
  rw [← hself]
  refine ⟨fun hall => hall p, fun hp q => ?_⟩
  by_cases hq : p = q
  · rw [← hq]
    exact hp
  · exact writesInside_of_nil h (if_neg hq)

/-- What the threads write in an event keeps the commit indices inside exactly if the event meets
the condition: only what a follower is told can take a commit index outside the log. -/
theorem logWrites_inside_iff (h : CommitInside s) (hready : s.Ready) (hsend : s.Sendable)
    (hs : s.exec e = some s') :
    (∀ p, (s.nodes p).WritesInside (s.logWrites p e)) ↔ commitsInside s e = true := by
  have hinside := commitInside_iff.mp h
  cases e with
  | run p =>
    simp only [commitsInside, iff_true]
    intro q
    simp only [Cluster.logWrites]
    split
    · rename_i hq
      obtain ⟨rfl, -⟩ := hq
      exact .appendWrites (hinside p) _
    · exact Node.WritesInside.nil_iff.mpr (hinside q)
  | follower p source timeout => exact follower_logWrites_inside_iff h p source timeout
  | leader p heartbeat expired source =>
    simp only [commitsInside, iff_true]
    intro q
    simp only [Cluster.logWrites]
    split
    · rename_i hq
      subst hq
      have hloop : (s.nodes p).loop = .leader := by
        simp only [Cluster.exec] at hs
        split at hs
        · rename_i hcond
          exact hcond.1
        · cases hs
      exact leaderWrites_inside (hinside p) (hready p) (hsend p hloop) heartbeat expired _
    · exact Node.WritesInside.nil_iff.mpr (hinside q)
  | _ =>
    simp only [commitsInside, iff_true]
    exact fun q => writesInside_of_nil h rfl

/-- A step keeps the commit indices inside, after each write, exactly if it meets the
condition. -/
theorem writesInside_iff (h : CommitInside s) (hready : s.Ready) (hsend : s.Sendable)
    (hs : s.exec e = some s') : WritesInside ⟨s, e, s'⟩ ↔ commitsInside s e = true := by
  rw [← logWrites_inside_iff h hready hsend hs]
  refine ⟨fun hall => hall.1, fun hall => ⟨hall, commitInside_iff.mpr fun p => ?_⟩⟩
  have hread := Cluster.exec_logWrites hsend hs p
  exact (hall p).inside.congr hread.log hread.commitIndex

end Steps

/-! ## The result -/

/-- In every state of a run, and in the course of every step, the commit indices are inside the
logs iff every message a follower is given in it meets the condition. -/
theorem commit_index_inside [EmptyCollection V] {s : Cluster n V} {history : List (Step n V)}
    (hrun : (clusterSystem n V).Run unguarded history s) :
    (∀ x ∈ history, WritesInside x) ↔
      ∀ x ∈ history, commitsInside x.source x.event = true := by
  apply hrun.transitions_iff (I := CommitInside) (J := WritesInside)
    (C := fun s e => commitsInside s e = true)
  · rintro _ rfl
    exact commitInside_init
  · exact fun _ hx => hx.2
  · intro s e t hreach h hstep
    exact writesInside_iff h (Cluster.Ready.of_reachable hreach)
      (Cluster.Sendable.of_reachable hreach) hstep

/-- A follower has committed index `1`, and every step met the condition. -/
def followsFirst (history : List (Step 2 (List ℕ))) (s : Cluster 2 (List ℕ)) : Bool :=
  (s.nodes 1).commitIndex == 1 && history.all fun x => commitsInside x.source x.event

theorem commit_index_inside_wonElection :
    ∃ (history : List (Step 2 (List ℕ))) (s : Cluster 2 (List ℕ)),
      followsFirst history s ∧ ∀ x ∈ history, WritesInside x := by
  have hreplay : (replay Cluster.exec (fun _ _ => true) []
      (Cluster.init : Cluster 2 (List ℕ)) (wonElection ++
      [.run 0, .follower 1 (some 0) false, .follower 1 (some 0) false,
        .leader 0 false (fun _ => false) (some 1), .follower 1 (some 0) false])).any
      (fun r => followsFirst r.1 r.2) = true := by decide
  obtain ⟨history, s, hrun, htest⟩ := exists_run_of_replay followsFirst hreplay
  refine ⟨history, s, htest, ?_⟩
  rw [commit_index_inside (hrun.mono fun _ _ _ => trivial)]
  simp only [followsFirst, Bool.and_eq_true, List.all_eq_true] at htest
  exact htest.2

/-- Node `1` has committed index `2`, and its log ends before that. -/
def commitsMissing (s : Cluster 2 (List ℕ)) : Bool :=
  decide ((s.nodes 1).commitIndex = 2 ∧ (s.nodes 1).log.length = 2)

/-- Without the condition a committal may be for an entry that the follower lacks. -/
theorem commit_index_beyond :
    ¬ ∀ (n : ℕ) (s : Cluster n (List ℕ)),
      (clusterSystem n (List ℕ)).Reachable unguarded s → CommitInside s := by
  intro hinside
  have hreplay : (replay Cluster.exec (fun _ _ => true) [] Cluster.init
      (creditedTwice.take 20)).any (fun r => commitsMissing r.2) = true := by decide
  obtain ⟨history, s, hrun, htest⟩ := exists_run_of_replay (fun _ s => commitsMissing s) hreplay
  obtain ⟨hcommit, hlength⟩ := of_decide_eq_true htest
  have hreach : (clusterSystem 2 (List ℕ)).Reachable unguarded s :=
    ⟨history, hrun.mono fun _ _ _ => trivial⟩
  have hlt : (s.nodes 1).commitIndex < (s.nodes 1).log.length := (hinside 2 s hreach 1).1
  rw [hcommit, hlength] at hlt
  exact absurd hlt (by decide)

end DreamboatRpc.Raft
