import DreamboatRpc.Raft.Ballots
import DreamboatRpc.Raft.CommitIndex
import DreamboatRpc.Raft.Sending

/-!
# The applied position

A node keeps index and term of what it has last applied beside its commit index, asks for
votes with them and compares with them what others ask with. A leader commits an entry of
its log under the term the entry has. A follower takes index and term of a committal as
they come; when it commits on append it takes the index of the predecessor and the term of
the new entry; and an entry it accepts may replace the one it has last applied.

## Main definitions

* `Node.Applied` — index and term of what is last applied are a position of the log
* `CallsWithApplied` — nodes ask for votes with such a position
* `Node.staysApplied` — the condition on the message a follower is given
* `Node.commitOnAppend` — what an accepted entry should let a follower commit

## Main results

* `commit_on_append_iff` — when a follower commits on append what it should
* `applied_exec_iff` — a step keeps all applied positions real iff it meets the condition
* `applied_position_iff` — the same for all steps of a run
-/

namespace DreamboatRpc.Raft

open CS

variable {n : ℕ} {V : Type*}

/-! ## Commit on append -/

/-- The commit index a follower should have after it has stored an entry behind index
`prevLogIndex`, when the leader has committed `leaderCommit`: the entry is the last one it
knows to match the leader. -/
def Node.commitOnAppend (nd : Node n V) (prevLogIndex leaderCommit : ℕ) : ℕ :=
  max nd.commitIndex (min leaderCommit (prevLogIndex + 1))

/-- A timer changes neither the log nor what is committed and applied. -/
theorem Node.follower_commitIndex {nd : Node n V} (hrole : nd.currentRole = .follower) (q : Fin n)
    (message : Message n V) (timeout : Bool) :
    (nd.follower (some (q, message)) timeout).commitIndex =
      ({ nd with incomingMessage := some message }.followerMessage q message).commitIndex := by
  unfold Node.follower
  rw [if_pos hrole]
  simp only [Node.receive]
  split <;> rfl

/-- A follower that accepts an entry commits at most what the leader and itself have committed,
and all of it that it knows to match, iff the leader has committed no more than itself, or
exactly the predecessor. -/
theorem commit_on_append_iff {nd : Node n V} (hrole : nd.currentRole = .follower)
    {term prevLogIndex prevLogTerm : ℕ}
    (haccept : nd.acceptsAppendEntries term prevLogIndex prevLogTerm = true)
    (sender leaderId : Fin n) (entries : Entry V) (leaderCommit : ℕ) (timeout : Bool) :
    ((nd.follower (some (sender, .appendEntries term leaderId prevLogIndex prevLogTerm entries
        leaderCommit)) timeout).commitIndex ≤ max nd.commitIndex leaderCommit ∧
      (nd.follower (some (sender, .appendEntries term leaderId prevLogIndex prevLogTerm entries
        leaderCommit)) timeout).commitIndex = nd.commitOnAppend prevLogIndex leaderCommit) ↔
      leaderCommit ≤ nd.commitIndex ∨ leaderCommit = prevLogIndex := by
  set message : Message n V :=
    .appendEntries term leaderId prevLogIndex prevLogTerm entries leaderCommit
  have hheld : ({ nd with incomingMessage := some message } : Node n V).acceptsAppendEntries term
      prevLogIndex prevLogTerm = true := haccept
  have hcommit : (nd.follower (some (sender, message)) timeout).commitIndex =
      if leaderCommit > nd.commitIndex then prevLogIndex else nd.commitIndex := by
    rw [Node.follower_commitIndex hrole]
    exact Node.followerAppendEntries_commitIndex hheld leaderId entries leaderCommit
  -- either the predecessor is committed or nothing is
  rw [hcommit, Node.commitOnAppend]
  split <;> omega

/-- A node of two that has stored three entries behind the initial one, and committed none. -/
def threeUncommitted : Node 2 (List ℕ) :=
  { Node.init 1 with
    log := [Node.initialEntry, ⟨2, [], -1⟩, ⟨2, [0], 0⟩, ⟨2, [1], 1⟩], currentTerm := 2 }

/-- The leader has committed the third of them and sends the next one. -/
theorem commit_on_append_iff_threeUncommitted :
    (threeUncommitted.follower (some (0, .appendEntries 2 0 3 2 ⟨2, [2], 2⟩ 3)) false).commitIndex
      = threeUncommitted.commitOnAppend 3 3 := by
  have haccept : threeUncommitted.acceptsAppendEntries 2 3 2 = true := by decide
  exact ((commit_on_append_iff rfl haccept 0 0 _ 3 false).mpr (.inr rfl)).2

/-- A follower commits entries that the leader has not. -/
theorem commit_on_append_beyond :
    ¬ ∀ (n : ℕ) (nd : Node n (List ℕ)) (term prevLogIndex prevLogTerm leaderCommit : ℕ)
        (sender leaderId : Fin n) (entries : Entry (List ℕ)) (timeout : Bool),
      nd.currentRole = .follower → nd.acceptsAppendEntries term prevLogIndex prevLogTerm = true →
      (nd.follower (some (sender, .appendEntries term leaderId prevLogIndex prevLogTerm entries
          leaderCommit)) timeout).commitIndex ≤ max nd.commitIndex leaderCommit ∧
        (nd.follower (some (sender, .appendEntries term leaderId prevLogIndex prevLogTerm entries
          leaderCommit)) timeout).commitIndex = nd.commitOnAppend prevLogIndex leaderCommit := by
  intro hclaim
  have hle := (hclaim 2 threeUncommitted 2 3 2 1 0 0 ⟨2, [2], 2⟩ false rfl (by decide)).1
  exact absurd hle (by decide)

/-! ## Applied positions -/

/-- The index and term a node has last applied are those of an entry of its log, and the index
is the one it has committed. -/
structure Node.Applied (nd : Node n V) : Prop where
  committed : nd.lastAppliedIndex = nd.commitIndex
  inside : nd.lastAppliedIndex < nd.log.length
  term : nd.log[nd.lastAppliedIndex]?.map Entry.term = some nd.lastAppliedTerm

/-- All nodes have applied real positions. -/
def AllApplied (s : Cluster n V) : Prop := ∀ p, (s.nodes p).Applied

/-- What a node asks for votes with in a step is a position of its log. -/
def CallsWithApplied [EmptyCollection V] (x : Step n V) : Prop :=
  ∀ p nd, x.source.iteration x.event = some (p, nd) → ∀ m ∈ nd.talker, ∀ term index t,
    m.2.message = .requestVotes term index t → nd.log[index]?.map Entry.term = some t

/-- A follower that is given the message has applied a position its log will have: a
committal is for an entry it has; an entry that is accepted is committed only under the term
of its predecessor, and otherwise does not take the place of the one last applied, or has the
same term. -/
def Node.staysApplied (nd : Node n V) : Message n V → Bool
  | .appendEntries term _ prevLogIndex prevLogTerm entries leaderCommit =>
    !nd.acceptsAppendEntries term prevLogIndex prevLogTerm ||
      if leaderCommit > nd.commitIndex then entries.term == prevLogTerm
      else decide (nd.commitIndex ≤ prevLogIndex) ||
        (nd.commitIndex == prevLogIndex + 1 && entries.term == nd.lastAppliedTerm)
  | .committal _ prevLogIndex prevLogTerm =>
    nd.log[prevLogIndex]?.map Entry.term == some prevLogTerm
  | .requestVotes _ _ _ | .vote _ _ | .heartbeat _ _ | .acknowledge _ _ | .clientRequest _ _ =>
    true

section Applied

variable {nd nd' : Node n V}

theorem Node.Applied.congr (h : nd.Applied) (hsame : nd.SameApplied nd') : nd'.Applied where
  committed := by
    rw [hsame.lastAppliedIndex, hsame.commitIndex]
    exact h.committed
  inside := by
    rw [hsame.lastAppliedIndex, hsame.log]
    exact h.inside
  term := by
    rw [hsame.lastAppliedIndex, hsame.log, hsame.lastAppliedTerm]
    exact h.term

/-- A position is real as soon as the log has an entry of its term there. -/
theorem Node.applied_of_getElem? {e : Entry V} (hcommitted : nd.lastAppliedIndex = nd.commitIndex)
    (he : nd.log[nd.lastAppliedIndex]? = some e) (hterm : e.term = nd.lastAppliedTerm) :
    nd.Applied :=
  ⟨hcommitted, (List.getElem?_eq_some_iff.mp he).1, by rw [he, Option.map_some, hterm]⟩

/-- A leader commits an entry of its log under the term of the entry, and what it appends
leaves the position it has applied where it is. -/
theorem kept_applied : Kept (Node.Applied : Node n V → Prop) where
  congr _ _ h hsame := h.congr hsame
  op nd nd' h hop := by
    cases hop with
    | commit index e _ _ he => exact Node.applied_of_getElem? rfl he rfl
    | append entry _ =>
      obtain ⟨e, he, hterm⟩ := Option.map_eq_some_iff.mp h.term
      exact Node.applied_of_getElem? h.committed
        (Archive.getElem?_of_extended (List.prefix_append _ _) he) hterm
    | _ => exact h.congr ⟨rfl, rfl, rfl, rfl⟩

/-! ## Followers -/

/-- The entries of the log a follower has after it has accepted an entry. -/
theorem followerAppendEntries_getElem? {t k u : ℕ} (haccept : nd.acceptsAppendEntries t k u = true)
    (l : Fin n) (e : Entry V) (c i : ℕ) :
    (nd.followerAppendEntries t l k u e c).log[i]? =
      if i ≤ k then nd.log[i]? else if i = k + 1 then some e else none := by
  obtain ⟨prev, hprev, -⟩ := Node.term_of_acceptsAppendEntries haccept
  have hk : k < nd.log.length := (List.getElem?_eq_some_iff.mp hprev).1
  have hlength : (nd.log.take (k + 1)).length = k + 1 := by
    rw [List.length_take]
    omega
  rw [Node.followerAppendEntries_log, if_pos haccept, List.getElem?_append, hlength]
  split
  · rw [List.getElem?_take_of_lt (by omega), if_pos (by omega)]
  · rw [if_neg (by omega), List.getElem?_singleton]
    split
    · rw [if_pos (by omega)]
    · rw [if_neg (by omega)]

/-- A follower that commits the predecessor does so under the term of the new entry. -/
theorem followerAppendEntries_applied_of_gt {t k u : ℕ}
    (haccept : nd.acceptsAppendEntries t k u = true) (l : Fin n) (e : Entry V) {c : ℕ}
    (hc : c > nd.commitIndex) :
    (nd.followerAppendEntries t l k u e c).Applied ↔ e.term = u := by
  obtain ⟨prev, hprev, hu⟩ := Node.term_of_acceptsAppendEntries haccept
  have hget := followerAppendEntries_getElem? haccept l e c k
  have happlied : (nd.followerAppendEntries t l k u e c).lastAppliedIndex = k ∧
      (nd.followerAppendEntries t l k u e c).commitIndex = k ∧
      (nd.followerAppendEntries t l k u e c).lastAppliedTerm = e.term := by
    simp only [Node.followerAppendEntries, if_pos haccept, Node.appendEntry, hc, decide_true]
    exact ⟨rfl, rfl, rfl⟩
  set nd' := nd.followerAppendEntries t l k u e c
  obtain ⟨hindex, hcommit, hterm⟩ := happlied
  rw [if_pos le_rfl, hprev] at hget
  have hentry : nd'.log[nd'.lastAppliedIndex]? = some prev := by rwa [hindex]
  constructor
  · intro h
    have happlied := h.term
    rw [hentry, hterm, Option.map_some, Option.some.injEq] at happlied
    exact happlied.symm.trans hu
  · intro he
    exact Node.applied_of_getElem? (hindex.trans hcommit.symm) hentry
      (hu.trans (he.symm.trans hterm.symm))

/-- Where nothing is committed, what was applied before may be replaced, or cut off. -/
theorem followerAppendEntries_applied_of_le (h : nd.Applied) {t k u : ℕ}
    (haccept : nd.acceptsAppendEntries t k u = true) (l : Fin n) (e : Entry V) {c : ℕ}
    (hc : c ≤ nd.commitIndex) : (nd.followerAppendEntries t l k u e c).Applied ↔
      nd.lastAppliedIndex ≤ k ∨ (nd.lastAppliedIndex = k + 1 ∧ e.term = nd.lastAppliedTerm) := by
  have happlied : (nd.followerAppendEntries t l k u e c).lastAppliedIndex = nd.lastAppliedIndex ∧
      (nd.followerAppendEntries t l k u e c).commitIndex = nd.commitIndex ∧
      (nd.followerAppendEntries t l k u e c).lastAppliedTerm = nd.lastAppliedTerm := by
    simp only [Node.followerAppendEntries, if_pos haccept, Node.appendEntry, not_lt.mpr hc,
      decide_false]
    exact ⟨rfl, rfl, rfl⟩
  have hget := followerAppendEntries_getElem? haccept l e c nd.lastAppliedIndex
  set nd' := nd.followerAppendEntries t l k u e c
  obtain ⟨hindex, hcommit, hterm⟩ := happlied
  have hcommitted : nd'.lastAppliedIndex = nd'.commitIndex := by
    rw [hindex, hcommit, h.committed]
  rw [← hindex] at hget
  constructor
  · intro h'
    by_contra hnot
    have happlied := h'.term
    rw [hget, hterm, hindex] at happlied
    split at happlied
    · exact hnot (.inl ‹_›)
    · split at happlied
      · rw [Option.map_some, Option.some.injEq] at happlied
        exact hnot (.inr ⟨‹_›, happlied⟩)
      · simp at happlied
  · rintro (hle | ⟨heq, he⟩)
    · obtain ⟨e', he', hterm'⟩ := Option.map_eq_some_iff.mp h.term
      rw [hindex, if_pos hle, he', ← hindex] at hget
      exact Node.applied_of_getElem? hcommitted hget (hterm'.trans hterm.symm)
    · have hnle : ¬ nd.lastAppliedIndex ≤ k := by omega
      rw [hindex, if_neg hnle, if_pos heq, ← hindex] at hget
      exact Node.applied_of_getElem? hcommitted hget (he.trans hterm.symm)

theorem followerAppendEntries_applied_iff (h : nd.Applied) (t : ℕ) (l : Fin n) (k u : ℕ)
    (e : Entry V) (c : ℕ) : (nd.followerAppendEntries t l k u e c).Applied ↔
      nd.staysApplied (.appendEntries t l k u e c) = true := by
  by_cases haccept : nd.acceptsAppendEntries t k u = true
  · simp only [Node.staysApplied, haccept, Bool.not_true, Bool.false_or]
    split
    · rename_i hc
      rw [followerAppendEntries_applied_of_gt haccept l e hc, beq_iff_eq]
    · rename_i hc
      rw [followerAppendEntries_applied_of_le h haccept l e (not_lt.mp hc), h.committed]
      simp
  · have hrefuse : (nd.followerAppendEntries t l k u e c).Applied := by
      simp only [Node.followerAppendEntries, if_neg haccept]
      exact h.congr ⟨rfl, rfl, rfl, rfl⟩
    simp [hrefuse, Node.staysApplied, haccept]

theorem followerMessage_applied_iff (h : nd.Applied) (q : Fin n) (message : Message n V) :
    (nd.followerMessage q message).Applied ↔ nd.staysApplied message = true := by
  cases message with
  | appendEntries t l k u e c => exact followerAppendEntries_applied_iff h t l k u e c
  | committal t i u =>
    -- index and term are taken as they come
    simp only [Node.staysApplied, beq_iff_eq]
    constructor
    · exact fun h' => h'.term
    · intro hterm
      obtain ⟨e, he, hterm'⟩ := Option.map_eq_some_iff.mp hterm
      exact Node.applied_of_getElem? rfl he hterm'
  | _ =>
    simp only [Node.staysApplied, iff_true]
    exact h.congr (followerMessage_sameApplied nd q (by simp) (by simp))

end Applied

/-! ## All steps -/

section Steps

variable [EmptyCollection V] {s s' : Cluster n V} {e : Event n V}

theorem allApplied_init : AllApplied (Cluster.init : Cluster n V) :=
  fun _ => ⟨rfl, Nat.one_pos, rfl⟩

/-- A node that enters a loop applies nothing. -/
theorem run_applied (nd : Node n V) : nd.run.lastAppliedIndex = nd.lastAppliedIndex ∧
    nd.run.lastAppliedTerm = nd.lastAppliedTerm := by
  unfold Node.run
  split
  · obtain ⟨talker, next, reached, heq⟩ := nd.inaugurated.broadcastAppendEntries_eq nd.noop
    simp only [Node.enterLeader_eq, heq]
    exact ⟨rfl, rfl⟩
  · exact ⟨rfl, rfl⟩
  · exact ⟨rfl, rfl⟩
  · exact ⟨rfl, rfl⟩

/-- A step keeps all applied positions real exactly if it meets the condition. -/
theorem applied_exec_iff (h : AllApplied s) (hready : s.Ready) (hs : s.exec e = some s') :
    AllApplied s' ↔ givesFollower Node.staysApplied s e = true := by
  refine Kept.exec_iff (I := fun _ => Node.Applied) (fun _ => kept_applied) ?_ h hready hs
  intro p q message hrole
  have hheld : ({ s.nodes p with incomingMessage := some message } : Node n V).Applied :=
    (h p).congr ⟨rfl, rfl, rfl, rfl⟩
  exact followerMessage_applied_iff hheld q message

/-- Where all positions are real after a step, so is one that is asked for votes with in it. -/
theorem callsWithApplied (htalked : Talked s) (hready : s.Ready) (hs : s.exec e = some s')
    (h : AllApplied s') : CallsWithApplied ⟨s, e, s'⟩ := by
  intro p nd hiteration m hm term index t hcall
  obtain ⟨taken, -, rfl⟩ := Cluster.exec_taken hs hiteration
  have hnd : nd.Applied := by
    have hp := h p
    rw [Cluster.publish_nodes_self, Cluster.setNode_nodes_self] at hp
    exact hp.congr ⟨rfl, rfl, rfl, rfl⟩
  -- only a new candidate asks for votes, and it has applied what it had before
  have hsent : Sent (fun message => ∀ t i u, message = .requestVotes t i u →
      i = nd.lastAppliedIndex ∧ u = nd.lastAppliedTerm) (s.nodes p) nd := by
    obtain ⟨rfl, -, rfl⟩ | ⟨source, timeout, rfl, -, rfl⟩ |
      ⟨source, timeout, k, m, rfl, -, rfl⟩ | ⟨heartbeat, expired, source, rfl, -, rfl⟩ :=
      Cluster.iteration_cases hs hiteration
    · have hsame := run_applied (s.nodes p)
      refine run_sent ⟨by simp, by simp, by simp⟩ (fun t i u hcall => ?_) (by simp) (hready p)
      simp only [Message.requestVotes.injEq] at hcall
      rw [hsame.1, hsame.2]
      exact ⟨hcall.2.1.symm, hcall.2.2.symm⟩
    · exact follower_sent (by simp) (by simp) (by simp) _ timeout
    · exact candidate_sent (by simp) k m _ timeout
    · exact leader_sent ⟨by simp, by simp, by simp⟩ (by simp) (hready p) heartbeat expired _
  obtain ⟨out, htalker, hout⟩ := hsent
  rw [htalker, (htalked p).2, List.nil_append] at hm
  obtain ⟨rfl, rfl⟩ := hout m hm term index t hcall
  exact hnd.term

end Steps

/-! ## The result -/

/-- In every state of a run all applied positions are real, and so are those nodes ask for
votes with, iff every message a follower is given in it meets the condition. -/
theorem applied_position_iff [EmptyCollection V] {s : Cluster n V} {history : List (Step n V)}
    (hrun : (clusterSystem n V).Run unguarded history s) :
    (∀ x ∈ history, AllApplied x.target ∧ CallsWithApplied x) ↔
      ∀ x ∈ history, givesFollower Node.staysApplied x.source x.event = true := by
  have htargets : (∀ x ∈ history, AllApplied x.target) ↔
      ∀ x ∈ history, givesFollower Node.staysApplied x.source x.event = true := by
    apply hrun.targets_iff (I := AllApplied)
      (C := fun s e => givesFollower Node.staysApplied s e = true)
    · rintro _ rfl
      exact allApplied_init
    · intro s e t hreach h hstep
      exact applied_exec_iff h (Cluster.Ready.of_reachable hreach) hstep
  rw [← htargets]
  constructor
  · exact fun h x hx => (h x hx).1
  · intro h x hx
    obtain ⟨hreach, -, hstep⟩ := hrun.of_mem hx
    exact ⟨h x hx, callsWithApplied (Talked.of_reachable hreach)
      (Cluster.Ready.of_reachable hreach) hstep (h x hx)⟩

/-- A follower has applied index `1`, and every step met the condition. -/
def appliesFirst (history : List (Step 2 (List ℕ))) (s : Cluster 2 (List ℕ)) : Bool :=
  (s.nodes 1).lastAppliedIndex == 1 &&
    history.all fun x => givesFollower Node.staysApplied x.source x.event

theorem applied_position_iff_wonElection :
    ∃ (history : List (Step 2 (List ℕ))) (s : Cluster 2 (List ℕ)),
      appliesFirst history s ∧ ∀ x ∈ history, AllApplied x.target ∧ CallsWithApplied x := by
  have hreplay : (replay Cluster.exec (fun _ _ => true) []
      (Cluster.init : Cluster 2 (List ℕ)) (wonElection ++
      [.run 0, .follower 1 (some 0) false, .follower 1 (some 0) false,
        .leader 0 false (fun _ => false) (some 1), .follower 1 (some 0) false])).any
      (fun r => appliesFirst r.1 r.2) = true := by decide
  obtain ⟨history, s, hrun, htest⟩ := exists_run_of_replay appliesFirst hreplay
  refine ⟨history, s, htest, ?_⟩
  rw [applied_position_iff (hrun.mono fun _ _ _ => trivial)]
  simp only [appliesFirst, Bool.and_eq_true, List.all_eq_true] at htest
  exact htest.2

/-- Node `0` of two is given a client request in term 1, and leads term 2. Node `1` stores the
first entry of that term; what tells it that this one is committed is lost, and it learns it
with the request. -/
def requestOfEarlierTerm : List (Event 2 (List ℕ)) :=
  [.clientRequest 0 [7] 0] ++ wonElection ++
    [.run 0, .follower 1 (some 0) false, .follower 1 (some 0) false,
      .leader 0 false (fun _ => false) none, .leader 0 false (fun _ => false) (some 1),
      .lose 0 1 0, .leader 0 false (fun q => q == 1) none, .lose 0 1 0,
      .follower 1 (some 0) false]

/-- Node `1` has committed the entry of term 2 at index `1` as one of term 1. -/
def appliesUnderOther (s : Cluster 2 (List ℕ)) : Bool :=
  decide ((s.nodes 1).lastAppliedIndex = 1 ∧ (s.nodes 1).lastAppliedTerm = 1 ∧
    ((s.nodes 1).log[1]?).map Entry.term = some 2)

/-- Without the condition a follower commits an entry under the term of the one behind it. -/
theorem applied_position_wrong :
    ¬ ∀ (n : ℕ) (s : Cluster n (List ℕ)),
      (clusterSystem n (List ℕ)).Reachable unguarded s → AllApplied s := by
  intro hall
  have hreplay : (replay Cluster.exec (fun _ _ => true) [] Cluster.init
      requestOfEarlierTerm).any (fun r => appliesUnderOther r.2) = true := by decide
  obtain ⟨history, s, hrun, htest⟩ :=
    exists_run_of_replay (fun _ s => appliesUnderOther s) hreplay
  obtain ⟨hindex, happlied, hentry⟩ := of_decide_eq_true htest
  have hterm := (hall 2 s ⟨history, hrun.mono fun _ _ _ => trivial⟩ 1).term
  rw [hindex, happlied, hentry] at hterm
  exact absurd hterm (by decide)

end DreamboatRpc.Raft
