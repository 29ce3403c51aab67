import DreamboatRpc.Raft.StateMachineSafety

/-!
# Durability of what is committed

A step keeps what is committed if no commit index decreases and no log loses what it
had up to its commit index. Leaders, candidates and the client interface always do. A
follower may not: a committal sets the commit index to whatever it carries, and
accepting an entry cuts the log behind its predecessor and may commit at the index of
the predecessor. `keepsCommitted` is the exact condition.

## Main definitions

* `Durable` — a step keeps what is committed
* `keepsCommitted` — the condition on the message a follower is given

## Main results

* `durable_iff` — a step keeps what is committed iff it meets the condition
* `committed_durable` — the same for all steps of a run
* `committed_lost` — a run in which a follower cuts off a committed entry
-/

namespace DreamboatRpc.Raft

open CS

variable {n : ℕ} {V : Type*}

/-- What `nd` has committed is committed in `nd'`, and in its log. -/
structure Node.Keeps (nd nd' : Node n V) : Prop where
  commitIndex : nd.commitIndex ≤ nd'.commitIndex
  log : nd.log.take (nd.commitIndex + 1) <+: nd'.log

/-- A step keeps what is committed. -/
def Durable (x : Step n V) : Prop := ∀ p, (x.source.nodes p).Keeps (x.target.nodes p)

/-- The log of a follower survives being cut behind `prevLogIndex` and extended by `entries`
as far as it is committed. -/
def Node.survivesCut [DecidableEq V] (nd : Node n V) (prevLogIndex : ℕ) (entries : Entry V) :
    Bool :=
  decide (nd.commitIndex ≤ prevLogIndex) || decide (nd.log.length ≤ prevLogIndex + 1) ||
    ((nd.commitIndex == prevLogIndex + 1 || nd.log.length == prevLogIndex + 2) &&
      nd.log[prevLogIndex + 1]? == some entries)

/-- A follower keeps what it has committed when it is given the message: a committal
carries no lower commit index, and an entry it accepts goes behind what it has
committed, or is the last thing it has committed. -/
def Node.keepsOn [DecidableEq V] (nd : Node n V) : Message n V → Bool
  | .appendEntries term _ prevLogIndex prevLogTerm entries leaderCommit =>
    !nd.acceptsAppendEntries term prevLogIndex prevLogTerm ||
      ((!decide (leaderCommit > nd.commitIndex) || decide (nd.commitIndex ≤ prevLogIndex)) &&
        nd.survivesCut prevLogIndex entries)
  | .committal _ prevLogIndex _ => decide (nd.commitIndex ≤ prevLogIndex)
  | .requestVotes _ _ _ | .vote _ _ | .heartbeat _ _ | .acknowledge _ _ | .clientRequest _ _ =>
    true

/-- The message a follower is given lets it keep what it has committed. -/
def keepsCommitted [DecidableEq V] (s : Cluster n V) : Event n V → Bool
  | .follower p source _ => ((s.taken p source).map Packet.message).all (s.nodes p).keepsOn
  | _ => true

section Keeps

variable {nd nd' nd'' : Node n V}

theorem Node.Keeps.of_extended (hlog : nd.log <+: nd'.log)
    (hcommit : nd.commitIndex ≤ nd'.commitIndex) : nd.Keeps nd' :=
  ⟨hcommit, (List.take_prefix _ _).trans hlog⟩

theorem Node.Keeps.of_eq (hlog : nd'.log = nd.log) (hcommit : nd'.commitIndex = nd.commitIndex) :
    nd.Keeps nd' :=
  .of_extended (by rw [hlog]) hcommit.ge

theorem QuietFrame.keeps (hf : QuietFrame nd nd') : nd.Keeps nd' :=
  .of_eq hf.log hf.commitIndex

variable [DecidableEq V]

theorem survivesCut_iff {k : ℕ} {e : Entry V} (hk : k < nd.log.length) :
    nd.survivesCut k e = true ↔
      nd.log.take (nd.commitIndex + 1) <+: nd.log.take (k + 1) ++ [e] := by
  rw [take_prefix_cut_iff hk]
  simp [Node.survivesCut, or_assoc]

theorem followerAppendEntries_keeps_iff (nd : Node n V) (t : ℕ) (l : Fin n) (k u : ℕ)
    (e : Entry V) (i : ℕ) : nd.Keeps (nd.followerAppendEntries t l k u e i) ↔
      nd.keepsOn (.appendEntries t l k u e i) = true := by
  by_cases haccept : nd.acceptsAppendEntries t k u = true
  swap
  · have hrefuse : nd.Keeps (nd.followerAppendEntries t l k u e i) := by
      simp only [Node.followerAppendEntries, if_neg haccept]
      exact .of_eq rfl rfl
    simp [hrefuse, Node.keepsOn, haccept]
  have hk : k < nd.log.length := by
    obtain ⟨prev, hprev, -⟩ := Node.term_of_acceptsAppendEntries haccept
    exact (List.getElem?_eq_some_iff.mp hprev).1
  have hlog : (nd.followerAppendEntries t l k u e i).log = nd.log.take (k + 1) ++ [e] := by
    rw [Node.followerAppendEntries_log, if_pos haccept]
  have hcommit : (nd.followerAppendEntries t l k u e i).commitIndex =
      if i > nd.commitIndex then k else nd.commitIndex :=
    Node.followerAppendEntries_commitIndex haccept l e i
  constructor
  · rintro ⟨hle, hprefix⟩
    rw [hlog, ← survivesCut_iff hk] at hprefix
    rw [hcommit] at hle
    simp only [Node.keepsOn, haccept, hprefix]
    split at hle
    · simp [hle]
    · rename_i hnot
      simp [hnot]
  · intro hkeeps
    simp only [Node.keepsOn, haccept, Bool.not_true, Bool.false_or, Bool.and_eq_true] at hkeeps
    refine ⟨?_, by rw [hlog, ← survivesCut_iff hk]; exact hkeeps.2⟩
    rw [hcommit]
    split
    · rename_i hgt
      simpa [hgt] using hkeeps.1
    · exact le_rfl

theorem followerMessage_keeps_iff (hrole : nd.currentRole = .follower) (q : Fin n)
    (message : Message n V) :
    nd.Keeps (nd.followerMessage q message) ↔ nd.keepsOn message = true := by
  cases message with
  | requestVotes t i u =>
    simp only [Node.followerMessage, Node.keepsOn, iff_true]
    exact (followerRequestVotes_quiet hrole q t i u).keeps
  | heartbeat t l =>
    simp only [Node.followerMessage, Node.keepsOn, iff_true]
    exact (followerHeartbeat_quiet hrole t l).keeps
  | appendEntries t l k u e i => exact followerAppendEntries_keeps_iff nd t l k u e i
  | committal t i u =>
    -- the log stays, so only the direction in which the commit index moves matters
    simp only [Node.followerMessage, Node.keepsOn, Node.commitEntry, decide_eq_true_eq]
    constructor
    · intro h
      exact h.commitIndex
    · intro hle
      exact .of_extended List.prefix_rfl hle
  | _ =>
    simp only [Node.followerMessage, Node.keepsOn, iff_true]
    exact .of_eq rfl rfl

omit [DecidableEq V] in
/-- A leader adds to its log and commits more. -/
theorem kept_keeps (nd : Node n V) : Kept nd.Keeps where
  congr _ _ h hsame := ⟨by rw [hsame.commitIndex]; exact h.commitIndex,
    by rw [hsame.log]; exact h.log⟩
  op nd₁ nd₂ h hop := by
    cases hop with
    | commit index e _ hlt _ => exact ⟨h.commitIndex.trans hlt.le, h.log⟩
    | append entry _ => exact ⟨h.commitIndex, h.log.trans (List.prefix_append _ _)⟩
    | _ => exact ⟨h.commitIndex, h.log⟩

end Keeps

/-- A step keeps what is committed exactly if it meets the condition. -/
theorem durable_iff [EmptyCollection V] [DecidableEq V] {s s' : Cluster n V} {e : Event n V}
    (hready : s.Ready) (hs : s.exec e = some s') :
    Durable ⟨s, e, s'⟩ ↔ keepsCommitted s e = true := by
  have hcondition : keepsCommitted s e = givesFollower Node.keepsOn s e := by
    cases e <;> rfl
  rw [hcondition]
  -- every node is compared with what it was before the step
  refine Kept.exec_iff (I := fun p => (s.nodes p).Keeps) (fun p => kept_keeps (s.nodes p)) ?_
    (fun p => .of_eq rfl rfl) hready hs
  intro p q message hrole
  have hheld : ({ s.nodes p with incomingMessage := some message } : Node n V).currentRole =
      .follower := hrole
  refine Iff.trans ⟨fun h => ?_, fun h => ?_⟩ (followerMessage_keeps_iff hheld q message)
  · exact ⟨h.commitIndex, h.log⟩
  · exact ⟨h.commitIndex, h.log⟩

/-! ## The result -/

/-- A run keeps what is committed, step by step, iff every message a follower is given in
it meets the condition. -/
theorem committed_durable [EmptyCollection V] [DecidableEq V] {s : Cluster n V}
    {history : List (Step n V)} (hrun : (clusterSystem n V).Run unguarded history s) :
    (∀ x ∈ history, Durable x) ↔ ∀ x ∈ history, keepsCommitted x.source x.event = true := by
  refine forall₂_congr fun x hx => ?_
  obtain ⟨hreach, -, hstep⟩ := hrun.of_mem hx
  exact durable_iff (Cluster.Ready.of_reachable hreach) hstep

/-- Both nodes have committed index `1`, and every step was durable by the condition. -/
def keepsFirst (history : List (Step 2 (List ℕ))) (s : Cluster 2 (List ℕ)) : Bool :=
  agreeOnFirst s && history.all fun x => keepsCommitted x.source x.event

theorem committed_durable_handedOver :
    ∃ (history : List (Step 2 (List ℕ))) (s : Cluster 2 (List ℕ)),
      keepsFirst history s ∧ ∀ x ∈ history, Durable x := by
  have hreplay : (replay Cluster.exec (fun _ _ => true) []
      (Cluster.init : Cluster 2 (List ℕ)) (wonElection ++
      [.run 0, .follower 1 (some 0) false, .follower 1 (some 0) false,
        .leader 0 false (fun _ => false) (some 1), .follower 1 (some 0) false])).any
      (fun r => keepsFirst r.1 r.2) = true := by decide
  obtain ⟨history, s, hrun, htest⟩ := exists_run_of_replay keepsFirst hreplay
  refine ⟨history, s, htest, ?_⟩
  rw [committed_durable (hrun.mono fun _ _ _ => trivial)]
  simp only [keepsFirst, Bool.and_eq_true, List.all_eq_true] at htest
  exact htest.2

/-- Node `0`, no longer leader, takes the first entry of the leader of term 3 in place of
the entry it has committed at index `2`. -/
def cutsCommitted (history : List (Step 2 (List ℕ))) : Bool :=
  decide (∃ x ∈ history, 2 ≤ (x.source.nodes 0).commitIndex ∧
    (x.source.nodes 0).log[2]? = some { term := 2, entry := [7], id := 0 } ∧
    (x.target.nodes 0).log[2]? = some { term := 3, entry := [], id := -1 })

/-- Without the condition a node may lose an entry it has committed. -/
theorem committed_lost :
    ¬ ∀ (n : ℕ) (history : List (Step n (List ℕ))) (s : Cluster n (List ℕ)),
      (clusterSystem n (List ℕ)).Run unguarded history s → ∀ x ∈ history, Durable x := by
  intro hdurable
  have hreplay : (replay Cluster.exec (fun _ _ => true) [] Cluster.init
      (creditedTwice ++ [.run 0, .follower 0 (some 1) false, .follower 0 (some 1) false])).any
      (fun r => cutsCommitted r.1) = true := by decide
  obtain ⟨history, s, hrun, htest⟩ := exists_run_of_replay (fun history _ => cutsCommitted history)
    hreplay
  obtain ⟨x, hx, hindex, hbefore, hafter⟩ := of_decide_eq_true htest
  have hkeeps := hdurable 2 history s (hrun.mono fun _ _ _ => trivial) x hx 0
  -- the entry lies in the committed part, so it would still be there
  have hcommitted : ((x.source.nodes 0).log.take ((x.source.nodes 0).commitIndex + 1))[2]? =
      some { term := 2, entry := [7], id := 0 } := by
    rw [List.getElem?_take_of_lt (by omega), hbefore]
  obtain ⟨behind, hlog⟩ := hkeeps.log
  rw [← hlog, List.getElem?_append_left (List.getElem?_eq_some_iff.mp hcommitted).1,
    hcommitted] at hafter
  simp at hafter

end DreamboatRpc.Raft
