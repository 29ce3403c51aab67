import DreamboatRpc.Raft.Discipline

/-!
# Leader completeness

What a leader of some term commits is in the log of every leader of a later term when
it enters office, in runs whose steps all meet the conditions of `replicates`. The two
steps may come in either order: a later leader may already be in office when an
earlier one, which has not heard of it, commits.

## Main definitions

* `committing`, `entering` — the node that commits as a leader, or enters `_leader`, in
  a step
* `LeaderComplete` — a committed entry is in the logs of all later leaders
* `Archive.Witnesses` — what the archive knows of a step of the past
* `Archive.Continues` — a step leads to a later archive that witnesses it

## Main results

* `ReplicationInv.exec` — the invariant survives a step, and the archive witnesses it
* `leader_completeness` — leader completeness under the conditions
* `leader_incomplete` — an unrestricted run in which a new leader lacks a committed entry
-/

namespace DreamboatRpc.Raft

open CS FifoNetwork ReplicationInv

variable {n : ℕ} {V : Type*}

/-- The node whose `_leader` loop commits in a step. -/
def committing (x : Step n V) : Option (Fin n) :=
  match x.event with
  | .leader p _ _ _ =>
    if (x.source.nodes p).currentRole = .leader ∧
        (x.source.nodes p).commitIndex < (x.target.nodes p).commitIndex then some p
    else none
  | _ => none

/-- The node that enters `_leader` in a step. -/
def entering (x : Step n V) : Option (Fin n) :=
  match x.event with
  | .run p => if (x.source.nodes p).currentRole = .leader then some p else none
  | _ => none

/-- Whatever a leader has committed in a step of the run is in the log of every leader of
a later term when that one enters office. -/
def LeaderComplete (history : List (Step n V)) : Prop :=
  ∀ x ∈ history, ∀ y ∈ history, ∀ p q, committing x = some p → entering y = some q →
    (x.source.nodes p).currentTerm < (y.source.nodes q).currentTerm →
    ∀ i ≤ (x.target.nodes p).commitIndex, ∀ e, (x.target.nodes p).log[i]? = some e →
      (y.source.nodes q).log[i]? = some e

/-! ## The archive as a witness -/

/-- All nodes have stored what the step has committed, and the log of the leader that
commits or enters is on record. -/
structure Archive.Witnesses [EmptyCollection V] (A : Archive n V) (x : Step n V) : Prop where
  commits : ∀ p, committing x = some p →
    (∀ q, (x.target.nodes p).commitIndex ≤ A.stored q (x.source.nodes p).currentTerm) ∧
    (x.target.nodes p).log <+: A.leaderLog (x.source.nodes p).currentTerm
  enters : ∀ p, entering x = some p → A.elected p (x.source.nodes p).currentTerm ∧
    (x.source.nodes p).log ++ [(x.source.nodes p).noop] <+:
      A.leaderLog (x.source.nodes p).currentTerm

variable [EmptyCollection V] {s s' : Cluster n V} {L L' : Ledger n} {A A' : Archive n V}

theorem Archive.Extends.witnesses {x : Step n V} (h : A.Extends A') (hx : A.Witnesses x) :
    A'.Witnesses x where
  commits p hp := by
    obtain ⟨hstored, hlog⟩ := hx.commits p hp
    exact ⟨fun q => (hstored q).trans (h.stored q _), hlog.trans (h.leaderLog _)⟩
  enters p hp := by
    obtain ⟨helected, hlog⟩ := hx.enters p hp
    exact ⟨h.elected _ _ helected, hlog.trans (h.leaderLog _)⟩

/-- Nobody commits as a leader or enters office in the step. -/
theorem Archive.Witnesses.of_none {x : Step n V} (hc : committing x = none)
    (he : entering x = none) : A.Witnesses x :=
  ⟨fun p hp => by simp [hc] at hp, fun p hp => by simp [he] at hp⟩

/-! ## One step -/

/-- A later archive describes the cluster after the step and witnesses it; who has won
office by then is in the ledger `L`. -/
def Archive.Continues (A : Archive n V) (L : Ledger n) (x : Step n V) : Prop :=
  ∃ A', ReplicationInv x.target A' ∧ A.Extends A' ∧ A'.elected ≤ L.elected ∧ A'.Witnesses x

theorem ReplicationInv.Replicable.continues {x : Step n V} {p : Fin n} {nd : Node n V}
    (h : Replicable s A p nd) (hA : A.elected ≤ L.elected)
    (htarget : ∀ {A'}, ReplicationInv (s.setNode p nd) A' → ReplicationInv x.target A')
    (hc : committing x = none) (he : entering x = none) : A.Continues L x := by
  obtain ⟨A', hA', hext, helected⟩ := h
  exact ⟨A', htarget hA', hext, helected.trans hA, .of_none hc he⟩

namespace ReplicationInv

variable {p : Fin n} {source : Option (Fin n)} {taken : Cluster n V}
  {incoming : Option (Fin n × Packet n V)}

/-- The loop of `run`: the log of a leader that enters office is on record. -/
theorem continues_run (h : ReplicationInv s A) (hA : A.elected ≤ L.elected)
    (hready : s.Ready) :
    A.Continues L ⟨s, .run p, (s.setNode p (s.nodes p).run).publish p⟩ := by
  cases hrole : (s.nodes p).currentRole with
  | leader =>
    have hrun : (s.nodes p).run = (s.nodes p).enterLeader := by simp [Node.run, hrole]
    rw [hrun]
    obtain ⟨A', hA', hext, helected, hlog, -⟩ := h.enterLeader (hready p) hrole
    refine ⟨A', hA'.publish, hext, helected.trans hA, fun q hq => ?_, fun q hq => ?_⟩
    · simp [committing] at hq
    · simp only [entering, hrole, if_true, Option.some.injEq] at hq
      subst hq
      refine ⟨hext.elected _ _ ((h.nodes p).leads hrole), ?_⟩
      rw [hlog, Node.enterLeader_log]
  | follower =>
    have hrun : (s.nodes p).run = { s.nodes p with loop := .follower } := by
      simp [Node.run, hrole]
    rw [hrun]
    have hstep : Replicable s A p { s.nodes p with loop := .follower } :=
      h.replicable_of_frame (.of_talker rfl rfl le_rfl (by simp [hrole]) rfl)
    exact hstep.continues hA (fun hA' => hA'.publish) rfl (by simp [entering, hrole])
  | candidate =>
    have hrun : (s.nodes p).run = (s.nodes p).enterCandidate := by simp [Node.run, hrole]
    rw [hrun]
    have hstep : Replicable s A p (s.nodes p).enterCandidate :=
      h.replicable_of_frame (enterCandidate_quiet hrole).toLogFrame
    exact hstep.continues hA (fun hA' => hA'.publish) rfl (by simp [entering, hrole])
  | none =>
    have hrun : (s.nodes p).run = s.nodes p := by simp [Node.run, hrole]
    rw [hrun]
    exact (Replicable.self h).continues hA (fun hA' => hA'.publish) rfl
      (by simp [entering, hrole])

/-- A follower accepts an offer that was under way, in its own term, and cuts nothing that
agrees with it. -/
theorem continues_follower (h : ReplicationInv s A) (hA : A.elected ≤ L.elected)
    {timeout : Bool} (htake : s.take p source = some (taken, incoming))
    (haccepts : acceptsOwnTerm s (.follower p source timeout) = true)
    (hkeeps : keepsAgreed s (.follower p source timeout) = true) :
    A.Continues L ⟨s, .follower p source timeout,
      (taken.setNode p ((s.nodes p).follower (s.received p source) timeout)).publish p⟩ := by
  have hfewer := Cluster.take_fewer htake
  have hstep : Replicable taken A p
      ((taken.nodes p).follower (s.received p source) timeout) := by
    apply (h.fewer hfewer).follower timeout
    all_goals
      intro q t l k u e c hreceived
      rw [← Cluster.received_eq_of_take htake] at hreceived
      obtain ⟨packet, rfl, htaken, hmessage, hmem⟩ := Cluster.received_of_take htake hreceived
    · have hvouched := h.vouched q p packet hmem
      rw [Archive.Vouches, hmessage] at hvouched
      exact hvouched
    · intro haccept
      rw [hfewer.nodes] at haccept ⊢
      simpa [acceptsOwnTerm, htaken, hmessage, haccept] using haccepts
    · intro haccept
      rw [hfewer.nodes] at haccept ⊢
      simpa [keepsAgreed, htaken, hmessage, haccept] using hkeeps
  rw [hfewer.nodes] at hstep
  exact hstep.continues hA (fun hA' => hA'.publish) rfl rfl

/-- A candidate that wins is the only node that has won its term. -/
theorem continues_candidate (h : ReplicationInv s A) (hL : ElectionInv s L)
    (hA : A.elected ≤ L.elected) (hLL' : L.elected ≤ L'.elected) {timeout : Bool} {k m : ℕ}
    (hloop : (s.nodes p).loop = .candidate k m)
    (htake : s.take p source = some (taken, incoming))
    (hL' : ElectionInv ((taken.setNode p
      ((s.nodes p).candidate k m (s.received p source) timeout)).publish p) L') :
    A.Continues L' ⟨s, .candidate p source timeout, (taken.setNode p
      ((s.nodes p).candidate k m (s.received p source) timeout)).publish p⟩ := by
  have hfewer := Cluster.take_fewer htake
  have hleads := hL'.leads p
  rw [Cluster.publish_nodes_self, Cluster.setNode_nodes_self] at hleads
  have hcandidate := (h.fewer hfewer).candidate (p := p) k m (s.received p source) timeout
  rw [hfewer.nodes] at hcandidate
  specialize hcandidate fun hw q hq => by
    -- the term the node wins has no other leader, and it has not won it before
    have hwon := hleads hw.currentRole
    have hq' : q = p := by
      apply hL'.elected_unique (t := (s.nodes p).currentTerm)
      · exact hLL' _ _ (hA _ _ hq)
      · rw [← hw.currentTerm]
        exact hwon
    rw [hq'] at hq
    exact (hL.running p k m hloop).2.2.1 (hA _ _ hq)
  obtain ⟨A', hA', hext, helected⟩ := hcandidate
  refine ⟨A', hA'.publish, hext, fun q t hq => ?_, .of_none rfl rfl⟩
  rcases helected q t hq with hq | ⟨rfl, hlead, rfl⟩
  · exact hLL' _ _ (hA _ _ hq)
  · exact hleads hlead

/-- A leader appends entries of its own term and credits what the acknowledges answer;
all nodes have stored what it commits. -/
theorem continues_leader (h : ReplicationInv s A) (hA : A.elected ≤ L.elected)
    (hready : s.Ready) {heartbeat : Bool} {expired : Fin n → Bool}
    (hloop : (s.nodes p).loop = .leader) (htake : s.take p source = some (taken, incoming))
    (happends : appendsOwnTerm s (.leader p heartbeat expired source) = true)
    (hcredits : creditsAnswered s (.leader p heartbeat expired source) = true) :
    A.Continues L ⟨s, .leader p heartbeat expired source, (taken.setNode p
      ((s.nodes p).leader heartbeat expired (s.received p source))).publish p⟩ := by
  have hfewer := Cluster.take_fewer htake
  by_cases hrole : (s.nodes p).currentRole = .leader
  · have hleader : Concluded taken A p ((taken.nodes p).leader heartbeat expired
        (s.received p source)) := by
      apply (h.fewer hfewer).leader
      all_goals rw [hfewer.nodes]
      · exact hready p
      · exact hrole
      · exact hloop
      · exact (of_appendsOwnTerm happends hrole).1
      · intro q t k hreceived hnext
        rw [← Cluster.received_eq_of_take htake] at hreceived
        obtain ⟨⟨message, cause⟩, rfl, htaken, rfl, hmem⟩ :=
          Cluster.received_of_take htake hreceived
        have hvouched := h.vouched q p _ hmem
        simp only [creditsAnswered, htaken, hnext] at hcredits
        rcases cause with _ | cause
        · simp at hcredits
        cases cause with
        | appendEntries u l i v e c =>
          have hanswers : u = (s.nodes p).currentTerm ∧ i + 1 = k := by simpa using hcredits
          rw [← hanswers.1, ← hanswers.2]
          exact hvouched u l i v e c rfl
        | _ => simp at hcredits
      · exact (of_appendsOwnTerm happends hrole).2
    rw [hfewer.nodes] at hleader
    obtain ⟨A', hA', hext, helected, hlog, hcommitted⟩ := hleader
    rw [hfewer.nodes] at hlog hcommitted
    refine ⟨A', hA'.publish, hext, helected.trans hA, fun q hq => ?_,
      fun q hq => by simp [entering] at hq⟩
    simp only [committing, Option.ite_none_right_eq_some, Option.some.injEq] at hq
    obtain ⟨⟨-, hlt⟩, rfl⟩ := hq
    simp only [Cluster.publish_nodes_self, Cluster.setNode_nodes_self] at hlt ⊢
    exact ⟨hcommitted.resolve_left hlt.ne', by rw [hlog]⟩
  · have hexit : (s.nodes p).leader heartbeat expired (s.received p source) =
        { s.nodes p with loop := .run } := by simp [Node.leader, hrole]
    rw [hexit, ← hfewer.nodes]
    exact (h.fewer hfewer).exitLoop.continues hA (fun hA' => hA'.publish)
      (by simp [committing, hrole]) rfl

end ReplicationInv

/-- A step that meets the conditions preserves the invariant, and the archive witnesses
what is committed and who enters office in it. -/
theorem ReplicationInv.exec {e : Event n V} (h : ReplicationInv s A) (hL : ElectionInv s L)
    (hAL : A.elected ≤ L.elected) (hL' : ElectionInv s' L') (hLL' : L.elected ≤ L'.elected)
    (hready : s.Ready) (hguard : replicates s e = true) (hs : s.exec e = some s') :
    A.Continues L' ⟨s, e, s'⟩ := by
  simp only [replicates, Bool.and_eq_true] at hguard
  obtain ⟨⟨⟨⟨-, happends⟩, haccepts⟩, hkeeps⟩, hcredits⟩ := hguard
  have hA := hAL.trans hLL'
  obtain ⟨p, rfl, hloop, rfl⟩ | ⟨p, source, timeout, taken, incoming, rfl, hloop, -, htake, rfl⟩ |
    ⟨p, source, timeout, taken, incoming, k, m, rfl, hloop, -, htake, rfl⟩ |
    ⟨p, heartbeat, expired, source, taken, incoming, rfl, hloop, -, htake, rfl⟩ |
    ⟨p, value, idNum, rfl, rfl⟩ | ⟨p, rfl, rfl⟩ | ⟨p, rfl, rfl⟩ | ⟨src, dst, i, rfl, rfl⟩ :=
    Cluster.exec_cases hs
  · exact h.continues_run hA hready
  · rw [Cluster.received_eq_of_take htake]
    exact h.continues_follower hA htake haccepts hkeeps
  · rw [Cluster.received_eq_of_take htake] at hL' ⊢
    exact h.continues_candidate hL hAL hLL' hloop htake hL'
  · rw [Cluster.received_eq_of_take htake]
    exact h.continues_leader hA hready hloop htake happends hcredits
  · have hstep : Replicable s A p ((s.nodes p).clientRequest value idNum) := by
      refine ⟨A, ?_, .refl, le_rfl⟩
      exact h.setNode_frame [] rfl rfl le_rfl (fun hlead => ⟨hlead, rfl⟩) (h.nodes p).backed
        (by simp [Node.clientRequest]) (by simp)
    exact hstep.continues hA id rfl rfl
  · have hstep : Replicable s A p (s.nodes p).pause :=
      h.replicable_of_frame (.of_talker rfl rfl le_rfl (by simp [Node.pause]) rfl)
    exact hstep.continues hA id rfl rfl
  · have hstep : Replicable s A p (s.nodes p).unPause := by
      unfold Node.unPause
      split
      · exact h.replicable_of_frame (.of_talker rfl rfl le_rfl (by simp) rfl)
      · exact .self h
    exact hstep.continues hA id rfl rfl
  · exact ⟨A, h.fewer (Cluster.lose_fewer src dst i), .refl, hA, .of_none rfl rfl⟩

/-! ## The result -/

/-- The invariants along a run, with an archive that witnesses all its steps. -/
structure Accounts (history : List (Step n V)) (s : Cluster n V) (L : Ledger n)
    (A : Archive n V) : Prop where
  ready : s.Ready
  election : ElectionInv s L
  replication : ReplicationInv s A
  elected : A.elected ≤ L.elected
  witnesses : ∀ x ∈ history, A.Witnesses x

theorem Accounts.init : Accounts [] (Cluster.init : Cluster n V)
    ⟨fun _ _ => [], fun _ => ∅, fun _ _ => False⟩ ⟨fun _ _ => False, fun _ => [], fun _ _ => 0⟩ :=
  ⟨Cluster.ready_init, .init, .init, fun _ _ h => h, by simp⟩

theorem Accounts.exec {history : List (Step n V)} {e : Event n V}
    (h : Accounts history s L A) (hguard : replicates s e = true) (hs : s.exec e = some s') :
    ∃ L' A', Accounts (⟨s, e, s'⟩ :: history) s' L' A' ∧ A.Extends A' := by
  have hvote : countsCurrentVote s e = true := by
    simp only [replicates, Bool.and_eq_true] at hguard
    exact hguard.1.1.1.1
  obtain ⟨L', hL', hLL'⟩ := h.election.exec h.ready hvote hs
  obtain ⟨A', hA', hext, helected, hwitness⟩ :=
    h.replication.exec h.election h.elected hL' hLL' h.ready hguard hs
  refine ⟨L', A', ⟨h.ready.exec hs, hL', hA', helected, fun x hx => ?_⟩, hext⟩
  rcases List.mem_cons.mp hx with rfl | hx
  · exact hwitness
  · exact hext.witnesses (h.witnesses x hx)

theorem exists_accounts {history : List (Step n V)}
    (h : (clusterSystem n V).Run (fun s e => replicates s e = true) history s) :
    ∃ L A, Accounts history s L A := by
  refine h.invariant (I := fun history s => ∃ L A, Accounts history s L A) ?_ ?_
  · rintro _ rfl
    exact ⟨_, _, Accounts.init⟩
  · rintro history s e s' ⟨L, A, hacc⟩ hguard hstep
    obtain ⟨L', A', hacc', -⟩ := hacc.exec hguard hstep
    exact ⟨L', A', hacc'⟩

/-- Where all nodes have stored the log of the leader of a term, the leaders of later terms
agree with it. -/
theorem ReplicationInv.agreeTo_of_stored (h : ReplicationInv s A) {q : Fin n} {t t' m : ℕ}
    (helected : A.elected q t') (ht : t < t') (hm : 1 ≤ m) (hall : ∀ r, m ≤ A.stored r t) :
    AgreeTo m (A.leaderLog t') (A.leaderLog t) := by
  have hlen := ((h.nodes q).stored t (hm.trans (hall q))).1
  rcases h.carries q t' t m helected ht hm ((hall q).trans_lt hlen) with hagree | ⟨r, -, hr⟩
  · exact hagree
  · exact absurd (hall r) (by omega)

/-- Leader completeness in all runs that meet the conditions. -/
theorem leader_completeness {history : List (Step n V)}
    (h : (clusterSystem n V).Run (fun s e => replicates s e = true) history s) :
    LeaderComplete history := by
  obtain ⟨L, A, hacc⟩ := exists_accounts h
  have hinv := hacc.replication
  intro x hx y hy p q hp hq hterm i hi e he
  obtain ⟨hall, hlog⟩ := (hacc.witnesses x hx).commits p hp
  obtain ⟨helected, hentered⟩ := (hacc.witnesses y hy).enters q hq
  have hpos : 1 ≤ (x.target.nodes p).commitIndex := by
    unfold committing at hp
    split at hp
    · simp only [Option.ite_none_right_eq_some, Option.some.injEq] at hp
      obtain ⟨⟨-, hlt⟩, rfl⟩ := hp
      omega
    · simp at hp
  have hagree := hinv.agreeTo_of_stored helected hterm hpos hall
  have hentry : (A.leaderLog (y.source.nodes q).currentTerm)[i]? = some e := by
    rw [hagree.getElem? hi]
    exact Archive.getElem?_of_extended hlog he
  -- the entry is older than the one the new leader appends on entering
  have hlt : i < (y.source.nodes q).log.length := by
    by_contra hge
    have hnoop : (A.leaderLog (y.source.nodes q).currentTerm)[(y.source.nodes q).log.length]? =
        some (y.source.nodes q).noop :=
      Archive.getElem?_of_extended hentered (by simp)
    rw [hagree.getElem? (by omega)] at hnoop
    have hle := hinv.archive.terms _ _ _ hnoop
    have hterm' : (y.source.nodes q).noop.term = (y.source.nodes q).currentTerm := rfl
    omega
  obtain ⟨rest, hrest⟩ := hentered
  rw [← hrest, List.append_assoc, List.getElem?_append_left hlt] at hentry
  exact hentry

/-- Node `0` of two wins term 2, replicates its first entry and commits it; then node `1`
wins term 3. -/
def handedOver : List (Event 2 (List ℕ)) := wonElection ++
  [.run 0, .follower 1 (some 0) false, .follower 1 (some 0) false,
    .leader 0 false (fun _ => false) (some 1), .follower 1 none true, .run 1,
    .leader 0 false (fun _ => false) (some 1), .candidate 1 (some 1) false,
    .candidate 1 (some 1) false, .candidate 1 (some 0) false, .candidate 1 (some 0) false,
    .run 1]

/-- Node `0` commits in a step of the run, and node `1` enters a later term as leader. -/
def handsOver (history : List (Step 2 (List ℕ))) : Bool :=
  decide (∃ x ∈ history, ∃ y ∈ history, committing x = some 0 ∧ entering y = some 1 ∧
    (x.source.nodes 0).currentTerm < (y.source.nodes 1).currentTerm)

theorem leader_completeness_handedOver : ∃ history : List (Step 2 (List ℕ)),
    handsOver history ∧ LeaderComplete history := by
  have hreplay : (replay Cluster.exec replicates [] Cluster.init handedOver).any
      (fun r => handsOver r.1) = true := by decide
  obtain ⟨history, s, hrun, htest⟩ := exists_run_of_replay (fun history _ => handsOver history)
    hreplay
  exact ⟨history, htest, leader_completeness hrun⟩

/-- Node `0` of two wins term 2 and replicates its first entry, but sends it twice before
the answer arrives. It takes the second answer for one to the entry of a client, which
node `1` has not got, and commits that; the entry itself is lost. Then node `1` wins
term 3. -/
def creditedTwice : List (Event 2 (List ℕ)) := wonElection ++
  [.run 0, .follower 1 (some 0) false, .follower 1 (some 0) false, .clientRequest 0 [7] 0,
    .leader 0 false (fun _ => false) none, .leader 0 false (fun q => q == 1) none,
    .follower 1 (some 0) false, .leader 0 false (fun _ => false) (some 1),
    .leader 0 false (fun _ => false) (some 1), .lose 0 1 0, .follower 1 (some 0) false,
    .follower 1 (some 0) true, .run 1, .leader 0 false (fun _ => false) (some 1),
    .candidate 1 (some 1) false, .candidate 1 (some 1) false, .candidate 1 (some 0) false,
    .run 1]

/-- Node `0` commits an entry at index `2`, and node `1` enters a later term without. -/
def forgets (history : List (Step 2 (List ℕ))) : Bool :=
  decide (∃ x ∈ history, ∃ y ∈ history, committing x = some 0 ∧ entering y = some 1 ∧
    (x.source.nodes 0).currentTerm < (y.source.nodes 1).currentTerm ∧
    2 ≤ (x.target.nodes 0).commitIndex ∧
    (x.target.nodes 0).log[2]? = some { term := 2, entry := [7], id := 0 } ∧
    (y.source.nodes 1).log[2]? = none)

/-- Without the conditions a new leader may lack an entry that was committed. -/
theorem leader_incomplete :
    ¬ ∀ (n : ℕ) (history : List (Step n (List ℕ))) (s : Cluster n (List ℕ)),
      (clusterSystem n (List ℕ)).Run unguarded history s → LeaderComplete history := by
  intro hcomplete
  have hreplay : (replay Cluster.exec (fun _ _ => true) [] Cluster.init creditedTwice).any
      (fun r => forgets r.1) = true := by decide
  obtain ⟨history, s, hrun, htest⟩ := exists_run_of_replay (fun history _ => forgets history)
    hreplay
  obtain ⟨x, hx, y, hy, hcommit, henter, hterm, hindex, hentry, hmissing⟩ :=
    of_decide_eq_true htest
  have hpresent := hcomplete 2 history s (hrun.mono fun _ _ _ => trivial) x hx y hy 0 1
    hcommit henter hterm 2 hindex _ hentry
  simp [hmissing] at hpresent

end DreamboatRpc.Raft
