import DreamboatRpc.Raft.LeaderCompleteness

/-!
# State machine safety

Two nodes have the same entries at all indices that both have committed and have in
their logs. On top of the conditions under which logs are replicated this needs one
more: a follower that commits on appending commits no index its leader has not
committed. Then all commit indices, also those under way, are below one index that all
nodes have stored for the leader of some term.

## Main definitions

* `commitsWithinLeader`, `commitsSafely` — the additional condition, and all together
* `StateMachineSafe` — nodes agree wherever both have committed
* `CommitInv` — the bound on commit indices

## Main results

* `CommitInv.exec` — the bound survives every step that meets the conditions
* `state_machine_safety` — state machine safety under the conditions
* `diverged` — two nodes that have committed different entries, in an unrestricted run
-/

namespace DreamboatRpc.Raft

open CS FifoNetwork ReplicationInv

variable {n : ℕ} {V : Type*}

/-- A follower that commits on appending commits no more than its leader has. -/
def commitsWithinLeader (s : Cluster n V) : Event n V → Bool
  | .follower p source _ =>
    match (s.taken p source).map Packet.message with
    | some (.appendEntries term _ prevLogIndex prevLogTerm _ leaderCommit) =>
      !(s.nodes p).acceptsAppendEntries term prevLogIndex prevLogTerm ||
        !decide (leaderCommit > (s.nodes p).commitIndex) || decide (prevLogIndex ≤ leaderCommit)
    | _ => true
  | _ => true

/-- The conditions under which what is committed lasts. -/
def commitsSafely (s : Cluster n V) (e : Event n V) : Bool :=
  replicates s e && commitsWithinLeader s e

/-- Two nodes agree wherever both have committed and have an entry. -/
def StateMachineSafe (s : Cluster n V) : Prop :=
  ∀ p q i, i ≤ min (s.nodes p).commitIndex (s.nodes q).commitIndex →
    i < (s.nodes p).log.length → i < (s.nodes q).log.length →
    (s.nodes p).log[i]? = (s.nodes q).log[i]?

/-! ## Commit indices in an iteration -/

/-- The commit index a message carries is at most `c`. -/
def Packet.CarriesUpTo (c : ℕ) (packet : Packet n V) : Prop :=
  match packet.message with
  | .appendEntries _ _ _ _ _ leaderCommit => leaderCommit ≤ c
  | .committal _ prevLogIndex _ => prevLogIndex ≤ c
  | _ => True

theorem Packet.carriesUpTo_of_isPlain {packet : Packet n V} (h : packet.message.isPlain = true)
    (c : ℕ) : packet.CarriesUpTo c := by
  unfold Packet.CarriesUpTo
  split
  · rename_i hmessage
    simp [hmessage, Message.isPlain] at h
  · rename_i hmessage
    simp [hmessage, Message.isPlain] at h
  · trivial

theorem Packet.CarriesUpTo.mono {packet : Packet n V} {c c' : ℕ} (h : packet.CarriesUpTo c)
    (hc : c ≤ c') : packet.CarriesUpTo c' := by
  unfold Packet.CarriesUpTo at *
  split
  · rename_i hmessage
    rw [hmessage] at h
    exact h.trans hc
  · rename_i hmessage
    rw [hmessage] at h
    exact h.trans hc
  · trivial

section CommitFrame

variable {nd nd' nd'' : Node n V} {c c' : ℕ}

/-- `nd` has committed nothing beyond `c`. -/
structure Node.CommitsUpTo (c : ℕ) (nd : Node n V) : Prop where
  commitIndex : nd.commitIndex ≤ c
  lastAppliedIndex : nd.lastAppliedIndex ≤ c

/-- `nd'` has committed nothing beyond `c`, and told nobody so since `nd`. -/
structure CommitFrame (c : ℕ) (nd nd' : Node n V) : Prop extends Node.CommitsUpTo c nd' where
  talker : ∃ out, nd'.talker = nd.talker ++ out ∧ ∀ m ∈ out, m.2.CarriesUpTo c

theorem CommitFrame.refl (h : nd.CommitsUpTo c) : CommitFrame c nd nd :=
  ⟨h, [], by simp, by simp⟩

theorem CommitFrame.trans (h : CommitFrame c nd nd') (h' : CommitFrame c nd' nd'') :
    CommitFrame c nd nd'' := by
  obtain ⟨out, hout, hcarries⟩ := h.talker
  obtain ⟨out', hout', hcarries'⟩ := h'.talker
  refine ⟨h'.toCommitsUpTo, out ++ out', by rw [hout', hout, List.append_assoc], fun m hm => ?_⟩
  rcases List.mem_append.mp hm with hm | hm
  · exact hcarries m hm
  · exact hcarries' m hm

theorem CommitFrame.mono (h : CommitFrame c nd nd') (hc : c ≤ c') : CommitFrame c' nd nd' := by
  obtain ⟨out, hout, hcarries⟩ := h.talker
  exact ⟨⟨h.commitIndex.trans hc, h.lastAppliedIndex.trans hc⟩, out, hout,
    fun m hm => (hcarries m hm).mono hc⟩

theorem QuietFrame.commitFrame (hf : QuietFrame nd nd') (h : nd.CommitsUpTo c) :
    CommitFrame c nd nd' := by
  obtain ⟨out, hout, hplain⟩ := hf.talker
  exact ⟨⟨hf.commitIndex ▸ h.commitIndex, hf.lastAppliedIndex ▸ h.lastAppliedIndex⟩, out, hout,
    fun m hm => Packet.carriesUpTo_of_isPlain (hplain m hm) c⟩

/-- The node sends nothing and keeps its commit index. -/
theorem CommitFrame.of_talker (h : nd.CommitsUpTo c) (hcommit : nd'.commitIndex = nd.commitIndex)
    (happlied : nd'.lastAppliedIndex = nd.lastAppliedIndex) (htalker : nd'.talker = nd.talker) :
    CommitFrame c nd nd' :=
  ⟨⟨hcommit ▸ h.commitIndex, happlied ▸ h.lastAppliedIndex⟩, [], by simp [htalker], by simp⟩

/-- A leader tells nobody of more than it has committed in the end. -/
theorem commitFrame_leaderOp {O : Entry V → Prop} {C : Fin n → ℕ → Prop}
    (h : nd.CommitsUpTo c) (hop : Node.LeaderOp O C nd nd') :
    nd.commitIndex ≤ nd'.commitIndex ∧ CommitFrame (max c nd'.commitIndex) nd nd' := by
  have hkeep : ∀ {nd' : Node n V}, nd'.commitIndex = nd.commitIndex →
      nd'.lastAppliedIndex = nd.lastAppliedIndex → nd'.talker = nd.talker →
      nd.commitIndex ≤ nd'.commitIndex ∧ CommitFrame (max c nd'.commitIndex) nd nd' :=
    fun hcommit happlied htalker =>
      ⟨hcommit.ge, (CommitFrame.of_talker h hcommit happlied htalker).mono (le_max_left _ _)⟩
  have hsend : ∀ (receiver : Option (Fin n)) (message : Message n V),
      (∀ cause, Packet.CarriesUpTo c ⟨message, cause⟩) →
      nd.commitIndex ≤ (nd.sendMessage receiver message).commitIndex ∧
        CommitFrame (max c (nd.sendMessage receiver message).commitIndex) nd
          (nd.sendMessage receiver message) := by
    intro receiver message hcarries
    have hframe : CommitFrame c nd (nd.sendMessage receiver message) := by
      refine ⟨⟨h.commitIndex, h.lastAppliedIndex⟩, _, rfl, fun m hm => ?_⟩
      rw [List.mem_singleton.mp hm]
      exact hcarries _
    exact ⟨le_rfl, hframe.mono (le_max_left _ _)⟩
  cases hop with
  | heartbeat => exact hsend _ _ fun _ => trivial
  | sendEntry => exact hsend _ _ fun _ => h.commitIndex
  | committal => exact hsend _ _ fun _ => h.lastAppliedIndex
  | commit index e _ hlt _ =>
    exact ⟨hlt.le, ⟨⟨le_max_right _ _, le_max_right _ _⟩, [], by simp [Node.commitEntry],
      by simp⟩⟩
  | _ => exact hkeep rfl rfl rfl

theorem commitFrame_leaderOps {O : Entry V → Prop} {C : Fin n → ℕ → Prop}
    (h : nd.CommitsUpTo c) (hops : Node.LeaderOps O C nd nd') :
    nd.commitIndex ≤ nd'.commitIndex ∧ CommitFrame (max c nd'.commitIndex) nd nd' := by
  induction hops with
  | refl => exact ⟨le_rfl, (CommitFrame.refl h).mono (le_max_left _ _)⟩
  | @tail nd₁ nd₂ _ hop ih =>
    obtain ⟨hle, hframe⟩ := ih
    obtain ⟨hle', hframe'⟩ := commitFrame_leaderOp hframe.toCommitsUpTo hop
    -- a leader never takes back what it has committed, so the last bound is the largest
    have hmax : max (max c nd₁.commitIndex) nd₂.commitIndex = max c nd₂.commitIndex := by
      rw [max_assoc, max_eq_right hle']
    rw [hmax] at hframe'
    exact ⟨hle.trans hle', (hframe.mono (max_le_max_left c hle')).trans hframe'⟩

/-- A broadcast commits nothing. -/
theorem commitFrame_broadcast (hready : nd.Ready) (h : nd.CommitsUpTo c) (entry : Entry V) :
    (nd.broadcastAppendEntries entry).commitIndex = nd.commitIndex ∧
      CommitFrame c nd (nd.broadcastAppendEntries entry) := by
  obtain ⟨talker, next, reached, heq⟩ := Node.broadcastAppendEntries_eq nd entry
  have hcommit : (nd.broadcastAppendEntries entry).commitIndex = nd.commitIndex := by
    rw [heq]
    rfl
  have hframe := (commitFrame_leaderOps h (Node.broadcastAppendEntries_ops (O := fun _ => True)
    (C := fun _ _ => True) hready entry trivial)).2
  rw [hcommit, max_eq_left h.commitIndex] at hframe
  exact ⟨hcommit, hframe⟩

/-- An iteration of `_leader`. -/
theorem commitFrame_leader (hready : nd.Ready) (hrole : nd.currentRole = .leader)
    (h : nd.CommitsUpTo c) (heartbeat : Bool) (expired : Fin n → Bool)
    (incoming : Option (Fin n × Message n V)) :
    CommitFrame (max c (nd.leader heartbeat expired incoming).commitIndex) nd
      (nd.leader heartbeat expired incoming) := by
  obtain ⟨nd₁, hops, hcases⟩ := Node.leader_cases (O := fun _ => True) (C := fun _ _ => True)
    hrole hready heartbeat expired incoming (fun _ _ _ _ => trivial) (fun _ _ _ _ _ => trivial)
  obtain ⟨-, hframe⟩ := commitFrame_leaderOps h hops
  obtain heq | ⟨q, t, i, u, -, hlt, heq⟩ | ⟨entry, rest, -, -, -, heq⟩ := hcases
  · rw [heq]
    exact hframe
  · rw [heq]
    exact hframe.trans ((yieldTo_quiet q (by rw [hops.currentTerm]; exact hlt.le)).commitFrame
      hframe.toCommitsUpTo)
  · rw [heq]
    have hready' : ({ nd₁ with clientQueue := rest } : Node n V).Ready :=
      (hready.ops hops).congr rfl rfl
    -- appending the request of a client commits nothing
    have hframe' : CommitFrame (max c nd₁.commitIndex) nd { nd₁ with clientQueue := rest } :=
      hframe.trans (.of_talker hframe.toCommitsUpTo rfl rfl rfl)
    obtain ⟨hcommit, hbroadcast⟩ := commitFrame_broadcast hready' hframe'.toCommitsUpTo entry
    rw [hcommit]
    exact hframe'.trans hbroadcast

/-- A follower handles a message that carries at most `c`. -/
theorem commitFrame_followerMessage (hrole : nd.currentRole = .follower) (h : nd.CommitsUpTo c)
    (q : Fin n) {message : Message n V} (hcarries : Packet.CarriesUpTo c ⟨message, none⟩)
    (hwithin : ∀ t l k u e i, message = .appendEntries t l k u e i →
      nd.acceptsAppendEntries t k u = true → i > nd.commitIndex → k ≤ i) :
    CommitFrame c nd (nd.followerMessage q message) := by
  cases message with
  | requestVotes t i u => exact (followerRequestVotes_quiet hrole q t i u).commitFrame h
  | heartbeat t l => exact (followerHeartbeat_quiet hrole t l).commitFrame h
  | appendEntries t l k u e i =>
    simp only [Node.followerMessage, Node.followerAppendEntries]
    split
    · rename_i haccept
      have hsend : ∀ nd' : Node n V, nd'.CommitsUpTo c → nd'.talker = nd.talker →
          CommitFrame c nd (nd'.sendAcknowledge l true) := by
        intro nd' hnd' htalker
        refine ⟨⟨hnd'.commitIndex, hnd'.lastAppliedIndex⟩, [(some l, ⟨.acknowledge nd'.currentTerm
          true, nd'.incomingMessage⟩)], by rw [← htalker]; rfl, fun m hm => ?_⟩
        rw [List.mem_singleton.mp hm]
        trivial
      simp only [Node.appendEntry, Node.cutLog]
      split
      · rename_i hcommit
        -- the entry is committed at the index of its predecessor
        have hk : k ≤ c := (hwithin t l k u e i rfl haccept (of_decide_eq_true hcommit)).trans
          hcarries
        exact hsend _ ⟨hk, hk⟩ rfl
      · exact hsend _ ⟨h.commitIndex, h.lastAppliedIndex⟩ rfl
    · have hne : nd.currentRole ≠ .leader := by simp [hrole]
      have hrefuse : QuietFrame nd (nd.sendAcknowledge l false) :=
        ⟨.of_send rfl rfl rfl rfl le_rfl hne, rfl, rfl⟩
      exact hrefuse.commitFrame h
  | committal t i u =>
    -- a follower commits what it is told
    exact ⟨⟨hcarries, hcarries⟩, [], by simp [Node.followerMessage, Node.commitEntry], by simp⟩
  | _ => exact .refl h

theorem commitFrame_follower (h : nd.CommitsUpTo c) {incoming : Option (Fin n × Message n V)}
    (timeout : Bool)
    (hcarries : ∀ q message, incoming = some (q, message) →
      Packet.CarriesUpTo c ⟨message, none⟩)
    (hwithin : ∀ q t l k u e i, incoming = some (q, .appendEntries t l k u e i) →
      nd.acceptsAppendEntries t k u = true → i > nd.commitIndex → k ≤ i) :
    CommitFrame c nd (nd.follower incoming timeout) := by
  unfold Node.follower
  split
  · rename_i hrole
    have hmessage : CommitFrame c nd (nd.receive Node.followerMessage incoming) := by
      cases incoming with
      | none => exact .refl h
      | some x =>
        obtain ⟨q, message⟩ := x
        set held : Node n V := { nd with incomingMessage := some message }
        have hheld : CommitFrame c nd held := .of_talker h rfl rfl rfl
        have hrole' : held.currentRole = .follower := hrole
        refine hheld.trans (commitFrame_followerMessage hrole' hheld.toCommitsUpTo q
          (hcarries q message rfl) ?_)
        rintro t l k u e i rfl
        exact hwithin q t l k u e i rfl
    simp only
    split
    · exact hmessage.trans (.of_talker hmessage.toCommitsUpTo rfl rfl rfl)
    · exact hmessage
  · exact .of_talker h rfl rfl rfl

theorem commitFrame_candidate (h : nd.CommitsUpTo c) (k m : ℕ)
    (incoming : Option (Fin n × Message n V)) (timeout : Bool) :
    CommitFrame c nd (nd.candidate k m incoming timeout) := by
  by_cases hrole : nd.currentRole = .candidate
  · rcases candidate_cases hrole k m incoming timeout with hf | hw
    · exact hf.commitFrame h
    · exact .of_talker h hw.commitIndex hw.lastAppliedIndex hw.talker
  · unfold Node.candidate
    rw [if_neg hrole]
    exact .of_talker h rfl rfl rfl

theorem commitFrame_run [EmptyCollection V] (hready : nd.Ready) (h : nd.CommitsUpTo c) :
    CommitFrame c nd nd.run := by
  unfold Node.run
  split
  · rw [Node.enterLeader_eq]
    have hframe : CommitFrame c nd nd.inaugurated := by
      refine ⟨⟨h.commitIndex, h.lastAppliedIndex⟩, _, rfl, fun m hm => ?_⟩
      rw [List.mem_singleton.mp hm]
      trivial
    have hbroadcast := (commitFrame_broadcast hready.inaugurated hframe.toCommitsUpTo nd.noop).2
    exact (hframe.trans hbroadcast).trans (.of_talker hbroadcast.toCommitsUpTo rfl rfl rfl)
  · exact .of_talker h rfl rfl rfl
  · rename_i hrole
    exact (enterCandidate_quiet hrole).commitFrame h
  · exact .refl h

end CommitFrame

/-! ## Commit indices in a run -/

/-- Nothing beyond `c` is committed or said to be, and all nodes have stored the log of the
leader of some term up to `c`. -/
structure CommitInv (s : Cluster n V) (A : Archive n V) (c : ℕ) : Prop where
  nodes : ∀ p, (s.nodes p).CommitsUpTo c
  carried : ∀ p q, ∀ packet ∈ s.inflight p q, packet.CarriesUpTo c
  stored : c = 0 ∨ ∃ t, ∀ p, c ≤ A.stored p t

namespace CommitInv

variable {s s' : Cluster n V} {A A' : Archive n V} {p : Fin n} {c c' : ℕ} {nd : Node n V}

theorem init [EmptyCollection V] (A : Archive n V) :
    CommitInv (Cluster.init : Cluster n V) A 0 where
  nodes _ := ⟨le_rfl, le_rfl⟩
  carried p q packet h := by
    simp [Cluster.inflight, Cluster.init, Node.init, FifoNetwork.empty] at h
  stored := .inl rfl

theorem fewer (h : CommitInv s A c) (hs : s'.Fewer s) : CommitInv s' A c where
  nodes p := by
    rw [hs.nodes]
    exact h.nodes p
  carried p q packet hmem := h.carried p q packet ((hs.inflight p q).subset hmem)
  stored := h.stored

theorem extend (h : CommitInv s A c) (hext : A.Extends A') : CommitInv s A' c where
  nodes := h.nodes
  carried := h.carried
  stored := h.stored.imp id (Exists.imp fun t ht p => (ht p).trans (hext.stored p t))

theorem setNode (h : CommitInv s A c) (hc : c ≤ c') (hf : CommitFrame c' (s.nodes p) nd)
    (hstored : c' = 0 ∨ ∃ t, ∀ p, c' ≤ A.stored p t) : CommitInv (s.setNode p nd) A c' where
  nodes q := by
    rw [Cluster.setNode_nodes]
    split
    · exact hf.toCommitsUpTo
    · exact ⟨(h.nodes q).commitIndex.trans hc, (h.nodes q).lastAppliedIndex.trans hc⟩
  carried q r packet hmem := by
    obtain ⟨out, htalker, hout⟩ := hf.talker
    obtain hmem | ⟨-, receiver, -, hmem⟩ := Cluster.mem_inflight_setNode out htalker hmem
    · exact (h.carried q r packet hmem).mono hc
    · exact hout _ hmem
  stored := hstored

theorem publish (h : CommitInv s A c) : CommitInv (s.publish p) A c where
  nodes q := by
    by_cases hq : q = p
    · subst hq
      rw [Cluster.publish_nodes_self]
      exact ⟨(h.nodes q).commitIndex, (h.nodes q).lastAppliedIndex⟩
    · rw [Cluster.publish_nodes_of_ne hq]
      exact h.nodes q
  carried q r packet hmem := by
    rw [Cluster.inflight_publish] at hmem
    exact h.carried q r packet hmem
  stored := h.stored

/-- A step that meets the conditions preserves the bound, or raises it to what a leader
has committed. -/
theorem exec [EmptyCollection V] {e : Event n V} (h : CommitInv s A c) (hext : A.Extends A')
    (hwitness : A'.Witnesses ⟨s, e, s'⟩) (hready : s.Ready)
    (hguard : commitsWithinLeader s e = true) (hs : s.exec e = some s') :
    ∃ c', CommitInv s' A' c' := by
  have h' := h.extend hext
  obtain ⟨p, rfl, -, rfl⟩ | ⟨p, source, timeout, taken, incoming, rfl, -, -, htake, rfl⟩ |
    ⟨p, source, timeout, taken, incoming, k, m, rfl, -, -, htake, rfl⟩ |
    ⟨p, heartbeat, expired, source, taken, incoming, rfl, -, -, htake, rfl⟩ |
    ⟨p, value, idNum, rfl, rfl⟩ | ⟨p, rfl, rfl⟩ | ⟨p, rfl, rfl⟩ | ⟨src, dst, i, rfl, rfl⟩ :=
    Cluster.exec_cases hs
  · exact ⟨c, (h'.setNode le_rfl (commitFrame_run (hready p) (h.nodes p)) h'.stored).publish⟩
  · have hfewer := Cluster.take_fewer htake
    refine ⟨c, ((h'.fewer hfewer).setNode le_rfl ?_ h'.stored).publish⟩
    rw [hfewer.nodes]
    refine commitFrame_follower (h.nodes p) timeout (fun q message hreceived => ?_) ?_
    · obtain ⟨packet, -, -, hmessage, hmem⟩ := Cluster.received_of_take htake hreceived
      have hcarries := h.carried q p packet hmem
      rwa [Packet.CarriesUpTo, hmessage] at hcarries
    · intro q t l k u e i hreceived haccept hgt
      obtain ⟨packet, -, htaken, hmessage, -⟩ := Cluster.received_of_take htake hreceived
      have hnot : ¬ i ≤ (s.nodes p).commitIndex := hgt.not_ge
      simpa [commitsWithinLeader, htaken, hmessage, haccept, hnot] using hguard
  · have hfewer := Cluster.take_fewer htake
    refine ⟨c, ((h'.fewer hfewer).setNode le_rfl ?_ h'.stored).publish⟩
    rw [hfewer.nodes]
    exact commitFrame_candidate (h.nodes p) k m _ timeout
  · have hfewer := Cluster.take_fewer htake
    rw [Cluster.received_eq_of_take htake] at hwitness ⊢
    by_cases hrole : (s.nodes p).currentRole = .leader
    · -- only a leader may raise the bound
      have hframe := commitFrame_leader (hready p) hrole (h.nodes p) heartbeat expired
        (s.received p source)
      refine ⟨_, ((h'.fewer hfewer).setNode (le_max_left c _) (by rwa [hfewer.nodes]) ?_).publish⟩
      rcases le_or_gt ((s.nodes p).leader heartbeat expired (s.received p source)).commitIndex c
        with hle | hgt
      · rw [max_eq_left hle]
        exact h'.stored
      · -- the leader has committed beyond the bound, so all nodes have stored that
        rw [max_eq_right hgt.le]
        have hlt := (h.nodes p).commitIndex.trans_lt hgt
        have hstored := (hwitness.commits p (by simpa [committing, hrole,
          Cluster.publish_nodes_self] using hlt)).1
        rw [Cluster.publish_nodes_self, Cluster.setNode_nodes_self] at hstored
        exact .inr ⟨_, hstored⟩
    · refine ⟨c, ((h'.fewer hfewer).setNode le_rfl ?_ h'.stored).publish⟩
      rw [hfewer.nodes]
      unfold Node.leader
      rw [if_neg hrole]
      exact .of_talker (h.nodes p) rfl rfl rfl
  · exact ⟨c, h'.setNode le_rfl (.of_talker (h.nodes p) rfl rfl rfl) h'.stored⟩
  · exact ⟨c, h'.setNode le_rfl (.of_talker (h.nodes p) rfl rfl rfl) h'.stored⟩
  · refine ⟨c, h'.setNode le_rfl ?_ h'.stored⟩
    unfold Node.unPause
    split
    · exact .of_talker (h.nodes p) rfl rfl rfl
    · exact .refl (h.nodes p)
  · exact ⟨c, h'.fewer (Cluster.lose_fewer src dst i)⟩

end CommitInv

/-! ## The result -/

/-- Up to an index that all nodes have stored for the leader of some term, all logs agree. -/
theorem ReplicationInv.agreeTo_log_of_stored [EmptyCollection V] {s : Cluster n V}
    {A : Archive n V} {t c : ℕ} (h : ReplicationInv s A) (hall : ∀ p, c ≤ A.stored p t)
    (hpos : 1 ≤ c) (p : Fin n) : AgreeTo c (s.nodes p).log (A.leaderLog t) := by
  rcases h.storedBefore p t c hpos (hall p) with hagree | ⟨r, -, hr⟩
  · exact hagree
  · exact absurd (hall r) (by omega)

/-- The invariants along a run, with the bound on commit indices. -/
theorem exists_commitInv [EmptyCollection V] {history : List (Step n V)} {s : Cluster n V}
    (h : (clusterSystem n V).Run (fun s e => commitsSafely s e = true) history s) :
    ∃ L A c, Accounts history s L A ∧ CommitInv s A c := by
  refine h.invariant
    (I := fun history s => ∃ L A c, Accounts history s L A ∧ CommitInv s A c) ?_ ?_
  · rintro _ rfl
    exact ⟨_, _, 0, Accounts.init, .init _⟩
  · rintro history s e s' ⟨L, A, c, hacc, hcommit⟩ hguard hstep
    simp only [commitsSafely, Bool.and_eq_true] at hguard
    obtain ⟨L', A', hacc', hext⟩ := hacc.exec hguard.1 hstep
    obtain ⟨c', hcommit'⟩ := hcommit.exec hext (hacc'.witnesses _ (List.mem_cons_self ..))
      hacc.ready hguard.2 hstep
    exact ⟨L', A', c', hacc', hcommit'⟩

/-- Up to the bound on commit indices all nodes agree. -/
theorem CommitInv.agreeTo [EmptyCollection V] {s : Cluster n V} {A : Archive n V} {c i : ℕ}
    (h : CommitInv s A c) (hinv : ReplicationInv s A) (hi : i ≤ c) (p q : Fin n) :
    AgreeTo i (s.nodes p).log (s.nodes q).log := by
  have hhead : AgreeTo 0 (s.nodes p).log (s.nodes q).log := by
    refine ⟨List.length_pos_iff.mpr (hinv.nodes p).log_ne_nil, fun j hj => ?_⟩
    rw [Nat.le_zero.mp hj, (hinv.nodes p).head, (hinv.nodes q).head]
  rcases Nat.eq_zero_or_pos c with rfl | hpos
  · rwa [Nat.le_zero.mp hi]
  obtain ⟨t, ht⟩ := h.stored.resolve_left hpos.ne'
  exact ((hinv.agreeTo_log_of_stored ht hpos p).trans
    (hinv.agreeTo_log_of_stored ht hpos q).symm).mono hi

/-- State machine safety in all runs that meet the conditions. -/
theorem state_machine_safety [EmptyCollection V] {s : Cluster n V}
    (h : (clusterSystem n V).Reachable (fun s e => commitsSafely s e = true) s) :
    StateMachineSafe s := by
  obtain ⟨history, hrun⟩ := h
  obtain ⟨L, A, c, hacc, hcommit⟩ := exists_commitInv hrun
  intro p q i hi hp hq
  have hic : i ≤ c := (hi.trans (min_le_left _ _)).trans (hcommit.nodes p).commitIndex
  exact (hcommit.agreeTo hacc.replication hic p q).getElem? le_rfl

/-- Two nodes have committed index `1`, and both have it. -/
def agreeOnFirst (s : Cluster 2 (List ℕ)) : Bool :=
  decide ((s.nodes 0).commitIndex = 1 ∧ (s.nodes 1).commitIndex = 1 ∧
    1 < (s.nodes 0).log.length ∧ 1 < (s.nodes 1).log.length)

theorem state_machine_safety_handedOver :
    ∃ s : Cluster 2 (List ℕ), agreeOnFirst s ∧ StateMachineSafe s := by
  have hreplay : (replay Cluster.exec commitsSafely []
      (Cluster.init : Cluster 2 (List ℕ)) (wonElection ++
      [.run 0, .follower 1 (some 0) false, .follower 1 (some 0) false,
        .leader 0 false (fun _ => false) (some 1), .follower 1 (some 0) false])).any
      (fun r => agreeOnFirst r.2) = true := by decide
  obtain ⟨history, s, hrun, htest⟩ := exists_run_of_replay (fun _ s => agreeOnFirst s) hreplay
  exact ⟨s, htest, state_machine_safety ⟨history, hrun⟩⟩

/-- Both nodes have committed index `2`, and have different entries there. -/
def divergeAtSecond (s : Cluster 2 (List ℕ)) : Bool :=
  decide (2 ≤ min (s.nodes 0).commitIndex (s.nodes 1).commitIndex ∧
    (s.nodes 0).log[2]? = some { term := 2, entry := [7], id := 0 } ∧
    (s.nodes 1).log[2]? = some { term := 3, entry := [], id := -1 })

/-- Without the conditions two nodes may have committed different entries. -/
theorem diverged :
    ¬ ∀ (n : ℕ) (s : Cluster n (List ℕ)),
      (clusterSystem n (List ℕ)).Reachable unguarded s → StateMachineSafe s := by
  intro hsafe
  have hreplay : (replay Cluster.exec (fun _ _ => true) [] Cluster.init creditedTwice).any
      (fun r => divergeAtSecond r.2) = true := by decide
  obtain ⟨history, s, hrun, htest⟩ := exists_run_of_replay (fun _ s => divergeAtSecond s) hreplay
  obtain ⟨hindex, hentry₀, hentry₁⟩ := of_decide_eq_true htest
  have hreach : (clusterSystem 2 (List ℕ)).Reachable unguarded s :=
    ⟨history, hrun.mono fun _ _ _ => trivial⟩
  have hsame := hsafe 2 s hreach 0 1 2 hindex (List.getElem?_eq_some_iff.mp hentry₀).1
    (List.getElem?_eq_some_iff.mp hentry₁).1
  simp [hentry₀, hentry₁] at hsame

end DreamboatRpc.Raft
