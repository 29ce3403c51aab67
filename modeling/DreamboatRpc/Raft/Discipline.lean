import DreamboatRpc.Raft.ElectionSafety
import DreamboatRpc.Raft.Iteration
import DreamboatRpc.Raft.Replication

/-!
# When replication works

Conditions on single steps under which what the archive says is preserved. Each of
them excludes one thing that the loops let happen: an entry is appended under a term
other than that of the leader; a follower accepts an entry of a leader whose term it
has not adopted; it cuts off entries that agree with those of the leader; an
acknowledge is credited to an entry it does not answer.

## Main definitions

* `appendsOwnTerm`, `acceptsOwnTerm`, `keepsAgreed`, `creditsAnswered` — the conditions
* `replicates` — all of them, and that only current votes are counted

## Main results

* `ReplicationInv.follower`, `.candidate`, `.leader`, `.enterLeader` — the loops keep the
  invariant, each under the conditions that concern it
-/

namespace DreamboatRpc.Raft

open CS FifoNetwork Relation

variable {n : ℕ} {V : Type*}

/-! ## The conditions -/

/-- A leader appends entries that are stamped with its own term: the entry of a client
request it receives, and the oldest entry of its client queue. -/
def appendsOwnTerm (s : Cluster n V) : Event n V → Bool
  | .leader p _ _ source =>
    let nd := s.nodes p
    let queue := nd.clientQueue.head?.all fun entry => entry.term == nd.currentTerm
    nd.currentRole != .leader ||
    match (s.taken p source).map Packet.message with
    | some (.clientRequest _ entries) => entries.term == nd.currentTerm && queue
    | some (.requestVotes term _ _) => decide (term > nd.currentTerm) || queue
    | _ => queue
  | _ => true

/-- The condition, for the message an iteration of a leader reads and for its queue. -/
theorem of_appendsOwnTerm {s : Cluster n V} {p : Fin n} {heartbeat : Bool}
    {expired : Fin n → Bool} {source : Option (Fin n)}
    (h : appendsOwnTerm s (.leader p heartbeat expired source) = true)
    (hrole : (s.nodes p).currentRole = .leader) :
    (∀ q t e, s.received p source = some (q, .clientRequest t e) →
      e.term = (s.nodes p).currentTerm) ∧
    (∀ entry rest, (s.nodes p).clientQueue = entry :: rest →
      (∀ q t i u, s.received p source = some (q, .requestVotes t i u) →
        t ≤ (s.nodes p).currentTerm) → entry.term = (s.nodes p).currentTerm) := by
  simp only [appendsOwnTerm, Cluster.taken_eq_received, hrole] at h
  refine ⟨fun q t e hreceived => ?_, fun entry rest hqueue hyield => ?_⟩
  · simp only [hreceived, Option.map_some] at h
    simp at h
    exact h.1
  · simp only [hqueue, List.head?_cons, Option.all_some] at h
    rcases hreceived : s.received p source with _ | ⟨q, message⟩
    · simpa [hreceived] using h
    · cases message with
      | requestVotes t i u =>
        -- a call for votes of a higher term would end the iteration before the queue is read
        have hnot : ¬ (s.nodes p).currentTerm < t := (hyield q t i u hreceived).not_gt
        simpa [hreceived, hnot] using h
      | clientRequest t e =>
        have hboth : e.term = (s.nodes p).currentTerm ∧
            entry.term = (s.nodes p).currentTerm := by simpa [hreceived] using h
        exact hboth.2
      | _ => simpa [hreceived] using h

/-- A follower accepts entries of the leader of its own term only. -/
def acceptsOwnTerm (s : Cluster n V) : Event n V → Bool
  | .follower p source _ =>
    match (s.taken p source).map Packet.message with
    | some (.appendEntries term _ prevLogIndex prevLogTerm _ _) =>
      !(s.nodes p).acceptsAppendEntries term prevLogIndex prevLogTerm ||
        term == (s.nodes p).currentTerm
    | _ => true
  | _ => true

/-- A follower that accepts an entry has nothing behind it, or another entry in its place. -/
def keepsAgreed (s : Cluster n V) : Event n V → Bool
  | .follower p source _ =>
    match (s.taken p source).map Packet.message with
    | some (.appendEntries term _ prevLogIndex prevLogTerm entries _) =>
      !(s.nodes p).acceptsAppendEntries term prevLogIndex prevLogTerm ||
        decide ((s.nodes p).log.length ≤ prevLogIndex + 2) ||
        ((s.nodes p).log[prevLogIndex + 1]?).map Entry.term != some entries.term
    | _ => true
  | _ => true

/-- A leader credits a positive acknowledge to the entry it answers, one of its own term. -/
def creditsAnswered (s : Cluster n V) : Event n V → Bool
  | .leader p _ _ source =>
    match source, s.taken p source with
    | some q, some ⟨.acknowledge _ true, cause⟩ =>
      match (s.nodes p).nextIndex q, cause with
      | none, _ => true
      | some index, some (.appendEntries term _ prevLogIndex _ _ _) =>
        term == (s.nodes p).currentTerm && prevLogIndex + 1 == index
      | some _, _ => false
    | _, _ => true
  | _ => true

/-- The conditions under which logs are replicated faithfully. -/
def replicates (s : Cluster n V) (e : Event n V) : Bool :=
  countsCurrentVote s e && appendsOwnTerm s e && acceptsOwnTerm s e && keepsAgreed s e &&
    creditsAnswered s e

namespace ReplicationInv

variable [EmptyCollection V] {s s' : Cluster n V} {A A' : Archive n V} {p q r : Fin n}
  {t m : ℕ} {nd nd' : Node n V}

/-! ## Followers and candidates -/

/-- Some later archive with the same leaders goes with the cluster in which `nd` replaces
`p`. -/
def Replicable (s : Cluster n V) (A : Archive n V) (p : Fin n) (nd : Node n V) : Prop :=
  ∃ A', ReplicationInv (s.setNode p nd) A' ∧ A.Extends A' ∧ A'.elected ≤ A.elected

theorem Replicable.self (h : ReplicationInv s A) : Replicable s A p (s.nodes p) :=
  ⟨A, by rwa [Cluster.setNode_self], .refl, le_rfl⟩

/-- Replacing a node and then once more. -/
theorem Replicable.trans (h : Replicable s A p nd)
    (h' : ∀ A', ReplicationInv (s.setNode p nd) A' → Replicable (s.setNode p nd) A' p nd') :
    Replicable s A p nd' := by
  obtain ⟨A', hA', hext, helected⟩ := h
  obtain ⟨A'', hA'', hext', helected'⟩ := h' A' hA'
  rw [Cluster.setNode_setNode] at hA''
  exact ⟨A'', hA'', hext.trans hext', helected'.trans helected⟩

theorem logFrame (h : ReplicationInv s A) (hf : LogFrame (s.nodes p) nd) :
    ReplicationInv (s.setNode p nd) A := by
  obtain ⟨out, htalker, hout⟩ := hf.talker
  refine h.setNode_frame out hf.myId hf.log hf.currentTerm ?_ ?_ htalker
    fun m hm => A.vouches_of_isPlain (hout m hm)
  · exact fun hlead => absurd hlead hf.currentRole
  · exact fun hoffice => absurd hoffice.1 hf.currentRole

theorem replicable_of_frame (h : ReplicationInv s A) (hf : LogFrame (s.nodes p) nd) :
    Replicable s A p nd :=
  ⟨A, h.logFrame hf, .refl, le_rfl⟩

theorem Replicable.frame (h : Replicable s A p nd) (hf : LogFrame nd nd') :
    Replicable s A p nd' :=
  h.trans fun _ hA' => hA'.replicable_of_frame (by simpa using hf)

/-! ### Followers -/

/-- A follower handles an `AppendEntries` that was under way: it acknowledges what it has
stored, or refuses. -/
theorem followerAppendEntries (h : ReplicationInv s A)
    (hrole : (s.nodes p).currentRole = .follower) {l : Fin n} {k u c : ℕ} {e : Entry V}
    (hincoming : (s.nodes p).incomingMessage = some (.appendEntries t l k u e c))
    (hoffer : ((A.leaderLog t)[k]?).map Entry.term = some u)
    (hentry : (A.leaderLog t)[k + 1]? = some e)
    (hterm : (s.nodes p).acceptsAppendEntries t k u = true → t = (s.nodes p).currentTerm)
    (hkeep : (s.nodes p).acceptsAppendEntries t k u = true → (s.nodes p).log.length ≤ k + 2 ∨
      ((s.nodes p).log[k + 1]?).map Entry.term ≠ some e.term) :
    Replicable s A p ((s.nodes p).followerAppendEntries t l k u e c) := by
  have hne : (s.nodes p).currentRole ≠ .leader := by simp [hrole]
  unfold Node.followerAppendEntries
  split
  · rename_i haccept
    obtain rfl := hterm haccept
    have hverify : ((s.nodes p).log[k]?).map Entry.term = some u := by
      obtain ⟨prev, hprev, hterm'⟩ := Node.term_of_acceptsAppendEntries haccept
      rw [hprev, Option.map_some, hterm']
    set nd := ((s.nodes p).appendEntry e (decide (c > (s.nodes p).commitIndex)) (some k)).1 with hnd
    have hsame : nd.myId = (s.nodes p).myId ∧ nd.log = (s.nodes p).log.take (k + 1) ++ [e] ∧
        nd.currentTerm = (s.nodes p).currentTerm ∧ nd.currentRole = (s.nodes p).currentRole ∧
        nd.talker = (s.nodes p).talker ∧
        nd.incomingMessage = (s.nodes p).incomingMessage := by
      rw [hnd]
      simp only [Node.appendEntry, Node.cutLog]
      split <;> exact ⟨rfl, rfl, rfl, rfl, rfl, rfl⟩
    obtain ⟨hid, hlog, hct, hrole', htalker, hheld⟩ := hsame
    obtain ⟨A', hA', hext, helected, hstored⟩ := h.store hverify hoffer hentry (hkeep haccept)
      hid hlog hct (by rw [hrole']; exact hne) htalker
    -- the acknowledge answers the message in hand, whose entry has just been stored
    have hack : Replicable (s.setNode p nd) A' p (nd.sendAcknowledge l true) := by
      refine ⟨A', hA'.setNode_frame [(some l, ⟨.acknowledge nd.currentTerm true,
        nd.incomingMessage⟩)] (by simp [Node.sendAcknowledge, Node.sendMessage])
        (by simp [Node.sendAcknowledge, Node.sendMessage])
        (by simp [Node.sendAcknowledge, Node.sendMessage]) (fun hlead => ?_) (fun hoffice => ?_)
        (by simp [Node.sendAcknowledge, Node.sendMessage]) (fun m hm => ?_), .refl, le_rfl⟩
      · rw [Node.sendAcknowledge, Node.sendMessage, hrole'] at hlead
        exact absurd hlead hne
      · have hlead := hoffice.1
        rw [Node.sendAcknowledge, Node.sendMessage, hrole'] at hlead
        exact absurd hlead hne
      · rw [List.mem_singleton.mp hm]
        intro t' l' k' u' e' c' hcause
        rw [hheld, hincoming] at hcause
        simp only [Option.some.injEq, Message.appendEntries.injEq] at hcause
        obtain ⟨rfl, -, rfl, -⟩ := hcause
        rwa [hct] at hstored
    obtain ⟨A'', hA'', hext', helected'⟩ := hack
    rw [Cluster.setNode_setNode] at hA''
    exact ⟨A'', hA'', hext.trans hext', helected'.trans helected⟩
  · exact h.replicable_of_frame
      (.of_send rfl rfl rfl rfl le_rfl hne)

/-- Leaving a role loop. -/
theorem exitLoop (h : ReplicationInv s A) :
    Replicable s A p { s.nodes p with loop := .run } := by
  refine ⟨A, h.setNode_frame [] rfl rfl le_rfl (fun hlead => ⟨hlead, rfl⟩) (fun hoffice => ?_)
    (by simp) (by simp), .refl, le_rfl⟩
  -- outside its loop a leader is not in office
  rcases hoffice.2 with hloop | hloop <;> simp at hloop

/-- One iteration of `_follower`. -/
theorem follower (h : ReplicationInv s A) {incoming : Option (Fin n × Message n V)}
    (timeout : Bool)
    (hoffer : ∀ q t l k u e c, incoming = some (q, .appendEntries t l k u e c) →
      ((A.leaderLog t)[k]?).map Entry.term = some u ∧ (A.leaderLog t)[k + 1]? = some e)
    (hterm : ∀ q t l k u e c, incoming = some (q, .appendEntries t l k u e c) →
      (s.nodes p).acceptsAppendEntries t k u = true → t = (s.nodes p).currentTerm)
    (hkeep : ∀ q t l k u e c, incoming = some (q, .appendEntries t l k u e c) →
      (s.nodes p).acceptsAppendEntries t k u = true → (s.nodes p).log.length ≤ k + 2 ∨
        ((s.nodes p).log[k + 1]?).map Entry.term ≠ some e.term) :
    Replicable s A p ((s.nodes p).follower incoming timeout) := by
  unfold Node.follower
  split
  · rename_i hrole
    have hne : (s.nodes p).currentRole ≠ .leader := by simp [hrole]
    have hmessage : Replicable s A p ((s.nodes p).receive Node.followerMessage incoming) := by
      cases incoming with
      | none => exact .self h
      | some x =>
        obtain ⟨q, message⟩ := x
        set held : Node n V := { s.nodes p with incomingMessage := some message } with hheld
        have hhold : LogFrame (s.nodes p) held := .of_talker rfl rfl le_rfl hne rfl
        have hrole' : held.currentRole = .follower := hrole
        cases message with
        | appendEntries t l k u e c =>
          -- the only message on which a follower changes its log
          obtain ⟨hprev, hentry⟩ := hoffer q t l k u e c rfl
          have hinv : ReplicationInv (s.setNode p held) A :=
            h.setNode_frame [] rfl rfl le_rfl (fun hlead => ⟨hlead, rfl⟩)
              (fun hoffice => absurd hoffice.1 hne) (by simp [hheld]) (by simp)
          have happend := hinv.followerAppendEntries (p := p) (l := l) (c := c)
            (by simpa using hrole') (by simp [hheld]) hprev hentry
            (by rw [Cluster.setNode_nodes_self]; exact hterm q t l k u e c rfl)
            (by rw [Cluster.setNode_nodes_self]; exact hkeep q t l k u e c rfl)
          obtain ⟨A', hA', hext, helected⟩ := happend
          rw [Cluster.setNode_nodes_self, Cluster.setNode_setNode] at hA'
          exact ⟨A', hA', hext, helected⟩
        | requestVotes t i u =>
          exact (h.replicable_of_frame hhold).frame
            (followerRequestVotes_quiet hrole' q t i u).toLogFrame
        | heartbeat t l =>
          exact (h.replicable_of_frame hhold).frame (followerHeartbeat_quiet hrole' t l).toLogFrame
        | committal t i u =>
          exact (h.replicable_of_frame hhold).frame (.of_talker rfl rfl le_rfl hne rfl)
        | _ => exact h.replicable_of_frame hhold
    simp only
    split
    · exact hmessage.frame (.of_talker rfl rfl le_rfl (by simp) rfl)
    · exact hmessage
  · exact h.exitLoop

/-- One iteration of `_candidate`; the only new leader is the node itself. -/
theorem candidate (h : ReplicationInv s A) (k m : ℕ) (incoming : Option (Fin n × Message n V))
    (timeout : Bool)
    (hnew : WinFrame (s.nodes p) ((s.nodes p).candidate k m incoming timeout) →
      ∀ q, ¬ A.elected q (s.nodes p).currentTerm) :
    ∃ A', ReplicationInv (s.setNode p ((s.nodes p).candidate k m incoming timeout)) A' ∧
      A.Extends A' ∧ ∀ q t, A'.elected q t → A.elected q t ∨
        (q = p ∧ ((s.nodes p).candidate k m incoming timeout).currentRole = .leader ∧
          t = ((s.nodes p).candidate k m incoming timeout).currentTerm) := by
  have hkeep : ∀ {nd}, Replicable s A p nd → ∃ A', ReplicationInv (s.setNode p nd) A' ∧
      A.Extends A' ∧ ∀ q t, A'.elected q t → A.elected q t ∨
        (q = p ∧ nd.currentRole = .leader ∧ t = nd.currentTerm) := by
    rintro nd ⟨A', hA', hext, helected⟩
    exact ⟨A', hA', hext, fun q t hq => .inl (helected q t hq)⟩
  by_cases hrole : (s.nodes p).currentRole = .candidate
  · rcases candidate_cases hrole k m incoming timeout with hf | hw
    · exact hkeep (h.replicable_of_frame hf.toLogFrame)
    · have hnone := hnew hw
      set nd := (s.nodes p).candidate k m incoming timeout
      have hoffice : ¬ nd.InOffice := by
        rintro ⟨-, hloop | hloop⟩
        · simp [hw.loop] at hloop
        · simp [hw.loop] at hloop
      refine ⟨_, h.elect hnone hw.myId hw.log hw.currentTerm hoffice hw.talker,
        A.record_extends ?_ ?_, ?_⟩
      · -- nothing is on record of a term that nobody has won so far
        rw [hw.currentTerm, h.archive.noLeader _ hnone]
        exact List.nil_prefix
      · by_contra hlt
        have hpos : 1 ≤ A.stored p nd.currentTerm := by omega
        have hlen := ((h.nodes p).stored _ hpos).1
        rw [hw.currentTerm, h.archive.noLeader _ hnone] at hlen
        simp at hlen
      · rintro q t (⟨rfl, rfl⟩ | hq)
        · exact .inr ⟨rfl, hw.currentRole, rfl⟩
        · exact .inl hq
  · unfold Node.candidate
    rw [if_neg hrole]
    exact hkeep h.exitLoop

/-! ## Leaders -/

/-- What holds of a leader and the archive in the course of an iteration: with the term
and the commit index it began with. -/
structure Leading (s : Cluster n V) (A A' : Archive n V) (p : Fin n) (nd : Node n V) : Prop where
  inv : ReplicationInv (s.setNode p nd) A'
  extends' : A.Extends A'
  elected : A'.elected ≤ A.elected
  currentRole : nd.currentRole = .leader
  currentTerm : nd.currentTerm = (s.nodes p).currentTerm
  backed : A'.Backs nd
  /-- What it commits is stored by all nodes. -/
  committed : nd.commitIndex = (s.nodes p).commitIndex ∨
    ∀ q, nd.commitIndex ≤ A'.stored q nd.currentTerm

/-- The leader keeps its log and sends what the archive vouches for. -/
theorem Leading.frame (h : Leading s A A' p nd) (out : List (Option (Fin n) × Packet n V))
    (hid : nd'.myId = nd.myId) (hlog : nd'.log = nd.log)
    (hterm : nd'.currentTerm = nd.currentTerm) (hrole : nd'.currentRole = nd.currentRole)
    (htalker : nd'.talker = nd.talker ++ out) (hout : ∀ m ∈ out, A'.Vouches p m.2)
    (hbacked : A'.Backs nd') (hcommitted : nd'.commitIndex = (s.nodes p).commitIndex ∨
      ∀ q, nd'.commitIndex ≤ A'.stored q nd'.currentTerm) : Leading s A A' p nd' := by
  refine ⟨?_, h.extends', h.elected, hrole.trans h.currentRole, hterm.trans h.currentTerm,
    hbacked, hcommitted⟩
  rw [← Cluster.setNode_setNode]
  apply h.inv.setNode_frame out
  · simpa using hid
  · simpa using hlog
  · simpa using hterm.ge
  · simpa using fun _ => And.intro h.currentRole hterm
  · exact fun _ => hbacked
  · simpa using htalker
  · exact hout

/-- One operation of a leader. -/
theorem Leading.op {O : Entry V → Prop} {C : Fin n → ℕ → Prop} (h : Leading s A A' p nd)
    (hO : ∀ e, O e → e.term = (s.nodes p).currentTerm)
    (hC : ∀ q k, C q k → k ≤ A.stored q (s.nodes p).currentTerm)
    (hop : Node.LeaderOp O C nd nd') : ∃ A'', Leading s A A'' p nd' := by
  have hself := h.inv.nodes p
  rw [Cluster.setNode_nodes_self] at hself
  cases hop with
  | hold => exact ⟨A', h.frame [] rfl rfl rfl rfl (by simp) (by simp) h.backed h.committed⟩
  | heartbeat =>
    refine ⟨A', h.frame _ rfl rfl rfl rfl rfl (fun m hm => ?_) h.backed h.committed⟩
    rw [List.mem_singleton.mp hm]
    trivial
  | sendEntry node index prev entry hprev hentry =>
    refine ⟨A', h.frame _ rfl rfl rfl rfl rfl (fun m hm => ?_) h.backed h.committed⟩
    rw [List.mem_singleton.mp hm]
    -- the log of a leader is the one on record
    have hlog := hself.leading h.currentRole
    refine ⟨?_, by rw [hlog, hentry]⟩
    rw [hlog, hprev]
    rfl
  | crash => exact ⟨A', h.frame [] rfl rfl rfl rfl (by simp) (by simp) h.backed h.committed⟩
  | next => exact ⟨A', h.frame [] rfl rfl rfl rfl (by simp) (by simp) h.backed h.committed⟩
  | credit q k hcredit =>
    refine ⟨A', h.frame [] rfl rfl rfl rfl (by simp) (by simp) (fun r => ?_) h.committed⟩
    simp only [Function.update_apply]
    split
    · rename_i hr
      rw [hr, h.currentTerm]
      exact .inr ((hC q k hcredit).trans (h.extends'.stored q _))
    · exact h.backed r
  | commit index e hmatch hlt he =>
    refine ⟨A', h.frame [] rfl rfl rfl rfl (by simp [Node.commitEntry]) (by simp)
      (fun q => ?_) (.inr fun q => ?_)⟩
    · exact (h.backed q).imp (fun hle => hle.trans hlt.le) id
    · -- a match index above the old commit index is backed by what the node has stored
      have hq := (h.backed q).resolve_left (by have := hmatch q; omega)
      exact (hmatch q).trans hq
  | committal node =>
    refine ⟨A', h.frame _ rfl rfl rfl rfl rfl (fun m hm => ?_) h.backed h.committed⟩
    rw [List.mem_singleton.mp hm]
    trivial
  | append entry hentry =>
    -- the archive takes down the longer log
    have hterm : entry.term = nd.currentTerm := (hO entry hentry).trans h.currentTerm.symm
    obtain ⟨A'', hA'', hext, helected⟩ : ∃ A'',
        ReplicationInv ((s.setNode p nd).setNode p (nd.appended entry)) A'' ∧ A'.Extends A'' ∧
          A''.elected ≤ A'.elected := by
      apply h.inv.append ?_ entry
      · simpa using hterm
      · simp [Node.appended]
      · simp [Node.appended]
      · simp [Node.appended]
      · exact h.backed
      · simp [Node.appended]
      · simpa using h.currentRole
    rw [Cluster.setNode_setNode] at hA''
    exact ⟨A'', hA'', h.extends'.trans hext, helected.trans h.elected, h.currentRole,
      h.currentTerm, hext.backs h.backed,
      h.committed.imp id fun hq q => (hq q).trans (hext.stored q _)⟩
  | matchSelf =>
    refine ⟨A', h.frame [] rfl rfl rfl rfl (by simp) (by simp) (fun r => ?_) h.committed⟩
    -- a leader has stored all of its own log
    simp only [Function.update_apply]
    split
    · rename_i hr
      rw [hr, hself.myId, hself.storedLeading h.currentRole]
      exact .inr le_rfl
    · exact h.backed r

theorem Leading.ops {O : Entry V → Prop} {C : Fin n → ℕ → Prop} (h : Leading s A A' p nd)
    (hO : ∀ e, O e → e.term = (s.nodes p).currentTerm)
    (hC : ∀ q k, C q k → k ≤ A.stored q (s.nodes p).currentTerm)
    (hops : Node.LeaderOps O C nd nd') : ∃ A'', Leading s A A'' p nd' := by
  induction hops with
  | refl => exact ⟨A', h⟩
  | tail _ hop ih =>
    obtain ⟨A'', h''⟩ := ih
    exact h''.op hO hC hop

/-- What an iteration of a leader results in: the archive has the log it ends with, and all
nodes have stored what it has committed. -/
def Concluded (s : Cluster n V) (A : Archive n V) (p : Fin n) (nd : Node n V) : Prop :=
  ∃ A', ReplicationInv (s.setNode p nd) A' ∧ A.Extends A' ∧ A'.elected ≤ A.elected ∧
    A'.leaderLog (s.nodes p).currentTerm = nd.log ∧
    (nd.commitIndex = (s.nodes p).commitIndex ∨
      ∀ q, nd.commitIndex ≤ A'.stored q (s.nodes p).currentTerm)

theorem Leading.concluded (h : Leading s A A' p nd) : Concluded s A p nd := by
  have hself := h.inv.nodes p
  rw [Cluster.setNode_nodes_self] at hself
  have hlog := hself.leading h.currentRole
  have hcommitted := h.committed
  rw [h.currentTerm] at hlog hcommitted
  exact ⟨A', h.inv, h.extends', h.elected, hlog, hcommitted⟩

theorem leading_self (h : ReplicationInv s A) (hrole : (s.nodes p).currentRole = .leader)
    (hbacked : A.Backs (s.nodes p)) : Leading s A A p (s.nodes p) :=
  ⟨by rwa [Cluster.setNode_self], .refl, le_rfl, hrole, rfl, hbacked, .inl rfl⟩

/-- One iteration of `_leader`. -/
theorem leader (h : ReplicationInv s A) (hready : (s.nodes p).Ready)
    (hrole : (s.nodes p).currentRole = .leader) (hloop : (s.nodes p).loop = .leader)
    (heartbeat : Bool) (expired : Fin n → Bool) {incoming : Option (Fin n × Message n V)}
    (hoffer : ∀ q t e, incoming = some (q, .clientRequest t e) →
      e.term = (s.nodes p).currentTerm)
    (hcredit : ∀ q t k, incoming = some (q, .acknowledge t true) →
      (s.nodes p).nextIndex q = some k → k ≤ A.stored q (s.nodes p).currentTerm)
    (hqueue : ∀ entry rest, (s.nodes p).clientQueue = entry :: rest →
      (∀ q t i u, incoming = some (q, .requestVotes t i u) → t ≤ (s.nodes p).currentTerm) →
      entry.term = (s.nodes p).currentTerm) :
    Concluded s A p ((s.nodes p).leader heartbeat expired incoming) := by
  have hstart := h.leading_self hrole ((h.nodes p).backed ⟨hrole, .inl hloop⟩)
  obtain ⟨nd₁, hops, hcases⟩ := Node.leader_cases
    (O := fun e => e.term = (s.nodes p).currentTerm)
    (C := fun q k => k ≤ A.stored q (s.nodes p).currentTerm)
    hrole hready heartbeat expired incoming hoffer hcredit
  obtain ⟨A₁, h₁⟩ := hstart.ops (fun _ he => he) (fun _ _ hk => hk) hops
  obtain heq | ⟨q, t, i, u, -, hlt, heq⟩ | ⟨entry, rest, hrest, -, hyield, heq⟩ := hcases
  · rw [heq]
    exact h₁.concluded
  · -- the leader steps down, with the log and the commit index it has
    obtain ⟨A', hA', hext, helected, hlog, hcommitted⟩ := h₁.concluded
    have hframe : LogFrame nd₁ (nd₁.yieldTo q t) :=
      (yieldTo_quiet q (by rw [h₁.currentTerm]; exact hlt.le)).toLogFrame
    have hinv := hA'.logFrame (p := p) (by simpa using hframe)
    rw [Cluster.setNode_setNode] at hinv
    rw [heq]
    exact ⟨A', hinv, hext, helected, hlog, hcommitted⟩
  · set dequeued : Node n V := { nd₁ with clientQueue := rest }
    have hdequeued : Leading s A A₁ p dequeued :=
      h₁.frame [] rfl rfl rfl rfl (by simp [dequeued]) (by simp) h₁.backed h₁.committed
    have hready' : dequeued.Ready := (hready.ops hops).congr rfl rfl
    obtain ⟨A₂, h₂⟩ := hdequeued.ops (O := fun e => e.term = (s.nodes p).currentTerm)
      (C := fun _ _ => False) (fun _ he => he) (fun _ _ hk => hk.elim)
      (Node.broadcastAppendEntries_ops hready' entry (hqueue entry rest hrest hyield))
    rw [heq]
    exact h₂.concluded

/-- A new leader appends an entry of its own to the log it was elected with. -/
theorem enterLeader (h : ReplicationInv s A) (hready : (s.nodes p).Ready)
    (hrole : (s.nodes p).currentRole = .leader) : Concluded s A p (s.nodes p).enterLeader := by
  have hstart : Leading s A A p (s.nodes p).inaugurated := by
    have hbacked : A.Backs (s.nodes p).inaugurated := fun q => .inl le_rfl
    refine ⟨?_, .refl, le_rfl, hrole, rfl, hbacked, .inl rfl⟩
    refine h.setNode_frame _ rfl rfl le_rfl (fun hlead => ⟨hlead, rfl⟩) (fun _ => hbacked) rfl
      fun m hm => ?_
    rw [List.mem_singleton.mp hm]
    trivial
  obtain ⟨A₂, h₂⟩ := hstart.ops (O := fun e => e.term = (s.nodes p).currentTerm)
    (C := fun _ _ => False) (fun _ he => he) (fun _ _ hk => hk.elim)
    (Node.broadcastAppendEntries_ops hready.inaugurated (s.nodes p).noop rfl)
  have hlast : Leading s A A₂ p (s.nodes p).enterLeader := by
    rw [Node.enterLeader_eq]
    exact h₂.frame [] rfl rfl rfl rfl (by simp) (by simp) h₂.backed h₂.committed
  exact hlast.concluded

end ReplicationInv

end DreamboatRpc.Raft
