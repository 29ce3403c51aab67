import DreamboatRpc.Raft.Election

/-!
# Election safety

Every step that counts no vote of another term preserves the invariant about
elections, for some ledger that extends the present one. Without that condition a term
may have two leaders: a node that keeps starting elections collects its
own stale votes and wins without asking anybody.

## Main results

* `ElectionInv.exec` — the invariant survives every step that counts no vote of another
  term
* `election_safety` — at most one leader a term, in runs that count current votes only
* `two_leaders` — two leaders of one term, in an unrestricted run
-/

namespace DreamboatRpc.Raft

open CS FifoNetwork

variable {n : ℕ} {V : Type*}

/-- A granted vote is one vote for its receiver, in its term. -/
theorem countP_vote (c q : Fin n) (t u : ℕ) (cause : Option (Message n V)) :
    (addressedTo c [(some q, (⟨.vote t true, cause⟩ : Packet n V))]).countP
      (Packet.grantsIn u) ≤ if u = t then [q].count c else 0 := by
  rw [addressedTo_singleton]
  by_cases hq : q = c
  · subst hq
    by_cases hu : t = u
    · simp [Packet.grantsIn, hu]
    · simp [Packet.grantsIn, hu]
  · simp [hq]

namespace ElectionInv

variable {s s' : Cluster n V} {L : Ledger n} {p q v c : Fin n} {t : ℕ} {nd nd' : Node n V}

/-- Some ledger with at least the winners of `L` goes with the cluster in which `nd`
replaces `p`. -/
def Replaceable (s : Cluster n V) (L : Ledger n) (p : Fin n) (nd : Node n V) : Prop :=
  ∃ L', ElectionInv (s.setNode p nd) L' ∧ L.elected ≤ L'.elected

theorem Replaceable.self (h : ElectionInv s L) : Replaceable s L p (s.nodes p) :=
  ⟨L, by rwa [Cluster.setNode_self], le_rfl⟩

/-- Replacing a node and then once more. -/
theorem Replaceable.trans (h : Replaceable s L p nd)
    (h' : ∀ L', ElectionInv (s.setNode p nd) L' → Replaceable (s.setNode p nd) L' p nd') :
    Replaceable s L p nd' := by
  obtain ⟨L', hL', helected⟩ := h
  obtain ⟨L'', hL'', helected'⟩ := h' L' hL'
  rw [Cluster.setNode_setNode] at hL''
  exact ⟨L'', hL'', helected.trans helected'⟩

theorem Replaceable.frame (h : Replaceable s L p nd) (hf : VoteFrame nd nd')
    (hsent : SentNoVotes nd nd') : Replaceable s L p nd' :=
  h.trans fun L' hL' =>
    ⟨L', hL'.setNode_frame (by simpa using hf) (by simpa using hsent), le_rfl⟩

/-! ### The pieces of an iteration -/

/-- A node that may vote moves to a term, or stays in it, without a vote. -/
theorem incrementTerm (h : ElectionInv s L) (hle : (s.nodes p).currentTerm ≤ t)
    (hfree : L.granted p t = [] ∨ (L.granted p t = [p] ∧ ¬ L.elected p t))
    (hid : nd.myId = p) (hterm : nd.currentTerm = t) (hrole : nd.currentRole ≠ .leader)
    (hloop : ∀ k m, nd.loop ≠ .candidate k m) (htalker : nd.talker = (s.nodes p).talker) :
    Replaceable s L p nd := by
  subst hterm
  refine ⟨_, h.castVote [] [] hid hle hfree hrole (.inl rfl) (fun _ => rfl)
    (fun k m hk => absurd hk (hloop k m)) (by simp [htalker]) (by simp), le_rfl⟩

/-- A node votes for `q`, in its present term or a higher one. -/
theorem voteFor (h : ElectionInv s L) (hle : (s.nodes p).currentTerm ≤ t)
    (hfree : L.granted p t = [] ∨ (L.granted p t = [p] ∧ ¬ L.elected p t))
    (hid : nd.myId = p) (hterm : nd.currentTerm = t) (hrole : nd.currentRole ≠ .leader)
    (hvoted : nd.votedFor ≠ none) (hloop : ∀ k m, nd.loop ≠ .candidate k m)
    {cause : Option (Message n V)}
    (htalker : nd.talker = (s.nodes p).talker ++ [(some q, ⟨.vote t true, cause⟩)]) :
    Replaceable s L p nd := by
  subst hterm
  exact ⟨_, h.castVote [q] _ hid hle hfree hrole (.inr ⟨q, rfl⟩) (fun hv => absurd hv hvoted)
    (fun k m hk => absurd hk (hloop k m)) htalker (fun c u => countP_vote c q _ u cause), le_rfl⟩

theorem yieldTo (h : ElectionInv s L) (hlt : (s.nodes p).currentTerm < t) :
    Replaceable s L p ((s.nodes p).yieldTo q t) :=
  h.voteFor hlt.le (.inl (h.future p t hlt)) (h.myId p) rfl (by simp [Node.yieldTo])
    (by simp [Node.yieldTo, Node.sendVote]) (by simp [Node.yieldTo]) rfl

/-- A follower that is told of a higher term moves to it. -/
theorem raiseTerm (h : ElectionInv s L) (hrole : (s.nodes p).currentRole = .follower)
    (hloop : (s.nodes p).loop = .follower) (t : ℕ) :
    Replaceable s L p (if t > (s.nodes p).currentTerm then (s.nodes p).incrementTerm (some t)
      else s.nodes p) := by
  split
  · rename_i hlt
    refine h.incrementTerm hlt.le (.inl (h.future p t hlt)) (h.myId p) rfl ?_ ?_ rfl
    · simp [Node.incrementTerm, hrole]
    · simp [Node.incrementTerm, hloop]
  · exact .self h

theorem sendVote_false (nd : Node n V) (q : Fin n) :
    VoteFrame nd (nd.sendVote q false) ∧ SentNoVotes nd (nd.sendVote q false) := by
  refine ⟨⟨rfl, rfl, by simp [Node.sendVote], id, fun _ m h => ⟨m, h⟩⟩, ?_⟩
  have hsend : SentNoVotes nd (nd.sendMessage (some q) (.vote nd.currentTerm false)) :=
    sentNoVotes_sendMessage nd _ (by simp)
  exact hsend

/-- A follower that has not voted votes. -/
theorem followerVote (h : ElectionInv s L) (hrole : (s.nodes p).currentRole = .follower)
    (hloop : (s.nodes p).loop = .follower) (hvoted : (s.nodes p).votedFor = none) :
    Replaceable s L p ((s.nodes p).sendVote q true) :=
  h.voteFor le_rfl (h.free p hvoted) (h.myId p) rfl
    (by simp [Node.sendVote, Node.sendMessage, hrole]) (by simp [Node.sendVote])
    (by simp [Node.sendVote, Node.sendMessage, hloop]) rfl

theorem followerRequestVotes (h : ElectionInv s L)
    (hrole : (s.nodes p).currentRole = .follower) (hloop : (s.nodes p).loop = .follower)
    (q : Fin n) (t i u : ℕ) :
    Replaceable s L p ((s.nodes p).followerRequestVotes q t i u) := by
  have hraise := h.raiseTerm hrole hloop t
  unfold Node.followerRequestVotes
  generalize hnd : (if t > (s.nodes p).currentTerm then (s.nodes p).incrementTerm (some t)
    else s.nodes p) = nd at hraise ⊢
  have hsame : nd.currentRole = .follower ∧ nd.loop = .follower := by
    rw [← hnd]
    split
    · exact ⟨hrole, hloop⟩
    · exact ⟨hrole, hloop⟩
  simp only
  split
  · rename_i hvote
    refine hraise.trans fun L' hL' => ?_
    -- the term is settled first, and then the vote within it
    have := hL'.followerVote (p := p) (q := q) (by simpa using hsame.1) (by simpa using hsame.2)
      (by simpa using hvote.1)
    simpa using this
  · exact hraise.frame (sendVote_false nd q).1 (sendVote_false nd q).2

theorem followerHeartbeat (h : ElectionInv s L)
    (hrole : (s.nodes p).currentRole = .follower) (hloop : (s.nodes p).loop = .follower)
    (t : ℕ) (l : Fin n) : Replaceable s L p ((s.nodes p).followerHeartbeat t l) := by
  have hraise := h.raiseTerm hrole hloop t
  unfold Node.followerHeartbeat
  generalize (if t > (s.nodes p).currentTerm then (s.nodes p).incrementTerm (some t)
    else s.nodes p) = nd at hraise ⊢
  simp only [Node.forwardClientRequest]
  split
  · exact hraise.frame ⟨rfl, rfl, id, id, fun _ m h => ⟨m, h⟩⟩ .refl
  · refine hraise.frame ⟨rfl, rfl, id, id, fun _ m h => ⟨m, h⟩⟩ ?_
    exact sentNoVotes_sendMessage nd _ (by simp)

theorem followerAppendEntries_frame (nd : Node n V) (t : ℕ) (l : Fin n) (i u : ℕ)
    (e : Entry V) (c : ℕ) :
    VoteFrame nd (nd.followerAppendEntries t l i u e c) ∧
      SentNoVotes nd (nd.followerAppendEntries t l i u e c) := by
  have hsame : ∀ k m, nd.loop = .candidate k m → ∃ m', nd.loop = .candidate k m' :=
    fun _ m h => ⟨m, h⟩
  simp only [Node.followerAppendEntries, Node.appendEntry, Node.cutLog]
  split
  · split
    · exact ⟨⟨rfl, rfl, id, id, hsame⟩, sentNoVotes_sendMessage nd _ (by simp)⟩
    · exact ⟨⟨rfl, rfl, id, id, hsame⟩, sentNoVotes_sendMessage nd _ (by simp)⟩
  · exact ⟨⟨rfl, rfl, id, id, hsame⟩, sentNoVotes_sendMessage nd _ (by simp)⟩

theorem followerMessage (h : ElectionInv s L) (hrole : (s.nodes p).currentRole = .follower)
    (hloop : (s.nodes p).loop = .follower) (q : Fin n) (message : Message n V) :
    Replaceable s L p ((s.nodes p).followerMessage q message) := by
  cases message with
  | requestVotes t i u => exact h.followerRequestVotes hrole hloop q t i u
  | heartbeat t l => exact h.followerHeartbeat hrole hloop t l
  | appendEntries t l i u e c =>
    obtain ⟨hf, hsent⟩ := followerAppendEntries_frame (s.nodes p) t l i u e c
    exact (Replaceable.self h).frame hf hsent
  | committal t i u =>
    exact (Replaceable.self h).frame ⟨rfl, rfl, id, id, fun _ m h => ⟨m, h⟩⟩ .refl
  | _ => exact .self h

/-- Reading a message into the local variable of a loop. -/
theorem Replaceable.hold (h : ElectionInv s L) (message : Option (Message n V)) :
    Replaceable s L p { s.nodes p with incomingMessage := message } :=
  (Replaceable.self h).frame ⟨rfl, rfl, id, id, fun _ m h => ⟨m, h⟩⟩ .refl

theorem follower (h : ElectionInv s L) (hloop : (s.nodes p).loop = .follower)
    (incoming : Option (Fin n × Message n V)) (timeout : Bool) :
    Replaceable s L p ((s.nodes p).follower incoming timeout) := by
  unfold Node.follower
  split
  · rename_i hrole
    have hmessage : Replaceable s L p ((s.nodes p).receive Node.followerMessage incoming) := by
      cases incoming with
      | none => exact .self h
      | some m =>
        refine (Replaceable.hold h (some m.2)).trans fun L' hL' => ?_
        have := hL'.followerMessage (p := p) (by simpa using hrole) (by simpa using hloop) m.1 m.2
        simpa [Node.receive] using this
    -- a timeout gives up the role, after the message has been handled
    simp only
    split
    · exact hmessage.frame ⟨rfl, rfl, id, by simp, by simp⟩ .refl
    · exact hmessage
  · exact (Replaceable.self h).frame ⟨rfl, rfl, id, id, by simp⟩ .refl

/-- A candidate starts an election. -/
theorem enterCandidate (h : ElectionInv s L) (hrole : (s.nodes p).currentRole = .candidate) :
    Replaceable s L p (s.nodes p).enterCandidate := by
  have hfuture := h.future p _ (Nat.lt_succ_self (s.nodes p).currentTerm)
  refine ⟨_, h.castVote [p]
    ([(none, ⟨.requestVotes ((s.nodes p).currentTerm + 1) (s.nodes p).lastAppliedIndex
        (s.nodes p).lastAppliedTerm, (s.nodes p).incomingMessage⟩)] ++
      [(some p, ⟨.vote ((s.nodes p).currentTerm + 1) true, (s.nodes p).incomingMessage⟩)])
    (h.myId p) (Nat.le_succ _) (.inl hfuture) ?_ (.inr ⟨p, rfl⟩) ?_ ?_ ?_ ?_, le_rfl⟩
  · simp [Node.enterCandidate, Node.sendVote, Node.sendMessage, Node.sendRequestVote,
      Node.incrementTerm, hrole]
  · simp [Node.enterCandidate, Node.sendVote]
  · intro k m hk
    simp only [Node.enterCandidate, Loop.candidate.injEq] at hk
    refine ⟨hk.1.symm, by simp [Node.enterCandidate, Node.sendVote], ?_⟩
    have hterm : (s.nodes p).enterCandidate.currentTerm = (s.nodes p).currentTerm + 1 := rfl
    rw [hterm, hfuture, List.nil_append]
  · simp [Node.enterCandidate, Node.sendVote, Node.sendMessage, Node.sendRequestVote,
      Node.incrementTerm, h.myId p]
  · -- the call for votes is no vote; the only one that is sent is its own
    intro c u
    have hcall : (addressedTo c [((none : Option (Fin n)),
        (⟨.requestVotes ((s.nodes p).currentTerm + 1) (s.nodes p).lastAppliedIndex
          (s.nodes p).lastAppliedTerm, (s.nodes p).incomingMessage⟩ : Packet n V))]).countP
        (Packet.grantsIn u) = 0 := by
      simp [addressedTo, Packet.grantsIn]
    rw [addressedTo_append, List.countP_append, hcall, Nat.zero_add]
    exact countP_vote c p _ u _

/-- A candidate that hears of a leader, of its own term or a higher one, gives up. -/
theorem giveUp (h : ElectionInv s L) {k m : ℕ} (hloop : (s.nodes p).loop = .candidate k m)
    (hle : (s.nodes p).currentTerm ≤ t) (l : Fin n) :
    Replaceable s L p { (s.nodes p).incrementTerm (some t) with
      leaderId := some l, currentRole := .follower, loop := .run } := by
  refine h.incrementTerm hle ?_ (h.myId p) rfl (by simp) (by simp) rfl
  rcases hle.lt_or_eq with hlt | heq
  · exact .inl (h.future p t hlt)
  · -- in its own term it may vote once more, and then never wins it
    obtain ⟨-, hself, hlost, -, -⟩ := h.running p k m hloop
    rw [← heq]
    exact .inr ⟨hself, hlost⟩

/-- A candidate whose tally is the set `Q` wins if the tally is large enough, and goes on
otherwise. -/
theorem candidateVote (h : ElectionInv s L) {k m k' m' : ℕ} {Q : Finset (Fin n)}
    (hloop : (s.nodes p).loop = .candidate k m) (hcard : Q.card = k')
    (hcount : ∀ v, s.votes v p (s.nodes p).currentTerm + (if v ∈ Q then 1 else 0) ≤
      (L.granted v (s.nodes p).currentTerm).count p) :
    Replaceable s L p (if k' > n / 2 ∨ n = 1 then
      { s.nodes p with currentRole := .leader, loop := .run }
      else { s.nodes p with loop := .candidate k' m' }) := by
  split
  · rename_i hmajority
    -- the voters in the tally are the majority
    have hwins : L.Wins p (s.nodes p).currentTerm := by
      refine hmajority.symm.imp id fun hk => ⟨Q, by omega, fun v hv => ?_⟩
      have hv' := hcount v
      rw [if_pos hv] at hv'
      exact List.count_pos_iff.mp (by omega)
    exact ⟨_, h.win hloop hwins, fun q t hq => .inr hq⟩
  · exact ⟨_, h.keepTally ⟨k, m, hloop⟩ hcard hcount, le_rfl⟩

/-- A candidate handles a message; if it is a granted vote, it is one of the present term
and was still under way in `s`, but is not in `s'`. -/
theorem candidateMessage (h : ElectionInv s L) (hfewer : s'.Fewer s) {k m : ℕ}
    (hloop : (s'.nodes p).loop = .candidate k m) (q : Fin n) (message : Message n V)
    (hvote : ∀ t, message = .vote t true → t = (s'.nodes p).currentTerm ∧
      s'.votes q p t < s.votes q p t) :
    Replaceable s' L p ((s'.nodes p).candidateMessage k m q message) := by
  have h' := h.fewer hfewer
  cases message with
  | vote t granted =>
    simp only [Node.candidateMessage, Node.candidateVote]
    cases granted with
    | true =>
      -- the vote leaves the network and enters the tally
      obtain ⟨rfl, hlt⟩ := hvote t rfl
      rw [hfewer.nodes] at hlt hloop
      obtain ⟨hcard, hcount⟩ := h.tally hfewer hloop hlt
      rw [← hfewer.nodes] at hcount hloop
      simpa using h'.candidateVote hloop hcard hcount
    | false =>
      obtain ⟨-, -, -, hcard, hcount⟩ := h'.running p k m hloop
      simpa using h'.candidateVote hloop hcard.symm hcount
  | requestVotes t i u =>
    simp only [Node.candidateMessage]
    split
    · rename_i hlt
      exact h'.yieldTo hlt
    · exact .self h'
  | heartbeat t l =>
    simp only [Node.candidateMessage]
    split
    · rename_i hle
      exact h'.giveUp hloop hle l
    · exact .self h'
  | _ => exact .self h'

/-- One iteration of `_candidate`. -/
theorem candidate (h : ElectionInv s L) {k m : ℕ} {source : Option (Fin n)}
    {incoming : Option (Fin n × Packet n V)} (htake : s.take p source = some (s', incoming))
    (hloop : (s.nodes p).loop = .candidate k m)
    (hguard : ∀ q packet t, incoming = some (q, packet) → packet.message = .vote t true →
      t = (s.nodes p).currentTerm) (timeout : Bool) :
    Replaceable s' L p ((s.nodes p).candidate k m
      (incoming.map fun (q, packet) => (q, packet.message)) timeout) := by
  have hfewer := Cluster.take_fewer htake
  have hself : Replaceable s' L p (s.nodes p) := by
    rw [← hfewer.nodes]
    exact .self (h.fewer hfewer)
  unfold Node.candidate
  split
  · have hmessage : Replaceable s' L p ((s.nodes p).receive
        (fun nd => nd.candidateMessage k m)
        (incoming.map fun (q, packet) => (q, packet.message))) := by
      cases incoming with
      | none => exact hself
      | some x =>
        obtain ⟨q, packet⟩ := x
        set held : Node n V := { s.nodes p with incomingMessage := some packet.message }
        have hframe : VoteFrame (s.nodes p) held := ⟨rfl, rfl, id, id, fun _ m h => ⟨m, h⟩⟩
        have hsent : SentNoVotes (s.nodes p) held := .refl
        have hsent' : SentNoVotes (s'.nodes p) held := by
          rw [hfewer.nodes]
          exact hsent
        -- the packet in hand was under way in `s` and is no longer in `s'`
        have hvotes : ∀ t, packet.message = .vote t true →
            t = held.currentTerm ∧ (s'.setNode p held).votes q p t <
              (s.setNode p held).votes q p t := by
          intro t ht
          refine ⟨hguard q packet t rfl ht, ?_⟩
          have hgrants : packet.grantsIn t = true := by simp [Packet.grantsIn, ht]
          rw [votes_setNode_of_sentNoVotes hsent', votes_setNode_of_sentNoVotes hsent,
            Cluster.votes, Cluster.votes, Cluster.take_inflight_head htake,
            List.countP_cons_of_pos hgrants]
          exact Nat.lt_succ_self _
        obtain ⟨L', hL', hmono⟩ := (h.setNode_frame hframe .refl).candidateMessage
          (p := p) (hfewer.setNode rfl) (by simpa using hloop) q packet.message
          (by simpa using hvotes)
        simp only [Cluster.setNode_setNode, Cluster.setNode_nodes_self] at hL'
        exact ⟨L', hL', hmono⟩
    simp only
    split
    · exact hmessage.frame ⟨rfl, rfl, id, by simp, by simp⟩ .refl
    · exact hmessage
  · exact hself.frame ⟨rfl, rfl, id, id, by simp⟩ .refl

/-- One iteration of `_leader`. -/
theorem leader (h : ElectionInv s L) (hready : (s.nodes p).Ready) (heartbeat : Bool)
    (expired : Fin n → Bool) (incoming : Option (Fin n × Message n V)) :
    Replaceable s L p ((s.nodes p).leader heartbeat expired incoming) := by
  by_cases hrole : (s.nodes p).currentRole = .leader
  · obtain ⟨nd₁, hops, hcases⟩ := Node.leader_cases (O := fun _ => True) (C := fun _ _ => True)
      hrole hready heartbeat expired incoming (fun _ _ _ _ => trivial)
      (fun _ _ _ _ _ => trivial)
    obtain ⟨hf, hsent⟩ := voteFrame_leaderOps hops
    have h₁ : Replaceable s L p nd₁ := (Replaceable.self h).frame hf hsent
    obtain heq | ⟨q, t, i, u, -, hlt, heq⟩ | ⟨entry, rest, -, -, -, heq⟩ := hcases
    · rwa [heq]
    · rw [heq]
      refine h₁.trans fun L' hL' => ?_
      -- a leader that steps down votes in a term that is new to it
      have hyield := hL'.yieldTo (p := p) (q := q) (t := t) (by simpa [hf.currentTerm] using hlt)
      simpa using hyield
    · rw [heq]
      have hqueue : ({ nd₁ with clientQueue := rest } : Node n V).Ready :=
        (hready.ops hops).congr rfl rfl
      obtain ⟨hf', hsent'⟩ := voteFrame_leaderOps (Node.broadcastAppendEntries_ops
        (O := fun _ => True) (C := fun _ _ => True) hqueue entry trivial)
      have h₂ : Replaceable s L p { nd₁ with clientQueue := rest } :=
        h₁.frame ⟨rfl, rfl, id, id, fun _ m h => ⟨m, h⟩⟩ .refl
      exact h₂.frame hf' hsent'
  · unfold Node.leader
    rw [if_neg hrole]
    exact (Replaceable.self h).frame ⟨rfl, rfl, id, id, by simp⟩ .refl

/-- One iteration of `run`. -/
theorem run [EmptyCollection V] (h : ElectionInv s L) (hready : (s.nodes p).Ready) :
    Replaceable s L p (s.nodes p).run := by
  have hsame : ∀ nd : Node n V, ∀ k m, nd.loop = .candidate k m →
      ∃ m', nd.loop = .candidate k m' := fun _ _ m h => ⟨m, h⟩
  unfold Node.run
  split
  · rw [Node.enterLeader_eq]
    have h₁ : Replaceable s L p (s.nodes p).inaugurated := by
      refine (Replaceable.self h).frame ⟨rfl, rfl, id, id, hsame _⟩ ?_
      exact sentNoVotes_sendMessage (s.nodes p) none (by simp)
    obtain ⟨hf, hsent⟩ := voteFrame_leaderOps (Node.broadcastAppendEntries_ops
      (O := fun _ => True) (C := fun _ _ => True) hready.inaugurated (s.nodes p).noop trivial)
    exact (h₁.frame hf hsent).frame ⟨rfl, rfl, id, id, by simp⟩ .refl
  · exact (Replaceable.self h).frame ⟨rfl, rfl, id, id, by simp⟩ .refl
  · rename_i hrole
    exact h.enterCandidate hrole
  · exact .self h

/-! ### All events -/

/-- A step that counts no vote of another term preserves the invariant, for a ledger
that forgets no winner. -/
theorem exec [EmptyCollection V] {e : Event n V} (h : ElectionInv s L) (hready : s.Ready)
    (hguard : countsCurrentVote s e = true) (hs : s.exec e = some s') :
    ∃ L', ElectionInv s' L' ∧ L.elected ≤ L'.elected := by
  have hpublish : ∀ {s₁ : Cluster n V} {p nd}, Replaceable s₁ L p nd →
      ∃ L', ElectionInv ((s₁.setNode p nd).publish p) L' ∧ L.elected ≤ L'.elected := by
    rintro s₁ p nd ⟨L', hL', helected⟩
    exact ⟨L', hL'.publish, helected⟩
  obtain ⟨p, -, -, rfl⟩ | ⟨p, source, timeout, taken, incoming, -, hloop, -, htake, rfl⟩ |
    ⟨p, source, timeout, taken, incoming, k, m, rfl, hloop, -, htake, rfl⟩ |
    ⟨p, heartbeat, expired, source, taken, incoming, -, -, -, htake, rfl⟩ |
    ⟨p, value, idNum, -, rfl⟩ | ⟨p, -, rfl⟩ | ⟨p, -, rfl⟩ | ⟨src, dst, i, -, rfl⟩ :=
    Cluster.exec_cases hs
  · exact hpublish (h.run (hready p))
  · have hfewer := Cluster.take_fewer htake
    rw [← hfewer.nodes] at hloop ⊢
    exact hpublish ((h.fewer hfewer).follower hloop _ timeout)
  · refine hpublish (h.candidate htake hloop ?_ timeout)
    rintro q packet t rfl hvote
    simpa [countsCurrentVote, (Cluster.taken_of_take htake).2, hvote] using hguard
  · have hfewer := Cluster.take_fewer htake
    have hready' := hready p
    rw [← hfewer.nodes] at hready' ⊢
    exact hpublish ((h.fewer hfewer).leader hready' heartbeat expired _)
  · exact (Replaceable.self h).frame ⟨rfl, rfl, id, id, fun _ m h => ⟨m, h⟩⟩ .refl
  · exact (Replaceable.self h).frame
      ⟨rfl, rfl, id, by simp [Node.pause], fun _ m h => ⟨m, h⟩⟩ .refl
  · unfold Node.unPause
    split
    · exact (Replaceable.self h).frame ⟨rfl, rfl, id, by simp, fun _ m h => ⟨m, h⟩⟩ .refl
    · exact Replaceable.self h
  · exact ⟨L, h.fewer (Cluster.lose_fewer src dst i), le_rfl⟩

end ElectionInv

/-! ## The result -/

/-- Election safety in all runs in which every counted vote is stamped with the term of
the candidate that counts it. -/
theorem election_safety [EmptyCollection V] {s : Cluster n V}
    (h : (clusterSystem n V).Reachable (fun s e => countsCurrentVote s e = true) s) :
    ElectionSafe s := by
  have hinv : ∃ L, s.Ready ∧ ElectionInv s L := by
    refine h.ghost (I := fun s L => s.Ready ∧ ElectionInv s L) ?_ ?_
    · rintro _ rfl
      exact ⟨_, Cluster.ready_init, .init⟩
    · rintro s L e t ⟨hready, hL⟩ hguard hstep
      obtain ⟨L', hL', -⟩ := hL.exec hready hguard hstep
      exact ⟨L', hready.exec hstep, hL'⟩
  obtain ⟨L, -, hL⟩ := hinv
  exact hL.electionSafe

/-- Node `0` of two asks for votes and gets both. -/
def wonElection : List (Event 2 V) :=
  [.run 0, .run 1, .follower 0 none true, .run 0, .candidate 0 (some 0) false,
    .candidate 0 (some 0) false, .follower 1 (some 0) false, .candidate 0 (some 1) false]

theorem election_safety_wonElection :
    ∃ s : Cluster 2 (List ℕ), (s.nodes 0).currentRole = .leader ∧ ElectionSafe s := by
  have hreplay : (replay Cluster.exec countsCurrentVote []
      (Cluster.init : Cluster 2 (List ℕ)) wonElection).any
      (fun r => (r.2.nodes 0).currentRole = .leader) = true := by decide
  obtain ⟨history, s, hrun, hlead⟩ :=
    exists_run_of_replay (fun _ (s : Cluster 2 (List ℕ)) => (s.nodes 0).currentRole = .leader)
      hreplay
  exact ⟨s, by simpa using hlead, election_safety ⟨history, hrun⟩⟩

/-- Node `p` starts two elections, one after the other, and then receives from itself
what it has sent: the two requests and its own two votes. -/
def lonelyElection (p : Fin 2) : List (Event 2 (List ℕ)) :=
  [.run p, .follower p none true, .run p, .candidate p none true, .run p] ++
    List.replicate 4 (.candidate p (some p) false)

/-- Without the condition both nodes of two become leader of the same term, and neither
has heard of the other. -/
theorem two_leaders :
    ¬ ∀ (n : ℕ) (s : Cluster n (List ℕ)),
      (clusterSystem n (List ℕ)).Reachable unguarded s → ElectionSafe s := by
  intro hsafe
  have hreplay : (replay Cluster.exec (fun _ _ => true) [] Cluster.init
      (lonelyElection 0 ++ lonelyElection 1)).any (fun r =>
        (r.2.nodes 0).currentRole = .leader ∧ (r.2.nodes 1).currentRole = .leader ∧
          (r.2.nodes 0).currentTerm = (r.2.nodes 1).currentTerm) = true := by decide
  obtain ⟨history, s, hrun, hlead⟩ := exists_run_of_replay (fun _ (s : Cluster 2 (List ℕ)) =>
    (s.nodes 0).currentRole = .leader ∧ (s.nodes 1).currentRole = .leader ∧
      (s.nodes 0).currentTerm = (s.nodes 1).currentTerm) hreplay
  obtain ⟨hlead₀, hlead₁, hterm⟩ := of_decide_eq_true hlead
  have hreach : (clusterSystem 2 (List ℕ)).Reachable unguarded s :=
    ⟨history, hrun.mono fun _ _ _ => trivial⟩
  exact absurd (hsafe 2 s hreach 0 1 hlead₀ hlead₁ hterm) (by decide)

end DreamboatRpc.Raft
