import DreamboatRpc.Raft.VoteUniqueness

/-!
# Quorums

A candidate counts granted votes and looks neither at their senders nor at their terms,
and a follower also grants its vote on a call of an earlier term, stamped with the term
it is in. In runs in which neither matters, the votes a candidate has counted come from
as many different nodes, each of which has voted for it in its present term: a node votes
at most once a term for another node, and a candidate once for itself.

## Main definitions

* `answersCurrentCall`, `countsQuorum` — the conditions
* `Gives`, `Elects` — a node gives a candidate its vote; a node becomes leader
* `QuorumLegitimate` — leaders are elected by a quorum
* `Tallied` — the invariant about votes sent, under way and counted

## Main results

* `quorum_legitimate` — a leader had the votes of a majority, under the conditions
* `elected_alone` — a leader that nobody else has voted for
-/

namespace DreamboatRpc.Raft

open CS FifoNetwork

variable {n : ℕ} {V : Type*}

/-- A follower does not grant its vote on a call of a lower term. -/
def answersCurrentCall (s : Cluster n V) : Event n V → Bool
  | .follower p source _ =>
    match s.received p source with
    | some (_, .requestVotes term lastLogIndex lastLogTerm) =>
      !(decide (term < (s.nodes p).currentTerm) &&
        (s.nodes p).mayGrant lastLogIndex lastLogTerm)
    | _ => true
  | _ => true

/-- The conditions under which the votes a candidate counts are for its present candidacy. -/
def countsQuorum (s : Cluster n V) (e : Event n V) : Bool :=
  countsCurrentVote s e && answersCurrentCall s e

/-- A node becomes leader in a step. -/
def Elects (x : Step n V) (p : Fin n) : Prop :=
  (x.source.nodes p).currentRole ≠ .leader ∧ (x.target.nodes p).currentRole = .leader

instance (x : Step n V) (p : Fin n) : Decidable (Elects x p) :=
  inferInstanceAs (Decidable (_ ∧ _))

section Votes

variable {incoming : Option (Fin n × Message n V)} {nd nd' : Node n V} {s taken : Cluster n V}
  {p q v c : Fin n} {t : ℕ}

/-- An iteration sends at most one granted vote. -/
theorem VoteStep.countP_le_one (h : VoteStep incoming nd nd') (htalker : nd.talker = []) :
    (addressedTo c nd'.talker).countP (Packet.grantsIn t) ≤ 1 := by
  have hnone : SentNoVotes nd nd' →
      (addressedTo c nd'.talker).countP (Packet.grantsIn t) ≤ 1 := by
    rintro ⟨out, hout, hno⟩
    rw [hout, htalker, List.nil_append, hno.countP]
    exact Nat.zero_le 1
  have hone : ∀ d, CastVote nd nd' d →
      (addressedTo c nd'.talker).countP (Packet.grantsIn t) ≤ 1 := by
    rintro d ⟨out, cause, hno, hout⟩
    rw [hout, htalker, List.nil_append, addressedTo_append, List.countP_append, hno.countP,
      Nat.zero_add, addressedTo_singleton]
    refine List.countP_le_length.trans ?_
    split <;> simp
  -- one vote is sent when one is granted, and by a new candidate to itself
  cases h with
  | frame _ hsent => exact hnone hsent
  | raise _ _ hsent _ => exact hnone hsent
  | giveUp _ _ _ _ hsent _ => exact hnone hsent
  | grant _ _ _ _ _ hcast _ => exact hone _ hcast
  | call _ _ _ hcast _ _ => exact hone _ hcast
  | count _ _ _ _ _ hsent _ _ => exact hnone hsent

/-- The votes under way after an iteration: those that were left, and what it has sent. -/
theorem votes_iteration (htaken : taken.Fewer s) (htalker : (s.nodes p).talker = []) :
    ((taken.setNode p nd).publish p).votes v c t = taken.votes v c t +
      if v = p then (addressedTo c nd.talker).countP (Packet.grantsIn t) else 0 := by
  rw [votes_publish]
  split
  · rename_i hv
    subst hv
    have hnone : nd.talker = (taken.nodes v).talker ++ nd.talker := by
      rw [htaken.nodes, htalker, List.nil_append]
    rw [votes_setNode_self hnone]
  · rename_i hv
    rw [votes_setNode_of_ne hv, Nat.add_zero]

end Votes

variable [EmptyCollection V]

section Exec

variable {s s' : Cluster n V} {e : Event n V} {p v c : Fin n} {nd : Node n V} {t : ℕ}

omit [EmptyCollection V] in
/-- A candidate, or a node that may vote, was one before if it is in the same term. -/
theorem VoteStep.free {incoming : Option (Fin n × Message n V)} {nd nd' : Node n V}
    (h : VoteStep incoming nd nd') (hterm : nd'.currentTerm = nd.currentTerm)
    (hfree : nd'.votedFor = none ∨ ∃ k m, nd'.loop = .candidate k m) :
    nd.votedFor = none ∨ ∃ k m, nd.loop = .candidate k m := by
  cases h with
  | frame hf _ =>
    refine hfree.imp hf.votedFor ?_
    rintro ⟨k, m, hloop⟩
    obtain ⟨m', hloop'⟩ := hf.loop k m hloop
    exact ⟨k, m', hloop'⟩
  | raise _ hlt _ _ => omega
  | giveUp _ hloop _ _ _ _ => exact .inr ⟨_, _, hloop⟩
  | grant _ _ _ _ hsome _ hby =>
    rcases hfree with hnone | ⟨k, m, hloop⟩
    · simp [hsome] at hnone
    · exact absurd hloop (hby.2 k m)
  | call _ hnext _ _ _ _ => omega
  | count _ hloop _ _ _ _ _ _ => exact .inr ⟨_, _, hloop⟩

/-- A candidate, or a node that may vote, has just voted for nobody but itself. -/
theorem Grants.free (h : Grants ⟨s, e, s'⟩ v c t) (hready : s.Ready) (htalked : Talked s)
    (hs : s.exec e = some s')
    (hfree : (s'.nodes v).votedFor = none ∨ ∃ k m, (s'.nodes v).loop = .candidate k m) :
    c = v := by
  obtain ⟨nd, hiteration, hvote⟩ := h.voteGranted hready htalked hs
  obtain ⟨nd', hiteration', heq⟩ | ⟨hidle, -⟩ := Cluster.exec_node hs v
  · rw [hiteration, Option.some.injEq, Prod.mk.injEq] at hiteration'
    rw [heq, ← hiteration'.2] at hfree
    rcases hfree with hnone | ⟨k, m, hloop⟩
    · simp [hvote.votedFor] at hnone
    · rcases hvote.bystander with hby | ⟨hself, -⟩
      · exact absurd hloop (hby.2 k m)
      · exact hself.trans (htalked v).1
  · exact absurd hiteration (hidle nd)

theorem grants_iff (hiteration : s.iteration e = some (p, nd)) : Grants ⟨s, e, s'⟩ v c t ↔
    v = p ∧ 0 < (addressedTo c nd.talker).countP (Packet.grantsIn t) := by
  simp only [Grants, hiteration, Option.some.injEq, Prod.mk.injEq, List.countP_pos_iff]
  constructor
  · rintro ⟨nd', ⟨rfl, rfl⟩, hgrants⟩
    exact ⟨rfl, hgrants⟩
  · rintro ⟨rfl, hgrants⟩
    exact ⟨nd, ⟨rfl, rfl⟩, hgrants⟩

/-- A step puts at most one granted vote under way, and only where one is granted. -/
theorem votes_exec (hready : s.Ready) (htalked : Talked s) (hs : s.exec e = some s')
    (v c : Fin n) (t : ℕ) : s'.votes v c t ≤ s.votes v c t ∨
      (Grants ⟨s, e, s'⟩ v c t ∧ s'.votes v c t ≤ s.votes v c t + 1) := by
  obtain ⟨p, nd, taken, hiteration, htaken, rfl⟩ | ⟨-, ⟨p, nd, hcalled, rfl⟩ | hfewer⟩ :=
    Cluster.exec_iteration hs
  · -- an iteration: messages are taken away, and what it has sent is added
    have hle : taken.votes v c t ≤ s.votes v c t := htaken.toFewer.votes_le
    have hone := (iteration_voteStep hready hs hiteration).countP_le_one (c := c) (t := t)
      (htalked p).2
    rw [grants_iff hiteration, votes_iteration htaken.toFewer (htalked p).2]
    split
    · rename_i hv
      rcases Nat.eq_zero_or_pos ((addressedTo c nd.talker).countP (Packet.grantsIn t)) with
        hzero | hpos
      · exact .inl (by omega)
      · exact .inr ⟨⟨hv, hpos⟩, by omega⟩
    · exact .inl (by omega)
  · obtain ⟨queue, role, rfl, -⟩ := hcalled
    have hsent : SentNoVotes (s.nodes p)
        { s.nodes p with clientQueue := queue, currentRole := role } :=
      ⟨[], by simp, by simp [NoVotes]⟩
    exact .inl (votes_setNode_of_sentNoVotes hsent).le
  · exact .inl hfewer.votes_le

/-- The condition, for the vote an iteration counts. -/
theorem eq_of_countsCurrentVote (hguard : countsCurrentVote s e = true)
    (hs : s.exec e = some s') (hiteration : s.iteration e = some (p, nd)) {k m u : ℕ} {q : Fin n}
    {granted : Bool} (hloop : (s.nodes p).loop = .candidate k m)
    (hheard : s.incoming e = some (q, .vote u granted)) (hgranted : granted = true) :
    u = (s.nodes p).currentTerm := by
  subst hgranted
  obtain ⟨source, timeout, rfl⟩ := Cluster.event_of_candidate hs hiteration hloop
  have htook := Cluster.taken_of_received hheard
  simpa [countsCurrentVote, htook] using hguard

end Exec

/-- In a step node `v` gives node `c` its vote for term `t`: its own vote, or a vote in
answer to a call of `c` for votes in that term. -/
def Gives (x : Step n V) (v c : Fin n) (t : ℕ) : Prop :=
  Grants x v c t ∧
    (v = c ∨ ∃ i u, x.source.incoming x.event = some (c, .requestVotes t i u))

/-- Whenever a node became leader in a term, more than half of all nodes had each given it
their vote for that term. -/
def QuorumLegitimate (history : List (Step n V)) : Prop :=
  ∀ later y earlier, history = later ++ y :: earlier → ∀ p, Elects y p →
    ∃ Q : Finset (Fin n), n < 2 * Q.card ∧
      ∀ v ∈ Q, ∃ x ∈ earlier, Gives x v p (y.target.nodes p).currentTerm

/-- Node `v` has sent `c` a granted vote of term `t` in the course of a run. -/
def Voted (history : List (Step n V)) (v c : Fin n) (t : ℕ) : Prop :=
  ∃ x ∈ history, Grants x v c t

/-- The `k` voters whose votes for `p` of term `t` have been counted: they have voted for it,
and no other such vote of theirs is under way. -/
structure Counted (history : List (Step n V)) (s : Cluster n V) (p : Fin n) (t k : ℕ)
    (voters : Finset (Fin n)) : Prop where
  card : voters.card = k
  voted : ∀ v ∈ voters, Voted history v p t
  once : ∀ v, s.votes v p t + (if v ∈ voters then 1 else 0) ≤ 1

section Counted

variable {history : List (Step n V)} {s s' : Cluster n V} {x : Step n V} {p v c : Fin n}
  {t k : ℕ} {voters : Finset (Fin n)}

theorem voted_cons : Voted (x :: history) v c t ↔
    Grants x v c t ∨ Voted history v c t := by
  simp [Voted]

/-- Counted votes stay counted while their voters put no more under way. -/
theorem Counted.mono (h : Counted history s p t k voters)
    (hvotes : ∀ v, s'.votes v p t ≤ s.votes v p t ∨ (v ∉ voters ∧ s'.votes v p t ≤ 1)) :
    Counted (x :: history) s' p t k voters where
  card := h.card
  voted v hv := voted_cons.mpr (.inr (h.voted v hv))
  once v := by
    have hone := h.once v
    rcases hvotes v with hle | ⟨hv, hle⟩
    · omega
    · rw [if_neg hv]
      omega

end Counted

/-- The votes sent in a run, those under way and those counted. -/
structure Tallied (history : List (Step n V)) (s : Cluster n V) : Prop where
  reached : ∀ v c t, Voted history v c t → t ≤ (s.nodes v).currentTerm
  /-- A node that may vote, or is a candidate, has voted for nobody but itself. -/
  free : ∀ v c, Voted history v c (s.nodes v).currentTerm →
    ((s.nodes v).votedFor = none ∨ ∃ k m, (s.nodes v).loop = .candidate k m) → c = v
  underway : ∀ v c t, 0 < s.votes v c t → Voted history v c t
  single : ∀ v c t, v ≠ c → s.votes v c t ≤ 1
  tally : ∀ p k m, (s.nodes p).loop = .candidate k m →
    ∃ voters, Counted history s p (s.nodes p).currentTerm k voters
  gives : ∀ x ∈ history, ∀ v c t, Grants x v c t → Gives x v c t

namespace Tallied

variable {history : List (Step n V)} {s s' taken : Cluster n V} {e : Event n V} {p v c : Fin n}
  {nd : Node n V} {t k m : ℕ}

theorem init : Tallied [] (Cluster.init : Cluster n V) where
  reached v c t h := by simp [Voted] at h
  free v c h := by simp [Voted] at h
  underway v c t h := by
    simp [Cluster.votes, Cluster.inflight, Cluster.init, Node.init, FifoNetwork.empty] at h
  single v c t _ := by
    simp [Cluster.votes, Cluster.inflight, Cluster.init, Node.init, FifoNetwork.empty]
  tally p k m h := by simp [Cluster.init, Node.init] at h
  gives := by simp

/-- A node that votes for another one has not voted for it in that term before. -/
theorem not_voted (h : Tallied history s) (hready : s.Ready) (htalked : Talked s)
    (hs : s.exec e = some s') (hgrants : Grants ⟨s, e, s'⟩ v c t)
    (hother : v ≠ c ∨ (s.nodes v).currentTerm < t) : ¬ Voted history v c t := by
  intro hvoted
  obtain ⟨nd, -, hvote⟩ := hgrants.voteGranted hready htalked hs
  have hreached := h.reached v c t hvoted
  rcases hvote.free with hlt | ⟨hterm, hnone, -⟩
  · omega
  · rw [← hterm] at hvoted
    have hself := h.free v c hvoted (.inl hnone)
    rcases hother with hne | hlt
    · exact hne hself.symm
    · omega

/-- A candidate counts a vote of its present term: the voter is a new one. -/
theorem counted (h : Tallied history s) {q : Fin n} {u : ℕ} {granted : Bool}
    (htaken : Cluster.TakenFor taken s p (s.incoming e))
    (hloop : (s.nodes p).loop = .candidate k m)
    (hheard : s.incoming e = some (q, .vote u granted))
    (hcurrent : granted = true → u = (s.nodes p).currentTerm) :
    ∃ voters, Counted history taken p (s.nodes p).currentTerm (countVote k granted) voters := by
  obtain ⟨voters, hcard, hvoted, hone⟩ := h.tally p k m hloop
  have hfewer := htaken.toFewer
  cases granted with
  | false =>
    refine ⟨voters, hcard, hvoted, fun v => ?_⟩
    exact (Nat.add_le_add_right hfewer.votes_le _).trans (hone v)
  | true =>
    obtain ⟨packet, hmessage, hhead⟩ := htaken.head q _ hheard
    have hgrants : packet.grantsIn (s.nodes p).currentTerm = true := by
      simp [Packet.grantsIn, hmessage, hcurrent rfl]
    -- the vote was under way and is not any more
    have hless : s.votes q p (s.nodes p).currentTerm =
        taken.votes q p (s.nodes p).currentTerm + 1 := by
      rw [Cluster.votes, hhead, List.countP_cons_of_pos hgrants, Cluster.votes]
    have hq := hone q
    have hnew : q ∉ voters := by
      intro hmem
      rw [if_pos hmem] at hq
      omega
    refine ⟨insert q voters, ?_, fun v hv => ?_, fun v => ?_⟩
    · rw [Finset.card_insert_of_notMem hnew, hcard]
      rfl
    · rcases Finset.mem_insert.mp hv with rfl | hv
      · exact h.underway v p _ (by omega)
      · exact hvoted v hv
    · by_cases hvq : v = q
      · subst hvq
        rw [if_pos (Finset.mem_insert_self _ _)]
        omega
      · have hv := hone v
        have hle : taken.votes v p (s.nodes p).currentTerm ≤ s.votes v p (s.nodes p).currentTerm :=
          hfewer.votes_le
        simp only [Finset.mem_insert, hvq, false_or]
        omega

theorem single_exec (h : Tallied history s) (hready : s.Ready) (htalked : Talked s)
    (hs : s.exec e = some s') (hother : v ≠ c) : s'.votes v c t ≤ 1 := by
  rcases votes_exec hready htalked hs v c t with hle | ⟨hgrants, hle⟩
  · exact hle.trans (h.single v c t hother)
  · -- the vote is the first for that node in that term
    have hnone : ¬ 0 < s.votes v c t := fun hpos =>
      h.not_voted hready htalked hs hgrants (.inl hother) (h.underway v c t hpos)
    omega

/-- Votes for a node that does nothing itself stay counted. -/
theorem counted_idle (h : Tallied history s) (hready : s.Ready) (htalked : Talked s)
    (hs : s.exec e = some s') (hidle : ∀ nd, s.iteration e ≠ some (p, nd))
    (hloop : (s.nodes p).loop = .candidate k m) :
    ∃ voters, Counted (⟨s, e, s'⟩ :: history) s' p (s.nodes p).currentTerm k voters := by
  obtain ⟨voters, hcounted⟩ := h.tally p k m hloop
  refine ⟨voters, hcounted.mono fun v => ?_⟩
  rcases votes_exec hready htalked hs v p (s.nodes p).currentTerm with hle | ⟨hgrants, -⟩
  · exact .inl hle
  · have hother : v ≠ p := by
      rintro rfl
      obtain ⟨nd, hiteration, -⟩ := hgrants
      exact hidle nd hiteration
    refine .inr ⟨fun hmem => ?_, h.single_exec hready htalked hs hother⟩
    exact h.not_voted hready htalked hs hgrants (.inl hother) (hcounted.voted v hmem)

/-- The votes counted by the node whose thread runs. -/
theorem counted_iteration (h : Tallied history s) (hready : s.Ready) (htalked : Talked s)
    (hguard : countsCurrentVote s e = true) (hs : s.exec e = some s')
    (hiteration : s.iteration e = some (p, nd)) (hloop : nd.loop = .candidate k m) :
    ∃ voters, Counted (⟨s, e, s'⟩ :: history) s' p nd.currentTerm k voters := by
  obtain ⟨taken, htaken, rfl⟩ := Cluster.exec_taken hs hiteration
  have hstep := iteration_voteStep hready hs hiteration
  -- a node that sends no vote leaves what is under way to it as it is
  have hkept : SentNoVotes (s.nodes p) nd → ∀ v t,
      ((taken.setNode p nd).publish p).votes v p t ≤ taken.votes v p t := by
    intro hsent v t
    rw [votes_publish, votes_setNode_of_sentNoVotes]
    rwa [htaken.nodes]
  have hby : nd.Bystander → False := fun hby => hby.2 k m hloop
  cases hstep with
  | frame hf hsent =>
    obtain ⟨m', hloop'⟩ := hf.loop k m hloop
    obtain ⟨voters, hcounted⟩ := h.tally p k m' hloop'
    rw [hf.currentTerm]
    exact ⟨voters, hcounted.mono fun v =>
      .inl ((hkept hsent v _).trans htaken.toFewer.votes_le)⟩
  | raise _ _ _ hnone => exact absurd hnone hby
  | giveUp _ _ _ _ _ hnone => exact absurd hnone hby
  | grant _ _ _ _ _ _ hnone => exact absurd hnone hby
  | call _ hterm _ _ _ hzero =>
    -- a new candidate has counted nothing, and at most its own vote is under way
    refine ⟨∅, (hzero k m hloop).symm ▸ rfl, by simp, fun v => ?_⟩
    simp only [Finset.notMem_empty, if_false, Nat.add_zero]
    by_cases hother : v = p
    · subst hother
      have hnone : ¬ 0 < s.votes v v nd.currentTerm := fun hpos => by
        have hreached := h.reached v v _ (h.underway v v _ hpos)
        omega
      rcases votes_exec hready htalked hs v v nd.currentTerm with hle | ⟨-, hle⟩ <;> omega
    · exact h.single_exec hready htalked hs hother
  | @count q k' m' u granted _ hloop' hheard hterm _ hsent hcount _ =>
    have hcurrent := eq_of_countsCurrentVote hguard hs hiteration hloop' hheard
    -- a vote is counted that was under way: it moves from the network to the tally
    obtain ⟨voters, hcounted⟩ := h.counted htaken hloop' hheard hcurrent
    rw [hterm, (hcount k m hloop).1]
    exact ⟨voters, hcounted.mono fun v => .inl (hkept hsent v _)⟩

theorem exec (h : Tallied history s) (hready : s.Ready) (htalked : Talked s)
    (hguard : countsQuorum s e = true) (hs : s.exec e = some s') :
    Tallied (⟨s, e, s'⟩ :: history) s' := by
  obtain ⟨hcurrent, hanswers⟩ := Bool.and_eq_true_iff.mp hguard
  refine ⟨?_, ?_, ?_, fun v c t hother => h.single_exec hready htalked hs hother, ?_, ?_⟩
  · -- votes are for terms that have been reached
    intro v c t hvoted
    rcases voted_cons.mp hvoted with hgrants | hvoted
    · exact (hgrants.currentTerm hready htalked hs).ge
    · exact (h.reached v c t hvoted).trans (currentTerm_le_of_exec hready hs v)
  · -- a node that may vote has voted for nobody else
    intro v c hvoted hfree
    rcases voted_cons.mp hvoted with hgrants | hvoted
    · exact hgrants.free hready htalked hs hfree
    · have hle := currentTerm_le_of_exec hready hs v
      have hterm := hle.antisymm (h.reached v c _ hvoted)
      rw [← hterm] at hvoted
      refine h.free v c hvoted ?_
      obtain ⟨nd, hiteration, heq⟩ | ⟨-, queue, role, heq, -⟩ := Cluster.exec_node hs v
      · rw [heq] at hterm hfree
        exact (iteration_voteStep hready hs hiteration).free hterm.symm hfree
      · rwa [heq] at hfree
  · -- what is under way was sent
    intro v c t hpos
    rcases votes_exec hready htalked hs v c t with hle | ⟨hgrants, -⟩
    · exact voted_cons.mpr (.inr (h.underway v c t (hpos.trans_le hle)))
    · exact voted_cons.mpr (.inl hgrants)
  · -- the tally of a candidate: its own step, or one of another node
    intro p k m hloop
    obtain ⟨nd, hiteration, heq⟩ | ⟨hidle, queue, role, heq, -⟩ := Cluster.exec_node hs p
    · rw [heq] at hloop ⊢
      have hcounted := h.counted_iteration hready htalked hcurrent hs hiteration hloop
      exact hcounted
    · rw [heq] at hloop ⊢
      exact h.counted_idle hready htalked hs hidle hloop
  · -- a vote is for oneself or an answer
    intro x hx v c t hgrants
    rcases List.mem_cons.mp hx with rfl | hx
    · refine ⟨hgrants, ?_⟩
      obtain ⟨nd, hiteration, hvote⟩ := hgrants.voteGranted hready htalked hs
      obtain hself | ⟨u, i, w, hheard, rfl | ⟨hlt, hloop, hmay⟩⟩ := hvote.answers
      · exact .inl ((htalked v).1.symm.trans hself.symm)
      · exact .inr ⟨i, w, hheard⟩
      · -- the condition rules out a vote on a call of an earlier term
        obtain ⟨source, timeout, rfl⟩ := Cluster.event_of_follower hs hiteration hloop
        have hreceived : s.received v source = some (c, .requestVotes u i w) := hheard
        simp [answersCurrentCall, hreceived, hlt, hmay] at hanswers
    · exact h.gives x hx v c t hgrants

/-- A node that becomes leader has counted the votes of a majority. -/
theorem elects (h : Tallied history s) (hready : s.Ready) (hguard : countsCurrentVote s e = true)
    (hs : s.exec e = some s') (hn : 1 < n) (helects : Elects ⟨s, e, s'⟩ p) :
    ∃ voters : Finset (Fin n), n < 2 * voters.card ∧
      ∀ v ∈ voters, Voted history v p (s'.nodes p).currentTerm := by
  obtain ⟨hbefore, hlead⟩ := helects
  obtain ⟨nd, hiteration, heq⟩ | ⟨-, queue, role, heq, hrole⟩ := Cluster.exec_node hs p
  · rw [heq] at hlead ⊢
    have hnot : nd.Bystander → False := fun hby => hby.1 hlead
    -- only counting a vote makes a leader
    cases iteration_voteStep hready hs hiteration with
    | frame hf _ => exact absurd (hf.currentRole hlead) hbefore
    | raise _ _ _ hby => exact absurd hby hnot
    | giveUp _ _ _ _ _ hby => exact absurd hby hnot
    | grant _ _ _ _ _ _ hby => exact absurd hby hnot
    | call _ _ _ _ hrole _ => exact absurd hlead hrole
    | @count q k m u granted _ hloop hheard hterm _ _ _ hwins =>
      have hcurrent := eq_of_countsCurrentVote hguard hs hiteration hloop hheard
      obtain ⟨taken, htaken, -⟩ := Cluster.exec_taken hs hiteration
      obtain ⟨voters, hcounted⟩ := h.counted htaken hloop hheard hcurrent
      have hmajority : countVote k granted > n / 2 := (hwins hlead).resolve_right (by omega)
      refine ⟨voters, ?_, fun v hv => ?_⟩
      · rw [hcounted.card]
        omega
      · have hvoted := hcounted.voted v hv
        rwa [← hterm] at hvoted
  · rw [heq] at hlead
    exact absurd (hrole hlead) hbefore

/-- The invariant, in all runs that meet the conditions. -/
theorem of_run (h : (clusterSystem n V).Run (fun s e => countsQuorum s e = true) history s) :
    (s.Ready ∧ Talked s) ∧ Tallied history s := by
  refine h.invariant (I := fun history s => (s.Ready ∧ Talked s) ∧ Tallied history s) ?_ ?_
  · rintro _ rfl
    exact ⟨⟨Cluster.ready_init, fun _ => ⟨rfl, rfl⟩⟩, .init⟩
  · rintro history s e s' ⟨⟨hready, htalked⟩, htallied⟩ hguard hs
    exact ⟨⟨hready.exec hs, htalked.exec hready hs⟩, htallied.exec hready htalked hguard hs⟩

end Tallied

/-! ## The result -/

/-- In all runs in which candidates count votes of their own term only, and followers grant
no vote on calls of an earlier term, a node of a cluster of several that becomes leader had
the votes of more than half of all nodes. -/
theorem quorum_legitimate (hn : 1 < n) {history : List (Step n V)} {s : Cluster n V}
    (h : (clusterSystem n V).Run (fun s e => countsQuorum s e = true) history s) :
    QuorumLegitimate history := by
  rintro later ⟨source, e, target⟩ earlier rfl p helects
  obtain ⟨state, hrun⟩ := h.of_append
  cases hrun with
  | step hbefore hguard hstep =>
    obtain ⟨⟨hready, htalked⟩, htallied⟩ := Tallied.of_run hbefore
    have hcurrent := (Bool.and_eq_true_iff.mp hguard).1
    obtain ⟨voters, hcard, hvoted⟩ := htallied.elects hready hcurrent hstep hn helects
    refine ⟨voters, hcard, fun v hv => ?_⟩
    obtain ⟨x, hx, hgrants⟩ := hvoted v hv
    exact ⟨x, hx, htallied.gives x hx v p _ hgrants⟩

/-- Node `0` becomes leader of `t` in the last step. -/
def endsElecting (t : ℕ) (history : List (Step 2 (List ℕ))) : Bool :=
  history.head?.any fun x => decide (Elects x 0) && (x.target.nodes 0).currentTerm == t

theorem exists_of_endsElecting {t : ℕ} {history : List (Step 2 (List ℕ))}
    (h : endsElecting t history = true) : ∃ y earlier, history = y :: earlier ∧ Elects y 0 ∧
      (y.target.nodes 0).currentTerm = t := by
  cases history with
  | nil => simp [endsElecting] at h
  | cons y earlier =>
    simp only [endsElecting, List.head?_cons, Option.any_some, Bool.and_eq_true, decide_eq_true_eq,
      beq_iff_eq] at h
    exact ⟨y, earlier, rfl, h⟩

theorem quorum_legitimate_wonElection :
    ∃ (y : Step 2 (List ℕ)) (earlier : List (Step 2 (List ℕ))), Elects y 0 ∧
      QuorumLegitimate (y :: earlier) := by
  have hreplay : (replay Cluster.exec countsQuorum [] Cluster.init wonElection).any
      (fun r => endsElecting 2 r.1) = true := by decide +kernel
  obtain ⟨history, s, hrun, htest⟩ := exists_run_of_replay (fun history _ => endsElecting 2 history)
    hreplay
  obtain ⟨y, earlier, rfl, helects, -⟩ := exists_of_endsElecting htest
  exact ⟨y, earlier, helects, quorum_legitimate (by decide) hrun⟩

/-- Without the conditions a node may become leader with nobody's vote but its own: those of
two candidacies are counted together. -/
theorem elected_alone :
    ¬ ∀ (n : ℕ) (history : List (Step n (List ℕ))) (s : Cluster n (List ℕ)), 1 < n →
      (clusterSystem n (List ℕ)).Run unguarded history s → QuorumLegitimate history := by
  intro hlegitimate
  have hreplay : (replay Cluster.exec (fun _ _ => true) [] Cluster.init (lonelyElection 0)).any
      (fun r => endsElecting 3 r.1 && r.1.all fun x => !votesFor x 1 0 3) = true := by
    decide +kernel
  obtain ⟨history, s, hrun, htest⟩ := exists_run_of_replay
    (fun history _ => endsElecting 3 history && history.all fun x => !votesFor x 1 0 3) hreplay
  obtain ⟨hends, hnone⟩ := Bool.and_eq_true_iff.mp htest
  obtain ⟨y, earlier, rfl, helects, hterm⟩ := exists_of_endsElecting hends
  obtain ⟨Q, hcard, hvoted⟩ := hlegitimate 2 _ s (by decide) (hrun.mono fun _ _ _ => trivial) []
    y earlier rfl 0 helects
  -- a majority of two nodes contains the other one
  have hother : (1 : Fin 2) ∈ Q := by
    by_contra hnot
    have hlt := Finset.card_lt_univ_of_notMem hnot
    rw [Fintype.card_fin] at hlt
    omega
  obtain ⟨x, hx, hgrants, -⟩ := hvoted 1 hother
  rw [hterm, grants_iff_votesFor] at hgrants
  have hfalse := List.all_eq_true.mp hnone x (List.mem_cons_of_mem _ hx)
  simp [hgrants] at hfalse

end DreamboatRpc.Raft
