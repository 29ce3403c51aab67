import DreamboatRpc.Raft.Sending
import DreamboatRpc.Raft.VoteUniqueness

/-!
# Whom a node has voted for

A node records every candidate it answers, also the one it refuses. What is recorded is a
vote only as long as no request is refused, or only those of the candidate that is recorded
already; where another one is refused, it takes the place of a vote, or uses up the vote.

## Main definitions

* `Node.ballot` — whom a node has voted for in a term it has reached or moves to
* `VoteTruthful` — who is recorded was sent a vote, and a refusal leaves the record
* `refusesRecorded` — the condition on the request a follower is given

## Main results

* `voteTruthful_exec_iff` — a step keeps the record truthful iff it meets the condition
* `vote_truthful_iff` — the same for all states of a run
-/

namespace DreamboatRpc.Raft

open CS FifoNetwork

variable {n : ℕ} {V : Type*}

namespace Node

variable {nd nd' : Node n V}

/-- Whom a node has voted for, once it has moved to the term if that is a later one. -/
def ballot (nd : Node n V) (term : ℕ) : Option (Fin n) :=
  if term > nd.currentTerm then none else nd.votedFor

/-- To answer the message leaves the record truthful: a request is granted, or comes from the
candidate the node has voted for. -/
def keepsVote (nd : Node n V) (candidate : Fin n) : Message n V → Bool
  | .requestVotes term lastLogIndex lastLogTerm =>
    match nd.ballot term with
    | none => decide (lastLogIndex ≥ nd.lastAppliedIndex ∧ lastLogTerm ≥ nd.lastAppliedTerm)
    | some recorded => recorded == candidate
  | .vote _ _ | .heartbeat _ _ | .appendEntries _ _ _ _ _ _ | .committal _ _ _
  | .acknowledge _ _ | .clientRequest _ _ => true

/-- Who is recorded was recorded before in the same term, or has been sent a vote. -/
def RecordsCast (nd nd' : Node n V) : Prop :=
  ∀ c, nd'.votedFor = some c → (nd.votedFor = some c ∧ nd'.currentTerm = nd.currentTerm) ∨
    ∃ cause, (some c, ⟨.vote nd'.currentTerm true, cause⟩) ∈ nd'.talker

/-- A node that has sent a refusal has recorded no one by that. -/
def RefusalKeeps (nd nd' : Node n V) : Prop :=
  ∀ c t cause, (some c, ⟨.vote t false, cause⟩) ∈ nd'.talker →
    nd'.votedFor = nd.ballot nd'.currentTerm

theorem ballot_of_le {term : ℕ} (h : term ≤ nd.currentTerm) : nd.ballot term = nd.votedFor :=
  if_neg (not_lt.mpr h)

theorem RecordsCast.of_eq (hvoted : nd'.votedFor = nd.votedFor)
    (hterm : nd'.currentTerm = nd.currentTerm) : nd.RecordsCast nd' :=
  fun _ h => .inl ⟨hvoted.symm.trans h, hterm⟩

theorem RecordsCast.of_none (hvoted : nd'.votedFor = none) : nd.RecordsCast nd' :=
  fun c h => by simp [hvoted] at h

theorem RecordsCast.of_cast {c : Fin n} {cause : Option (Message n V)}
    (hvoted : nd'.votedFor = some c)
    (hsent : (some c, ⟨.vote nd'.currentTerm true, cause⟩) ∈ nd'.talker) :
    nd.RecordsCast nd' := by
  intro d hd
  obtain rfl := Option.some.inj (hvoted.symm.trans hd)
  exact .inr ⟨cause, hsent⟩

theorem RefusalKeeps.of_sent {P : Message n V → Prop} (hrefusal : ∀ t, ¬ P (.vote t false))
    (htalker : nd.talker = []) (hsent : Sent P nd nd') : nd.RefusalKeeps nd' := by
  intro c t cause hmem
  obtain ⟨out, hout, hall⟩ := hsent
  rw [hout, htalker, List.nil_append] at hmem
  exact absurd (hall _ hmem) (hrefusal t)

/-! ## Followers -/

/-- A follower that answers a request moves to its term, and records the candidate. -/
theorem followerRequestVotes_eq (nd : Node n V) (q : Fin n) (t i u : ℕ) :
    ∃ granted : Bool, nd.followerRequestVotes q t i u =
        { nd with
          currentTerm := max nd.currentTerm t
          votedFor := some q
          talker := nd.talker ++
            [(some q, ⟨.vote (max nd.currentTerm t) granted, nd.incomingMessage⟩)] } ∧
      (granted = true ↔ nd.ballot t = none ∧ i ≥ nd.lastAppliedIndex ∧
        u ≥ nd.lastAppliedTerm) := by
  unfold followerRequestVotes
  by_cases ht : t > nd.currentTerm
  · have hmax : max nd.currentTerm t = t := max_eq_right ht.le
    have hballot : nd.ballot t = none := if_pos ht
    simp only [if_pos ht, hmax]
    split
    · rename_i hgrant
      exact ⟨true, rfl, fun _ => ⟨hballot, hgrant.2⟩, fun _ => rfl⟩
    · rename_i hrefuse
      refine ⟨false, rfl, ?_⟩
      simp only [Bool.false_eq_true, false_iff, hballot, true_and]
      exact fun h => hrefuse ⟨rfl, h⟩
  · have hmax : max nd.currentTerm t = nd.currentTerm := max_eq_left (not_lt.mp ht)
    simp only [if_neg ht, hmax, ballot_of_le (not_lt.mp ht)]
    split
    · rename_i hgrant
      exact ⟨true, rfl, by simpa using hgrant⟩
    · rename_i hrefuse
      refine ⟨false, rfl, ?_⟩
      simpa using hrefuse

/-- The answer to a request, if the request meets the condition. -/
theorem followerRequestVotes_recordsCast {q : Fin n} {t i u : ℕ}
    (h : nd.keepsVote q (.requestVotes t i u) = true) :
    nd.RecordsCast (nd.followerRequestVotes q t i u) := by
  obtain ⟨granted, heq, hgranted⟩ := nd.followerRequestVotes_eq q t i u
  rw [heq]
  simp only [keepsVote] at h
  cases hballot : nd.ballot t with
  | none =>
    -- a request in a term it has not voted in is granted
    simp only [hballot, decide_eq_true_eq] at h
    obtain rfl := hgranted.mpr ⟨hballot, h⟩
    exact .of_cast rfl (List.mem_append_right _ (List.mem_singleton_self _))
  | some c =>
    -- the candidate is recorded in this term already
    simp only [hballot, beq_iff_eq] at h
    subst h
    have hle : t ≤ nd.currentTerm := by
      by_contra hlt
      rw [ballot, if_pos (not_le.mp hlt)] at hballot
      cases hballot
    rw [ballot_of_le hle] at hballot
    exact .of_eq hballot.symm (max_eq_left hle)

theorem followerRequestVotes_refusalKeeps_iff (htalker : nd.talker = []) {q : Fin n} {t i u : ℕ} :
    nd.RefusalKeeps (nd.followerRequestVotes q t i u) ↔
      nd.keepsVote q (.requestVotes t i u) = true := by
  obtain ⟨granted, heq, hgranted⟩ := nd.followerRequestVotes_eq q t i u
  have hballot : nd.ballot (max nd.currentTerm t) = nd.ballot t := by
    rcases lt_or_ge nd.currentTerm t with hlt | hge
    · rw [max_eq_right hlt.le]
    · rw [max_eq_left hge, ballot_of_le le_rfl, ballot_of_le hge]
  rw [heq]
  simp only [RefusalKeeps, htalker, List.nil_append, List.mem_singleton, Prod.mk.injEq,
    Option.some.injEq, Packet.mk.injEq, Message.vote.injEq, hballot, keepsVote]
  constructor
  · intro hkeeps
    cases granted with
    | true =>
      obtain ⟨hnone, hbehind⟩ := hgranted.mp rfl
      simp only [hnone, decide_eq_true_eq]
      exact hbehind
    | false =>
      have hrecorded := hkeeps q _ _ ⟨rfl, ⟨rfl, rfl⟩, rfl⟩
      rw [← hrecorded]
      simp
  · rintro h c t' cause ⟨-, ⟨-, rfl⟩, -⟩
    cases hvoted : nd.ballot t with
    | none =>
      simp only [hvoted, decide_eq_true_eq] at h
      exact absurd (hgranted.mpr ⟨hvoted, h⟩) Bool.false_ne_true
    | some recorded =>
      simp only [hvoted, beq_iff_eq] at h
      rw [h]

theorem followerHeartbeat_recordsCast (nd : Node n V) (t : ℕ) (l : Fin n) :
    nd.RecordsCast (nd.followerHeartbeat t l) := by
  have hsame : ∀ nd' : Node n V, (nd'.forwardClientRequest l).votedFor = nd'.votedFor ∧
      (nd'.forwardClientRequest l).currentTerm = nd'.currentTerm := by
    intro nd'
    unfold forwardClientRequest
    split <;> exact ⟨rfl, rfl⟩
  unfold followerHeartbeat
  by_cases ht : t > nd.currentTerm
  · simp only [if_pos ht]
    exact .of_none (hsame _).1
  · simp only [if_neg ht]
    exact .of_eq (hsame _).1 (hsame _).2

theorem followerMessage_recordsCast {q : Fin n} {message : Message n V}
    (h : nd.keepsVote q message = true) : nd.RecordsCast (nd.followerMessage q message) := by
  cases message with
  | requestVotes t i u => exact followerRequestVotes_recordsCast h
  | heartbeat t l => exact nd.followerHeartbeat_recordsCast t l
  | appendEntries t l k u e c =>
    simp only [followerMessage, followerAppendEntries, appendEntry]
    split
    · split <;> exact .of_eq rfl rfl
    · exact .of_eq rfl rfl
  | _ => exact .of_eq rfl rfl

/-- Only requests are refused. -/
theorem followerMessage_refusalKeeps_iff (htalker : nd.talker = []) (q : Fin n)
    (message : Message n V) :
    nd.RefusalKeeps (nd.followerMessage q message) ↔ nd.keepsVote q message = true := by
  have hother : (∀ t i u, message ≠ .requestVotes t i u) →
      nd.RefusalKeeps (nd.followerMessage q message) := by
    intro hmessage
    refine .of_sent (P := fun m => ∀ t, m ≠ .vote t false) (fun t h => h t rfl) htalker ?_
    cases message with
    | requestVotes t i u => exact absurd rfl (hmessage t i u)
    | heartbeat t l =>
      simp only [followerMessage, followerHeartbeat, forwardClientRequest]
      split <;> split
      · exact .of_eq rfl
      · exact .of_eq rfl
      · exact .of_send rfl (by simp)
      · exact .of_send rfl (by simp)
    | appendEntries t l k u e c =>
      simp only [followerMessage, followerAppendEntries, appendEntry]
      split
      · split <;> exact .of_send rfl (by simp)
      · exact .of_send rfl (by simp)
    | _ => exact .of_eq rfl
  cases message with
  | requestVotes t i u => exact followerRequestVotes_refusalKeeps_iff htalker
  | _ => simp [hother (by simp), keepsVote]

/-- The timer of a follower has no part in whom it records. -/
theorem follower_votedFor (hrole : nd.currentRole = .follower) (q : Fin n)
    (message : Message n V) (timeout : Bool) :
    ∃ role loop, nd.follower (some (q, message)) timeout =
      { { nd with incomingMessage := some message }.followerMessage q message with
        currentRole := role, loop := loop } := by
  unfold follower
  rw [if_pos hrole]
  simp only [receive]
  split <;> exact ⟨_, _, rfl⟩

/-- A follower keeps its record when it refuses iff the message meets the condition. -/
theorem follower_refusalKeeps_iff (hrole : nd.currentRole = .follower) (htalker : nd.talker = [])
    (q : Fin n) (message : Message n V) (timeout : Bool) :
    nd.RefusalKeeps (nd.follower (some (q, message)) timeout) ↔ nd.keepsVote q message = true := by
  have hheld : ({ nd with incomingMessage := some message } : Node n V).talker = [] := htalker
  obtain ⟨role, loop, heq⟩ := follower_votedFor hrole q message timeout
  rw [heq]
  exact followerMessage_refusalKeeps_iff hheld q message

/-- Without a message a follower sends nothing. -/
theorem follower_idle_refusalKeeps (htalker : nd.talker = []) (timeout : Bool) :
    nd.RefusalKeeps (nd.follower none timeout) := by
  refine .of_sent (P := fun _ => False) (fun _ => id) htalker ?_
  unfold follower
  split
  · simp only [receive]
    split <;> exact .of_eq rfl
  · exact .of_eq rfl

theorem follower_recordsCast {incoming : Option (Fin n × Message n V)}
    (h : ∀ q message, incoming = some (q, message) → nd.keepsVote q message = true)
    (timeout : Bool) : nd.RecordsCast (nd.follower incoming timeout) := by
  by_cases hrole : nd.currentRole = .follower
  · cases incoming with
    | none =>
      unfold follower
      rw [if_pos hrole]
      simp only [receive]
      split <;> exact .of_eq rfl rfl
    | some x =>
      obtain ⟨q, message⟩ := x
      have hheld : ({ nd with incomingMessage := some message } : Node n V).keepsVote q message =
          true := h q message rfl
      obtain ⟨role, loop, heq⟩ := follower_votedFor hrole q message timeout
      rw [heq]
      exact followerMessage_recordsCast hheld
  · unfold follower
    rw [if_neg hrole]
    exact .of_eq rfl rfl

/-! ## The other loops -/

theorem candidate_recordsCast (nd : Node n V) (k m : ℕ) (incoming : Option (Fin n × Message n V))
    (timeout : Bool) : nd.RecordsCast (nd.candidate k m incoming timeout) := by
  have hmessage : nd.RecordsCast (nd.receive (fun nd => nd.candidateMessage k m) incoming) := by
    cases incoming with
    | none => exact .of_eq rfl rfl
    | some x =>
      obtain ⟨q, message⟩ := x
      cases message with
      | vote t granted =>
        simp only [receive, candidateMessage, candidateVote]
        split <;> split <;> exact .of_eq rfl rfl
      | requestVotes t i u =>
        simp only [receive, candidateMessage]
        split
        · exact .of_cast rfl (List.mem_append_right _ (List.mem_singleton_self _))
        · exact .of_eq rfl rfl
      | heartbeat t l =>
        -- to hear of a leader clears the vote
        simp only [receive, candidateMessage]
        split
        · exact .of_none rfl
        · exact .of_eq rfl rfl
      | _ => exact .of_eq rfl rfl
  unfold candidate
  split
  · simp only
    split
    · exact hmessage
    · exact hmessage
  · exact .of_eq rfl rfl

theorem LeaderOps.votedFor {O : Entry V → Prop} {C : Fin n → ℕ → Prop}
    (hops : LeaderOps O C nd nd') : nd'.votedFor = nd.votedFor := by
  induction hops with
  | refl => rfl
  | tail _ hop ih => cases hop <;> exact ih

theorem leader_recordsCast (hready : nd.Ready) (heartbeat : Bool) (expired : Fin n → Bool)
    (incoming : Option (Fin n × Message n V)) :
    nd.RecordsCast (nd.leader heartbeat expired incoming) := by
  by_cases hrole : nd.currentRole = .leader
  · obtain ⟨nd₁, hops, hcases⟩ := leader_cases (O := fun _ => True) (C := fun _ _ => True)
      hrole hready heartbeat expired incoming (fun _ _ _ _ => trivial) (fun _ _ _ _ _ => trivial)
    obtain heq | ⟨q, t, i, u, -, -, heq⟩ | ⟨entry, rest, -, -, -, heq⟩ := hcases
    · rw [heq]
      exact .of_eq hops.votedFor hops.currentTerm
    · rw [heq]
      exact .of_cast rfl (List.mem_append_right _ (List.mem_singleton_self _))
    · have hready' : ({ nd₁ with clientQueue := rest } : Node n V).Ready :=
        (hready.ops hops).congr rfl rfl
      have hbroadcast := broadcastAppendEntries_ops (O := fun _ => True) (C := fun _ _ => True)
        hready' entry trivial
      rw [heq]
      exact .of_eq (hbroadcast.votedFor.trans hops.votedFor)
        (hbroadcast.currentTerm.trans hops.currentTerm)
  · unfold leader
    rw [if_neg hrole]
    exact .of_eq rfl rfl

theorem run_recordsCast [EmptyCollection V] (hready : nd.Ready) : nd.RecordsCast nd.run := by
  unfold run
  split
  · have hbroadcast := broadcastAppendEntries_ops (O := fun _ => True) (C := fun _ _ => True)
      hready.inaugurated nd.noop trivial
    rw [enterLeader_eq]
    exact .of_eq hbroadcast.votedFor hbroadcast.currentTerm
  · exact .of_eq rfl rfl
  · -- its own vote goes out with the call
    exact .of_cast rfl (List.mem_append_right _ (List.mem_singleton_self _))
  · exact .of_eq rfl rfl

end Node

/-! ## All steps -/

/-- The request a follower is given, if it is given one, leaves its record truthful. -/
def refusesRecorded (s : Cluster n V) : Event n V → Bool
  | .follower p source _ => (s.received p source).all fun m => (s.nodes p).keepsVote m.1 m.2
  | .run _ | .candidate _ _ _ | .leader _ _ _ _ | .clientRequest _ _ _ | .pause _ | .unPause _
  | .lose _ _ _ => true

variable [EmptyCollection V]

/-- Whoever a node has recorded was sent its granted vote for the present term, and to refuse
a candidate has not changed any record. -/
structure VoteTruthful (history : List (Step n V)) (s : Cluster n V) : Prop where
  sent : ∀ p c, (s.nodes p).votedFor = some c →
    ∃ x ∈ history, Grants x p c (s.nodes p).currentTerm
  kept : ∀ x ∈ history, ∀ p nd, x.source.iteration x.event = some (p, nd) →
    (x.source.nodes p).RefusalKeeps nd

section Steps

variable {s s' : Cluster n V} {e : Event n V} {p : Fin n} {nd : Node n V}
  {history : List (Step n V)}

/-- An iteration that is not given a request to refuse records whom it votes for. -/
theorem iteration_recordsCast (hready : s.Ready) (hs : s.exec e = some s')
    (hiteration : s.iteration e = some (p, nd)) (hcond : refusesRecorded s e = true) :
    (s.nodes p).RecordsCast nd := by
  obtain ⟨rfl, -, rfl⟩ | ⟨source, timeout, rfl, -, rfl⟩ | ⟨source, timeout, k, m, rfl, -, rfl⟩ |
    ⟨heartbeat, expired, source, rfl, -, rfl⟩ := Cluster.iteration_cases hs hiteration
  · exact Node.run_recordsCast (hready p)
  · refine Node.follower_recordsCast (fun q message hreceived => ?_) timeout
    simpa [refusesRecorded, hreceived] using hcond
  · exact Node.candidate_recordsCast _ k m _ timeout
  · exact Node.leader_recordsCast (hready p) heartbeat expired _

/-- Only followers refuse, and they do so without a trace iff the condition holds. -/
theorem iteration_refusalKeeps_iff (hready : s.Ready) (htalked : Talked s)
    (hs : s.exec e = some s') (hiteration : s.iteration e = some (p, nd)) :
    (s.nodes p).RefusalKeeps nd ↔ refusesRecorded s e = true := by
  obtain ⟨rfl, -, rfl⟩ | ⟨source, timeout, rfl, hloop, rfl⟩ |
    ⟨source, timeout, k, m, rfl, -, rfl⟩ | ⟨heartbeat, expired, source, rfl, -, rfl⟩ :=
    Cluster.iteration_cases hs hiteration
  · simp only [refusesRecorded, iff_true]
    exact .of_sent (P := fun m => ∀ t, m ≠ .vote t false) (fun t h => h t rfl) (htalked p).2
      (run_sent ⟨by simp, by simp, by simp⟩ (by simp) (by simp) (hready p))
  · simp only [refusesRecorded]
    cases hreceived : s.received p source with
    | none =>
      simp only [Option.all_none, iff_true]
      exact Node.follower_idle_refusalKeeps (htalked p).2 timeout
    | some x =>
      have hrole := Cluster.follower_of_received hs hreceived
      exact Node.follower_refusalKeeps_iff hrole (htalked p).2 x.1 x.2 timeout
  · simp only [refusesRecorded, iff_true]
    exact .of_sent (P := fun m => ∀ t, m ≠ .vote t false) (fun t h => h t rfl) (htalked p).2
      (candidate_sent (by simp) k m _ timeout)
  · simp only [refusesRecorded, iff_true]
    exact .of_sent (P := fun m => ∀ t, m ≠ .vote t false) (fun t h => h t rfl) (htalked p).2
      (leader_sent ⟨by simp, by simp, by simp⟩ (by simp) (hready p) heartbeat expired _)

/-- A step keeps the record truthful exactly if it meets the condition. -/
theorem voteTruthful_exec_iff (h : VoteTruthful history s) (hready : s.Ready) (htalked : Talked s)
    (hs : s.exec e = some s') :
    VoteTruthful (⟨s, e, s'⟩ :: history) s' ↔ refusesRecorded s e = true := by
  constructor
  · intro h'
    cases e with
    | follower p source timeout =>
      exact (iteration_refusalKeeps_iff hready htalked hs rfl).mp
        (h'.kept _ (List.mem_cons_self ..) p _ rfl)
    | _ => rfl
  · intro hcond
    constructor
    · intro p c hvoted
      obtain ⟨nd, hiteration, heq⟩ | ⟨-, queue, role, heq, -⟩ := Cluster.exec_node hs p
      · rw [heq] at hvoted ⊢
        rcases iteration_recordsCast hready hs hiteration hcond c hvoted with
          ⟨hbefore, hterm⟩ | ⟨cause, hmem⟩
        · -- an earlier vote of the same term
          obtain ⟨x, hx, hgrants⟩ := h.sent p c hbefore
          rw [← hterm] at hgrants
          exact ⟨x, List.mem_cons_of_mem _ hx, hgrants⟩
        · exact ⟨_, List.mem_cons_self .., nd, hiteration, _, mem_addressedTo.mpr (.inr hmem),
            by simp [Packet.grantsIn]⟩
      · rw [heq] at hvoted ⊢
        obtain ⟨x, hx, hgrants⟩ := h.sent p c hvoted
        exact ⟨x, List.mem_cons_of_mem _ hx, hgrants⟩
    · intro x hx p nd hiteration
      rcases List.mem_cons.mp hx with rfl | hx
      · exact (iteration_refusalKeeps_iff hready htalked hs hiteration).mpr hcond
      · exact h.kept x hx p nd hiteration

end Steps

/-! ## The result -/

/-- In every state of a run the nodes it has recorded were voted for, and no refusal has
changed a record, iff every request a follower is given in it is granted or comes from the
candidate that is recorded. -/
theorem vote_truthful_iff {history : List (Step n V)} {s : Cluster n V}
    (hrun : (clusterSystem n V).Run unguarded history s) :
    (∀ earlier t, (clusterSystem n V).Run unguarded earlier t → earlier <:+ history →
      VoteTruthful earlier t) ↔ ∀ x ∈ history, refusesRecorded x.source x.event = true := by
  apply hrun.histories_iff (C := fun s e => refusesRecorded s e = true)
  · rintro _ rfl
    exact ⟨fun p c hvoted => by simp [Cluster.init, Node.init] at hvoted, by simp⟩
  · intro history s e t hbefore h hs
    have hreach : (clusterSystem n V).Reachable unguarded s := ⟨history, hbefore⟩
    exact voteTruthful_exec_iff h (Cluster.Ready.of_reachable hreach)
      (Talked.of_reachable hreach) hs

/-- Node `1` has recorded node `0` in term 2, and every step met the condition. -/
def recordsVote (history : List (Step 2 (List ℕ))) (s : Cluster 2 (List ℕ)) : Bool :=
  decide ((s.nodes 1).votedFor = some 0 ∧ (s.nodes 1).currentTerm = 2) &&
    history.all fun x => refusesRecorded x.source x.event

theorem vote_truthful_iff_wonElection :
    ∃ (history : List (Step 2 (List ℕ))) (s : Cluster 2 (List ℕ)),
      recordsVote history s ∧ VoteTruthful history s := by
  have hreplay : (replay Cluster.exec (fun _ _ => true) [] Cluster.init wonElection).any
      (fun r => recordsVote r.1 r.2) = true := by decide
  obtain ⟨history, s, hguarded, htest⟩ := exists_run_of_replay recordsVote hreplay
  have hrun : (clusterSystem 2 (List ℕ)).Run unguarded history s :=
    hguarded.mono fun _ _ _ => trivial
  have hcond := htest
  simp only [recordsVote, Bool.and_eq_true, List.all_eq_true] at hcond
  exact ⟨history, s, htest, (vote_truthful_iff hrun).mpr hcond.2 history s hrun List.suffix_rfl⟩

/-- Nodes `0` and `1` of three start an election each in term 2; node `2` hears of the first
one, and then of the second. -/
def secondCandidate : List (Event 3 (List ℕ)) :=
  [.run 0, .run 1, .run 2, .follower 0 none true, .run 0, .follower 1 none true, .run 1,
    .follower 2 (some 0) false, .follower 2 (some 1) false]

/-- Node `2` has recorded node `1`, and has sent it no vote. -/
def recordsRefused (history : List (Step 3 (List ℕ))) (s : Cluster 3 (List ℕ)) : Bool :=
  decide ((s.nodes 2).votedFor = some 1 ∧ (s.nodes 2).currentTerm = 2) &&
    history.all fun x => !votesFor x 2 1 2

/-- Without the condition a candidate that is refused is recorded. -/
theorem recorded_refused :
    ¬ ∀ (n : ℕ) (history : List (Step n (List ℕ))) (s : Cluster n (List ℕ)),
      (clusterSystem n (List ℕ)).Run unguarded history s → VoteTruthful history s := by
  intro htruthful
  have hreplay : (replay Cluster.exec (fun _ _ => true) [] Cluster.init secondCandidate).any
      (fun r => recordsRefused r.1 r.2) = true := by decide +kernel
  obtain ⟨history, s, hrun, htest⟩ := exists_run_of_replay recordsRefused hreplay
  simp only [recordsRefused, Bool.and_eq_true, decide_eq_true_eq, List.all_eq_true,
    Bool.not_eq_true'] at htest
  obtain ⟨⟨hvoted, hterm⟩, hnever⟩ := htest
  obtain ⟨x, hx, hgrants⟩ :=
    (htruthful 3 history s (hrun.mono fun _ _ _ => trivial)).sent 2 1 hvoted
  rw [hterm, grants_iff_votesFor, hnever x hx] at hgrants
  exact Bool.false_ne_true hgrants

end DreamboatRpc.Raft
