import DreamboatRpc.Raft.Ballots

/-!
# One vote in every term

A node clears its vote when it moves to another term, and records every vote it casts. A
candidate, however, also clears its vote when it is told of a leader of its own term: it
has voted for itself then, and as a follower it votes once more in that term. This is the
only way to vote for two candidates.

## Main definitions

* `hearsNoRival` — a candidate is not told of a leader of its own term
* `VoteUnique` — a node votes for one candidate a term

## Main results

* `vote_unique` — in all runs that meet the condition a node votes for one candidate a term
* `voted_twice` — a node that votes for itself and then for another candidate
-/

namespace DreamboatRpc.Raft

open CS FifoNetwork

variable {n : ℕ} {V : Type*}

/-- A candidate is not given a heartbeat of its own term. -/
def hearsNoRival (s : Cluster n V) : Event n V → Bool
  | .candidate p source _ =>
    match s.received p source with
    | some (_, .heartbeat term _) => term != (s.nodes p).currentTerm
    | _ => true
  | _ => true

variable [EmptyCollection V]

/-- In every term a node sends granted votes to at most one candidate. -/
def VoteUnique (history : List (Step n V)) : Prop :=
  ∀ x ∈ history, ∀ y ∈ history, ∀ p c d t, Grants x p c t → Grants y p d t → c = d

/-- What the votes a node has sent in a run say about its state: they are for terms it has
reached, and those for its present term are recorded. -/
structure VotesRecorded (history : List (Step n V)) (s : Cluster n V) : Prop where
  reached : ∀ x ∈ history, ∀ p c t, Grants x p c t → t ≤ (s.nodes p).currentTerm
  recorded : ∀ x ∈ history, ∀ p c, Grants x p c (s.nodes p).currentTerm →
    (s.nodes p).votedFor ≠ none

section Steps

variable {incoming : Option (Fin n × Message n V)} {nd nd' : Node n V} {s s' : Cluster n V}
  {e : Event n V} {p c : Fin n} {t : ℕ} {history : List (Step n V)}

omit [EmptyCollection V] in
theorem VoteStep.currentTerm_le (h : VoteStep incoming nd nd') :
    nd.currentTerm ≤ nd'.currentTerm := by
  cases h with
  | frame hf _ => exact hf.currentTerm.ge
  | raise _ hlt _ _ => exact hlt.le
  | giveUp _ _ _ hterm _ _ => exact hterm.ge
  | grant _ _ hterm _ _ _ _ => exact hterm ▸ le_max_left _ _
  | call _ hterm _ _ _ _ => omega
  | count _ _ _ hterm _ _ _ _ => exact hterm.ge

omit [EmptyCollection V] in
/-- Within a term a vote is not cleared, except by a candidate that gives up. -/
theorem VoteStep.votedFor (h : VoteStep incoming nd nd')
    (hrival : ∀ q l k m, nd.loop = .candidate k m →
      incoming ≠ some (q, .heartbeat nd.currentTerm l))
    (hterm : nd'.currentTerm = nd.currentTerm) (hvoted : nd.votedFor ≠ none) :
    nd'.votedFor ≠ none := by
  cases h with
  | frame hf _ => exact fun hnone => hvoted (hf.votedFor hnone)
  | raise _ hlt _ _ => omega
  | giveUp _ hloop hheard _ _ _ => exact absurd hheard (hrival _ _ _ _ hloop)
  | grant _ _ _ _ hsome _ _ => simp [hsome]
  | call _ _ hsome _ _ _ => simp [hsome]
  | count _ _ _ _ hsame _ _ _ => rwa [hsame]

/-- What is known of a node that grants its vote in a step. -/
theorem Grants.voteGranted (h : Grants ⟨s, e, s'⟩ p c t) (hready : s.Ready) (htalked : Talked s)
    (hs : s.exec e = some s') : ∃ nd, s.iteration e = some (p, nd) ∧
      VoteGranted (s.incoming e) (s.nodes p) nd c t := by
  obtain ⟨nd, hiteration, packet, hmem, hgrants⟩ := h
  exact ⟨nd, hiteration,
    (iteration_voteStep hready hs hiteration).of_grants (htalked p).2 hmem hgrants⟩

/-- A node that grants its vote is then in the term it has voted in. -/
theorem Grants.currentTerm (h : Grants ⟨s, e, s'⟩ p c t) (hready : s.Ready) (htalked : Talked s)
    (hs : s.exec e = some s') : (s'.nodes p).currentTerm = t := by
  obtain ⟨nd, hiteration, hvote⟩ := h.voteGranted hready htalked hs
  obtain ⟨nd', hiteration', heq⟩ | ⟨hidle, -⟩ := Cluster.exec_node hs p
  · rw [hiteration, Option.some.injEq, Prod.mk.injEq] at hiteration'
    rw [heq, ← hiteration'.2]
    exact hvote.currentTerm
  · exact absurd hiteration (hidle nd)

/-- The condition, for the message an iteration reads. -/
theorem incoming_ne_of_hearsNoRival (hguard : hearsNoRival s e = true) (hs : s.exec e = some s')
    (hiteration : s.iteration e = some (p, nd)) (q l : Fin n) (k m : ℕ)
    (hloop : (s.nodes p).loop = .candidate k m) :
    s.incoming e ≠ some (q, .heartbeat (s.nodes p).currentTerm l) := by
  obtain ⟨source, timeout, rfl⟩ := Cluster.event_of_candidate hs hiteration hloop
  intro hheard
  have hreceived : s.received p source = some (q, .heartbeat (s.nodes p).currentTerm l) := hheard
  simp [hearsNoRival, hreceived] at hguard

/-- Terms do not decrease. -/
theorem currentTerm_le_of_exec (hready : s.Ready) (hs : s.exec e = some s') (p : Fin n) :
    (s.nodes p).currentTerm ≤ (s'.nodes p).currentTerm := by
  obtain ⟨nd, hiteration, heq⟩ | ⟨-, queue, role, heq, -⟩ := Cluster.exec_node hs p
  · rw [heq]
    exact (iteration_voteStep hready hs hiteration).currentTerm_le
  · rw [heq]

/-- Votes are recorded, if a candidate that hears of a leader has not voted in that term. -/
theorem VotesRecorded.exec (h : VotesRecorded history s) (hready : s.Ready) (htalked : Talked s)
    (hguard : hearsNoRival s e = true) (hs : s.exec e = some s') :
    VotesRecorded (⟨s, e, s'⟩ :: history) s' where
  reached x hx p c t hgrants := by
    rcases List.mem_cons.mp hx with rfl | hx
    · exact (hgrants.currentTerm hready htalked hs).ge
    · exact (h.reached x hx p c t hgrants).trans (currentTerm_le_of_exec hready hs p)
  recorded x hx p c hgrants := by
    obtain ⟨nd, hiteration, heq⟩ | ⟨hidle, queue, role, heq, -⟩ := Cluster.exec_node hs p
    · have hstep := iteration_voteStep hready hs hiteration
      rw [heq] at hgrants ⊢
      rcases List.mem_cons.mp hx with rfl | hx
      · -- the vote was sent in this step
        obtain ⟨nd', hiteration', hvote⟩ := hgrants.voteGranted hready htalked hs
        rw [hiteration, Option.some.injEq, Prod.mk.injEq] at hiteration'
        have hvoted := hvote.votedFor
        rw [← hiteration'.2] at hvoted
        simp [hvoted]
      · have hterm : nd.currentTerm = (s.nodes p).currentTerm :=
          (h.reached x hx p c _ hgrants).antisymm hstep.currentTerm_le
        -- an earlier vote for the same term is still recorded
        have hgrants' : Grants x p c nd.currentTerm := hgrants
        rw [hterm] at hgrants'
        exact hstep.votedFor (incoming_ne_of_hearsNoRival hguard hs hiteration) hterm
          (h.recorded x hx p c hgrants')
    · -- a node whose thread does not run neither votes nor forgets
      rw [heq] at hgrants ⊢
      rcases List.mem_cons.mp hx with rfl | hx
      · obtain ⟨nd, hiteration, -⟩ := hgrants
        exact absurd hiteration (hidle nd)
      · exact h.recorded x hx p c hgrants

/-- A node that grants its vote has granted none for that term before. -/
theorem VotesRecorded.not_grants (h : VotesRecorded history s) (hready : s.Ready)
    (htalked : Talked s) (hs : s.exec e = some s') (hgrants : Grants ⟨s, e, s'⟩ p c t)
    {x : Step n V} (hx : x ∈ history) (d : Fin n) : ¬ Grants x p d t := by
  intro hbefore
  obtain ⟨nd, -, hvote⟩ := hgrants.voteGranted hready htalked hs
  rcases hvote.free with hlt | ⟨hterm, hnone, -⟩
  · have hreached := h.reached x hx p d t hbefore
    omega
  · rw [← hterm] at hbefore
    exact h.recorded x hx p d hbefore hnone

theorem VoteUnique.exec (h : VoteUnique history) (hrecorded : VotesRecorded history s)
    (hready : s.Ready) (htalked : Talked s) (hs : s.exec e = some s') :
    VoteUnique (⟨s, e, s'⟩ :: history) := by
  intro x hx y hy p c d t hc hd
  rcases List.mem_cons.mp hx with rfl | hx <;> rcases List.mem_cons.mp hy with rfl | hy
  · -- one iteration votes for the node it records
    obtain ⟨nd, hiteration, hvote⟩ := hc.voteGranted hready htalked hs
    obtain ⟨nd', hiteration', hvote'⟩ := hd.voteGranted hready htalked hs
    rw [hiteration, Option.some.injEq, Prod.mk.injEq] at hiteration'
    have hsame := hvote'.votedFor
    rw [← hiteration'.2, hvote.votedFor, Option.some.injEq] at hsame
    exact hsame
  · exact absurd hd (hrecorded.not_grants hready htalked hs hc hy d)
  · exact absurd hc (hrecorded.not_grants hready htalked hs hd hx c)
  · exact h x hx y hy p c d t hc hd

end Steps

/-! ## The result -/

/-- In all runs in which no candidate is given a heartbeat of its own term, a node sends
granted votes to at most one candidate in every term. -/
theorem vote_unique {history : List (Step n V)} {s : Cluster n V}
    (h : (clusterSystem n V).Run (fun s e => hearsNoRival s e = true) history s) :
    VoteUnique history := by
  have hinv : (s.Ready ∧ Talked s) ∧ VotesRecorded history s ∧ VoteUnique history := by
    refine h.invariant (I := fun history s =>
      (s.Ready ∧ Talked s) ∧ VotesRecorded history s ∧ VoteUnique history) ?_ ?_
    · rintro _ rfl
      refine ⟨⟨Cluster.ready_init, fun _ => ⟨rfl, rfl⟩⟩, ⟨?_, ?_⟩, ?_⟩
      · simp
      · simp
      · simp [VoteUnique]
    · rintro history s e s' ⟨⟨hready, htalked⟩, hrecorded, hunique⟩ hguard hs
      exact ⟨⟨hready.exec hs, htalked.exec hready hs⟩,
        hrecorded.exec hready htalked hguard hs, hunique.exec hrecorded hready htalked hs⟩
  exact hinv.2.2

/-- Whether an iteration sends a granted vote of a term. -/
def votesFor (x : Step n V) (p c : Fin n) (t : ℕ) : Bool :=
  (x.source.iteration x.event).any fun (q, nd) =>
    q == p && (addressedTo c nd.talker).any (Packet.grantsIn t)

theorem grants_iff_votesFor {x : Step n V} {p c : Fin n} {t : ℕ} :
    Grants x p c t ↔ votesFor x p c t = true := by
  simp only [Grants, votesFor, Option.any_eq_true, Bool.and_eq_true, beq_iff_eq, List.any_eq_true]
  constructor
  · rintro ⟨nd, hiteration, packet, hmem, hgrants⟩
    exact ⟨(p, nd), hiteration, rfl, packet, hmem, hgrants⟩
  · rintro ⟨⟨q, nd⟩, hiteration, rfl, packet, hmem, hgrants⟩
    exact ⟨nd, hiteration, packet, hmem, hgrants⟩

/-- Node `1` votes for node `0` in term 2, and every step met the condition. -/
def votesOnce (history : List (Step 2 (List ℕ))) : Bool :=
  history.any fun x => votesFor x 1 0 2

theorem vote_unique_wonElection : ∃ history : List (Step 2 (List ℕ)),
    votesOnce history ∧ VoteUnique history := by
  have hreplay : (replay Cluster.exec hearsNoRival [] Cluster.init wonElection).any
      (fun r => votesOnce r.1) = true := by decide +kernel
  obtain ⟨history, s, hrun, htest⟩ := exists_run_of_replay (fun history _ => votesOnce history)
    hreplay
  exact ⟨history, htest, vote_unique hrun⟩

/-- Nodes `0`, `1` and `2` of five start an election each in term 2, and node `0` wins it with
the votes of nodes `3` and `4`. Node `1` hears of that, and then of the candidacy of node `2`. -/
def threeCandidates : List (Event 5 (List ℕ)) :=
  (List.finRange 5).map .run ++
    [.follower 0 none true, .run 0, .follower 1 none true, .run 1, .follower 2 none true, .run 2,
      .follower 3 (some 0) false, .follower 4 (some 0) false, .candidate 0 (some 0) false,
      .candidate 0 (some 0) false, .candidate 0 (some 3) false, .candidate 0 (some 4) false,
      .run 0, .candidate 1 (some 0) false, .candidate 1 (some 0) false, .run 1,
      .follower 1 (some 2) false]

/-- Node `1` votes for itself and for node `2` in term 2. -/
def votesTwice (history : List (Step 5 (List ℕ))) : Bool :=
  history.any (fun x => votesFor x 1 1 2) && history.any fun x => votesFor x 1 2 2

/-- Without the condition a node may vote twice in a term. -/
theorem voted_twice :
    ¬ ∀ (n : ℕ) (history : List (Step n (List ℕ))) (s : Cluster n (List ℕ)),
      (clusterSystem n (List ℕ)).Run unguarded history s → VoteUnique history := by
  intro hunique
  have hreplay : (replay Cluster.exec (fun _ _ => true) [] Cluster.init threeCandidates).any
      (fun r => votesTwice r.1) = true := by decide +kernel
  obtain ⟨history, s, hrun, htest⟩ := exists_run_of_replay (fun history _ => votesTwice history)
    hreplay
  simp only [votesTwice, Bool.and_eq_true, List.any_eq_true, ← grants_iff_votesFor] at htest
  obtain ⟨⟨x, hx, hself⟩, ⟨y, hy, hother⟩⟩ := htest
  have hsame := hunique 5 history s (hrun.mono fun _ _ _ => trivial) x hx y hy 1 1 2 2 hself hother
  exact absurd hsame (by decide)

end DreamboatRpc.Raft
