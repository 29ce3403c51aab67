import DreamboatRpc.Raft.Appends
import DreamboatRpc.Raft.LogSteps

/-!
# The order of terms in a log

A client request is stamped with the term of the node a client calls, at the time of the
call. A leader appends it as it is, in whatever term it leads when the request reaches it.
A leader may also lead a term before that of the last entry of its log: a follower that
accepts an entry does not adopt its term, and so can become the candidate of an earlier one.

## Main definitions

* `Ordered` — the terms of the entries do not decrease along a log
* `AppendsOwnTerm` — what leaders append in a step is of the term they lead
* `appendsInOrder` — the condition on what a leader appends, and on the end of its log

## Main results

* `ordered_exec` — logs and offers stay in order in steps that meet the condition
* `log_terms_ordered` — they are in order in a run, and all leaders append entries of their
  own term, iff all steps meet the condition
-/

namespace DreamboatRpc.Raft

open CS

variable {n : ℕ} {V : Type*}

/-- The terms of the entries do not decrease. -/
def Ordered (log : List (Entry V)) : Prop := log.Pairwise fun a b => a.term ≤ b.term

/-- All logs are in order. -/
def LogsOrdered (s : Cluster n V) : Prop := ∀ p, Ordered (s.nodes p).log

/-- What a leader adds to its log in a step is of the term it leads. -/
def AppendsOwnTerm (x : Step n V) : Prop :=
  ∀ p, (x.source.nodes p).currentRole = .leader →
    ∃ new, (x.target.nodes p).log = (x.source.nodes p).log ++ new ∧
      ∀ entry ∈ new, entry.term = (x.source.nodes p).currentTerm

/-- The entry a message offers is not of an earlier term than its predecessor. -/
def Message.OffersInOrder : Message n V → Prop
  | .appendEntries _ _ _ prevLogTerm entries _ => prevLogTerm ≤ entries.term
  | _ => True

/-- All entries under way are offered in order. -/
def OffersOrdered (s : Cluster n V) : Prop :=
  ∀ p q, ∀ packet ∈ s.inflight p q, packet.message.OffersInOrder

/-- All that a leader appends, its first entry and the client requests, is of its own term,
and its log does not end with an entry of a later one. -/
def appendsInOrder [EmptyCollection V] (s : Cluster n V) (e : Event n V) : Bool :=
  match e with
  | .run p | .leader p _ _ _ =>
    (s.nodes p).currentRole != .leader || (s.appends p e).all fun entry =>
      entry.term == (s.nodes p).currentTerm &&
        decide ((s.nodes p).lastLogTerm ≤ (s.nodes p).currentTerm)
  | _ => true

section Ordered

variable {log new : List (Entry V)}

/-- The last entry of a log in order is of the latest term. -/
theorem Ordered.term_le_getLast (h : Ordered log) {last e : Entry V}
    (hlast : log.getLast? = some last) (he : e ∈ log) : e.term ≤ last.term := by
  obtain ⟨front, rfl⟩ := List.getLast?_eq_some_iff.mp hlast
  rcases List.mem_append.mp he with he | he
  · exact (List.pairwise_append.mp h).2.2 e he last (List.mem_singleton_self last)
  · rw [List.mem_singleton.mp he]

/-- Entries of one term, not before that of the last entry, can be appended. -/
theorem Ordered.append (h : Ordered log) {last : Entry V} (hlast : log.getLast? = some last)
    {t : ℕ} (hnew : ∀ e ∈ new, e.term = t ∧ last.term ≤ t) : Ordered (log ++ new) := by
  refine List.pairwise_append.mpr ⟨h, ?_, fun a ha b hb => ?_⟩
  · refine List.pairwise_of_forall_mem_list fun a ha b hb => ?_
    rw [(hnew a ha).1, (hnew b hb).1]
  · obtain ⟨hterm, hle⟩ := hnew b hb
    rw [hterm]
    exact (h.term_le_getLast hlast ha).trans hle

/-- What is offered from a log in order is offered in order. -/
theorem Message.OffersFrom.inOrder {t : ℕ} {message : Message n V}
    (h : message.OffersFrom log t) (hlog : Ordered log) : message.OffersInOrder := by
  cases message with
  | appendEntries term l k u e c =>
    obtain ⟨-, hterm, he⟩ := h
    obtain ⟨prev, hprev, rfl⟩ := Option.map_eq_some_iff.mp hterm
    obtain ⟨hk, rfl⟩ := List.getElem?_eq_some_iff.mp hprev
    obtain ⟨hk', rfl⟩ := List.getElem?_eq_some_iff.mp he
    exact List.pairwise_iff_getElem.mp hlog k (k + 1) hk hk' (Nat.lt_succ_self k)
  | _ => trivial

/-- An entry that is offered in order can be accepted. -/
theorem Ordered.accept (h : Ordered log) {k u : ℕ} {e : Entry V}
    (hterm : (log[k]?).map Entry.term = some u) (hu : u ≤ e.term) :
    Ordered (log.take (k + 1) ++ [e]) := by
  obtain ⟨prev, hprev, rfl⟩ := Option.map_eq_some_iff.mp hterm
  have htake : log.take (k + 1) = log.take k ++ [prev] := by
    rw [List.take_add_one, hprev, Option.toList_some]
  have hlast : (log.take (k + 1)).getLast? = some prev := by
    rw [htake, List.getLast?_append_cons, List.getLast?_singleton]
  have hcut : Ordered (log.take (k + 1)) := h.sublist (List.take_sublist _ _)
  refine hcut.append (t := e.term) hlast fun a ha => ?_
  rw [List.mem_singleton.mp ha]
  exact ⟨rfl, hu⟩

theorem lastLogTerm_eq {nd : Node n V} (hlog : nd.log ≠ []) :
    ∃ last, nd.log.getLast? = some last ∧ nd.lastLogTerm = last.term := by
  refine ⟨_, List.getLast?_eq_getLast_of_ne_nil hlog, ?_⟩
  simp [Node.lastLogTerm, List.getLast?_eq_getLast_of_ne_nil hlog]

end Ordered

/-! ## One step -/

section Steps

variable [EmptyCollection V] {s s' : Cluster n V} {e : Event n V} {p : Fin n}

/-- A leader is not the one that reads a message as a follower. -/
theorem appends_follower_of_leader {source : Option (Fin n)} {timeout : Bool} {q : Fin n}
    (hs : s.exec (.follower p source timeout) = some s')
    (hlead : (s.nodes q).currentRole = .leader) :
    s.appends q (.follower p source timeout) = [] := by
  simp only [Cluster.exec] at hs
  split at hs
  · rename_i hcan
    simp only [Cluster.appends]
    split
    · rename_i hpq
      subst hpq
      obtain rfl : source = none := hcan.2.resolve_right (by simp [hlead])
      rfl
    · rfl
  · simp at hs

/-- The condition, for the entries a leader appends. -/
theorem appendsInOrder_iff (hs : s.exec e = some s') :
    appendsInOrder s e = true ↔ ∀ p, (s.nodes p).currentRole = .leader →
      ∀ entry ∈ s.appends p e, entry.term = (s.nodes p).currentTerm ∧
        (s.nodes p).lastLogTerm ≤ (s.nodes p).currentTerm := by
  -- the node whose thread runs is the only one to append
  have hthread : ∀ p, (∀ q, q ≠ p → s.appends q e = []) →
      (((s.nodes p).currentRole != .leader || (s.appends p e).all fun entry =>
        entry.term == (s.nodes p).currentTerm &&
          decide ((s.nodes p).lastLogTerm ≤ (s.nodes p).currentTerm)) = true ↔
      ∀ q, (s.nodes q).currentRole = .leader → ∀ entry ∈ s.appends q e,
        entry.term = (s.nodes q).currentTerm ∧
          (s.nodes q).lastLogTerm ≤ (s.nodes q).currentTerm) := by
    intro p hother
    simp only [Bool.or_eq_true, bne_iff_ne, ne_eq, List.all_eq_true, Bool.and_eq_true, beq_iff_eq,
      decide_eq_true_eq]
    constructor
    · intro h q hlead entry hentry
      by_cases hq : q = p
      · subst hq
        exact h.resolve_left (not_not.mpr hlead) entry hentry
      · simp [hother q hq] at hentry
    · intro h
      by_cases hlead : (s.nodes p).currentRole = .leader
      · exact .inr (h p hlead)
      · exact .inl hlead
  have hnone : (∀ q, (s.nodes q).currentRole = .leader → s.appends q e = []) →
      (True ↔ ∀ q, (s.nodes q).currentRole = .leader → ∀ entry ∈ s.appends q e,
        entry.term = (s.nodes q).currentTerm ∧
          (s.nodes q).lastLogTerm ≤ (s.nodes q).currentTerm) := by
    intro hempty
    simp only [true_iff]
    intro q hlead entry hentry
    simp [hempty q hlead] at hentry
  cases e with
  | run p =>
    refine hthread p fun q hq => ?_
    simp [Cluster.appends, Ne.symm hq]
  | leader p heartbeat expired source =>
    refine hthread p fun q hq => ?_
    simp [Cluster.appends, Ne.symm hq]
  | follower p source timeout =>
    simp only [appendsInOrder]
    exact hnone fun q hlead => appends_follower_of_leader hs hlead
  | _ =>
    simp only [appendsInOrder]
    exact hnone fun q _ => rfl

/-- What a node that does not lead does to its log. -/
theorem logStep_of_not_leader {nd : Node n V} (hready : s.Ready) (hs : s.exec e = some s')
    (hiteration : s.iteration e = some (p, nd)) (hlead : (s.nodes p).currentRole ≠ .leader) :
    LogStep (s.incoming e) (s.nodes p) nd := by
  refine iteration_logStep hready ?_ hs hiteration
  cases e with
  | leader p' heartbeat expired source =>
    simp only [Cluster.iteration, Option.some.injEq, Prod.mk.injEq] at hiteration
    obtain ⟨rfl, -⟩ := hiteration
    simp [appendsOwnTerm, hlead]
  | _ => rfl

/-- The log of a node after a step that meets the condition. -/
theorem ordered_node (h : LogsOrdered s) (hoffers : OffersOrdered s) (hready : s.Ready)
    (hsend : s.Sendable) (hguard : appendsInOrder s e = true) (hs : s.exec e = some s')
    (q : Fin n) : Ordered (s'.nodes q).log := by
  by_cases hlead : (s.nodes q).currentRole = .leader
  · -- a leader appends entries of its term
    obtain ⟨last, hlast, hterm⟩ := lastLogTerm_eq (hready q).log
    have hnew := (appendsInOrder_iff hs).mp hguard q hlead
    rw [((Cluster.exec_appends hready hsend hs q).2 hlead).log]
    refine (h q).append (t := (s.nodes q).currentTerm) hlast fun entry hentry => ?_
    rw [← hterm]
    exact hnew entry hentry
  obtain ⟨nd, hiteration, heq⟩ | ⟨-, queue, role, heq, -⟩ := Cluster.exec_node hs q
  · rw [heq]
    cases logStep_of_not_leader hready hs hiteration hlead with
    | keep hlog _ =>
      rw [hlog]
      exact h q
    | @accept r l t k u c a hheard hprev hlog _ _ =>
      -- what was under way is offered in order
      obtain ⟨taken, htaken, -⟩ := Cluster.exec_taken hs hiteration
      obtain ⟨packet, hpacket, hinflight⟩ := htaken.head _ _ hheard
      have horder := hoffers r q packet (by rw [hinflight]; exact List.mem_cons_self ..)
      rw [hpacket] at horder
      rw [hlog]
      exact (h q).accept hprev horder
    | append hrole _ _ _ => exact absurd hrole hlead
  · rw [heq]
    exact h q

/-- What is under way after a step that leaves the logs in order is offered in order. -/
theorem offersOrdered_exec (h : LogsOrdered s') (hoffers : OffersOrdered s) (hready : s.Ready)
    (hs : s.exec e = some s') : OffersOrdered s' := by
  obtain ⟨p, nd, taken, hiteration, htaken, rfl⟩ |
    ⟨-, ⟨p, nd, ⟨queue, role, rfl, -⟩, rfl⟩ | hfewer⟩ := Cluster.exec_iteration hs
  · have hlog : Ordered nd.log := by
      have hp := h p
      rwa [Cluster.publish_nodes_self, Cluster.setNode_nodes_self] at hp
    obtain ⟨out, htalker, hout⟩ := iteration_offers hready hs hiteration
    intro a b packet hpacket
    rw [Cluster.inflight_publish] at hpacket
    rw [← congrFun htaken.nodes p] at htalker
    rcases Cluster.mem_inflight_setNode out htalker hpacket with hmem | ⟨rfl, receiver, -, hmem⟩
    · exact hoffers a b packet ((htaken.inflight a b).subset hmem)
    · exact (hout _ hmem).inOrder hlog
  · intro a b packet hpacket
    have htalker : ({ s.nodes p with
        clientQueue := queue, currentRole := role } : Node n V).talker =
          (s.nodes p).talker ++ [] := (List.append_nil _).symm
    rcases Cluster.mem_inflight_setNode [] htalker hpacket with hmem | ⟨-, _, -, hmem⟩
    · exact hoffers a b packet hmem
    · simp at hmem
  · exact fun a b packet hpacket => hoffers a b packet ((hfewer.inflight a b).subset hpacket)

/-- What a step that meets the condition keeps. -/
theorem ordered_exec (h : LogsOrdered s) (hoffers : OffersOrdered s) (hready : s.Ready)
    (hsend : s.Sendable) (hguard : appendsInOrder s e = true) (hs : s.exec e = some s') :
    LogsOrdered s' ∧ OffersOrdered s' := by
  have hlogs : LogsOrdered s' := ordered_node h hoffers hready hsend hguard hs
  exact ⟨hlogs, offersOrdered_exec hlogs hoffers hready hs⟩

theorem ordered_init : LogsOrdered (Cluster.init : Cluster n V) ∧
    OffersOrdered (Cluster.init : Cluster n V) :=
  ⟨fun _ => List.pairwise_singleton _ _, fun _ _ _ hpacket => absurd hpacket List.not_mem_nil⟩

/-- What a leader appends in a step that meets the condition is of its term. -/
theorem appendsOwnTerm_of_inOrder (hready : s.Ready) (hsend : s.Sendable)
    (hguard : appendsInOrder s e = true) (hs : s.exec e = some s') :
    AppendsOwnTerm ⟨s, e, s'⟩ := fun p hlead =>
  ⟨_, ((Cluster.exec_appends hready hsend hs p).2 hlead).log,
    fun entry hentry => ((appendsInOrder_iff hs).mp hguard p hlead entry hentry).1⟩

/-- Where logs are in order after a step, and leaders have appended entries of their term, the
step has met the condition. -/
theorem inOrder_of_ordered (hready : s.Ready) (hsend : s.Sendable) (hs : s.exec e = some s')
    (h : LogsOrdered s') (hown : AppendsOwnTerm ⟨s, e, s'⟩) : appendsInOrder s e = true := by
  refine (appendsInOrder_iff hs).mpr fun p hlead entry hentry => ?_
  have hlog := ((Cluster.exec_appends hready hsend hs p).2 hlead).log
  obtain ⟨new, hnew, hterm⟩ := hown p hlead
  obtain rfl : s.appends p e = new := List.append_cancel_left (hlog.symm.trans hnew)
  -- the last entry of the log comes before what is appended
  obtain ⟨last, hlast, hlastTerm⟩ := lastLogTerm_eq (hready p).log
  have horder : Ordered ((s.nodes p).log ++ s.appends p e) := hlog ▸ h p
  have hle : last.term ≤ entry.term :=
    (List.pairwise_append.mp horder).2.2 last (List.mem_of_getLast? hlast) entry hentry
  have hentryTerm : entry.term = (s.nodes p).currentTerm := hterm entry hentry
  exact ⟨hentryTerm, by rw [hlastTerm, ← hentryTerm]; exact hle⟩

end Steps

/-! ## The result -/

section Result

variable [EmptyCollection V] {s : Cluster n V} {history : List (Step n V)}

/-- In runs whose steps meet the condition logs and offers are in order. -/
theorem ordered_of_reachable
    (h : (clusterSystem n V).Reachable (fun s e => appendsInOrder s e = true) s) :
    LogsOrdered s ∧ OffersOrdered s := by
  have hinv : (s.Ready ∧ s.Sendable) ∧ LogsOrdered s ∧ OffersOrdered s := by
    refine TransitionSystem.Reachable.invariant (I := fun s =>
      (s.Ready ∧ s.Sendable) ∧ LogsOrdered s ∧ OffersOrdered s) ?_ ?_ h
    · rintro _ rfl
      exact ⟨⟨Cluster.ready_init, fun p hlead => by simp [Cluster.init, Node.init] at hlead⟩,
        ordered_init⟩
    · rintro s e t ⟨⟨hready, hsend⟩, hlogs, hoffers⟩ hguard hs
      exact ⟨⟨hready.exec hs, hsend.exec hready hs⟩,
        ordered_exec hlogs hoffers hready hsend hguard hs⟩
  exact hinv.2

/-- In every state of a run the terms along all logs are in order, and every entry a leader
appends in it is of the term it leads, iff every step meets the condition. -/
theorem log_terms_ordered (hrun : (clusterSystem n V).Run unguarded history s) :
    (∀ x ∈ history, LogsOrdered x.target ∧ AppendsOwnTerm x) ↔
      ∀ x ∈ history, appendsInOrder x.source x.event = true := by
  constructor
  · intro h x hx
    obtain ⟨hreach, -, hs⟩ := hrun.of_mem hx
    obtain ⟨horder, hown⟩ := h x hx
    exact inOrder_of_ordered (Cluster.Ready.of_reachable hreach)
      (Cluster.Sendable.of_reachable hreach) hs horder hown
  · intro h x hx
    have hguarded : (clusterSystem n V).Run (fun s e => appendsInOrder s e = true) history s :=
      hrun.guard h
    obtain ⟨hreach, hguard, hs⟩ := hguarded.of_mem hx
    obtain ⟨hlogs, hoffers⟩ := ordered_of_reachable hreach
    have hready := Cluster.Ready.of_reachable hreach
    have hsend := Cluster.Sendable.of_reachable hreach
    exact ⟨ordered_node hlogs hoffers hready hsend hguard hs,
      appendsOwnTerm_of_inOrder hready hsend hguard hs⟩

end Result

/-- Node `0` has appended the request of a client, and every step met the condition. -/
def appendsRequest (history : List (Step 2 (List ℕ))) (s : Cluster 2 (List ℕ)) : Bool :=
  ((s.nodes 0).log.map Entry.id == [-1, -1, 0]) &&
    history.all fun x => appendsInOrder x.source x.event

theorem log_terms_ordered_wonElection :
    ∃ (history : List (Step 2 (List ℕ))) (s : Cluster 2 (List ℕ)),
      appendsRequest history s ∧ ∀ x ∈ history, LogsOrdered x.target ∧ AppendsOwnTerm x := by
  have hreplay : (replay Cluster.exec (fun _ _ => true) []
      (Cluster.init : Cluster 2 (List ℕ)) (wonElection ++
      [.run 0, .clientRequest 0 [7] 0, .leader 0 false (fun _ => false) none])).any
      (fun r => appendsRequest r.1 r.2) = true := by decide
  obtain ⟨history, s, hrun, htest⟩ := exists_run_of_replay appendsRequest hreplay
  refine ⟨history, s, htest, ?_⟩
  rw [log_terms_ordered (hrun.mono fun _ _ _ => trivial)]
  simp only [appendsRequest, Bool.and_eq_true, List.all_eq_true] at htest
  exact htest.2

/-- The log of node `0` ends with an entry of term 1 behind one of term 2. -/
def stepsBack (s : Cluster 2 (List ℕ)) : Bool := (s.nodes 0).log.map Entry.term == [1, 2, 1]

/-- Without the condition a leader appends a request that was stamped before it was elected. -/
theorem log_terms_step_back :
    ¬ ∀ (n : ℕ) (s : Cluster n (List ℕ)),
      (clusterSystem n (List ℕ)).Reachable unguarded s → LogsOrdered s := by
  intro hordered
  have hreplay : (replay Cluster.exec (fun _ _ => true) [] Cluster.init
      ([.clientRequest 0 [7] 0] ++ wonElection ++
        [.run 0, .leader 0 false (fun _ => false) none])).any
      (fun r => stepsBack r.2) = true := by decide
  obtain ⟨history, s, hrun, htest⟩ := exists_run_of_replay (fun _ s => stepsBack s) hreplay
  have horder := hordered 2 s ⟨history, hrun.mono fun _ _ _ => trivial⟩ 0
  simp only [stepsBack, beq_iff_eq] at htest
  have hterms : ((s.nodes 0).log.map Entry.term).Pairwise (· ≤ ·) := List.pairwise_map.mpr horder
  rw [htest] at hterms
  exact absurd hterms (by decide)

end DreamboatRpc.Raft
