import Mathlib.Algebra.Order.BigOperators.Group.Finset
import DreamboatRpc.Raft.Ballots
import DreamboatRpc.Raft.Quiet
import DreamboatRpc.Raft.ThreadsAlive

/-!
# Every node can lead

A candidate counts the granted votes it reads, whoever gave them and for whichever term, and
its own vote comes to it as a message like any other. A node that gives up an election before
it has read that vote finds it in the next one. So a node that hears nobody but itself
collects a majority by calling elections over and over, and then it takes office.

## Main definitions

* `Event.SecludedAt` — the thread of a node goes on, and hears nobody but that node
* `Message.Outdated` — the messages that make no candidate of a term step down
* `Message.votes` — what a message counts for in an election

## Main results

* `counts_votes` — a candidate that finds a majority in its own mail wins
* `calls_elections` — every election leaves one more vote there
* `everyone_leads` — from every reachable state the nodes, each by itself, all come to be
  leaders at once
-/

namespace DreamboatRpc.Raft

open CS FifoNetwork TransitionSystem

variable {n : ℕ} {V : Type*}

/-- The thread of node `p` goes on, and takes no message but one it has sent itself; or it
goes on after a pause. -/
def Event.SecludedAt (p : Fin n) : Event n V → Prop
  | .run q | .unPause q => q = p
  | .follower q source _ | .candidate q source _ | .leader q _ _ source =>
    q = p ∧ (source = none ∨ source = some p)
  | .clientRequest _ _ _ | .pause _ | .lose _ _ _ => False

/-- The messages on which a candidate of the term `term` does not step down. -/
def Message.Outdated (term : ℕ) : Message n V → Prop
  | .requestVotes t _ _ => t ≤ term
  | .heartbeat t _ => t < term
  | .vote _ _ | .appendEntries _ _ _ _ _ _ | .committal _ _ _ | .acknowledge _ _
  | .clientRequest _ _ => True

/-- What a message counts for in an election. -/
def Message.votes : Message n V → ℕ
  | .vote _ voteGranted => if voteGranted then 1 else 0
  | .requestVotes _ _ _ | .heartbeat _ _ | .appendEntries _ _ _ _ _ _ | .committal _ _ _
  | .acknowledge _ _ | .clientRequest _ _ => 0

/-- What a message of an earlier term cannot do. -/
theorem Message.outdated_of_lt {term : ℕ} {message : Message n V} (h : message.term < term) :
    message.Outdated term := by
  cases message with
  | requestVotes t _ _ => exact Nat.le_of_lt h
  | heartbeat t _ => exact h
  | _ => trivial

/-! ## One iteration of a candidate -/

namespace Node

variable {nd : Node n V} {k m : ℕ}

/-- A node has won its election, or it goes on with it and has `k` votes. -/
def Counts (nd : Node n V) (k : ℕ) : Prop :=
  nd.currentRole = .leader ∧ nd.loop = .run ∨
  nd.currentRole = .candidate ∧ k ≤ n / 2 ∧ ∃ m, nd.loop = .candidate k m

/-- A vote is counted; it moves neither the term nor the talker. -/
theorem candidateVote_counts (hrole : nd.currentRole = .candidate) (granted : Bool) :
    (nd.candidateVote k m granted).Counts (k + if granted then 1 else 0) ∧
    (nd.candidateVote k m granted).currentTerm = nd.currentTerm ∧
    (nd.candidateVote k m granted).talker = nd.talker := by
  have hcount : (if granted then k + 1 else k) = k + if granted then 1 else 0 := by
    cases granted <;> rfl
  simp only [candidateVote, hcount]
  by_cases hwon : (k + if granted then 1 else 0) > n / 2 ∨ n = 1
  · rw [if_pos hwon]
    exact ⟨.inl ⟨rfl, rfl⟩, rfl, rfl⟩
  · rw [if_neg hwon]
    exact ⟨.inr ⟨hrole, Nat.le_of_not_lt (not_or.mp hwon).1, _, rfl⟩, rfl, rfl⟩

/-- A candidate that reads an outdated message sends nothing and stays in its term; all it
does is to count. -/
theorem candidate_outdated (hrole : nd.currentRole = .candidate)
    (hloop : nd.loop = .candidate k m) (hfew : k ≤ n / 2) (sender : Fin n)
    {message : Message n V} (hout : message.Outdated nd.currentTerm) :
    (nd.candidate k m (some (sender, message)) false).Counts (k + message.votes) ∧
    (nd.candidate k m (some (sender, message)) false).currentTerm = nd.currentTerm ∧
    (nd.candidate k m (some (sender, message)) false).talker = nd.talker := by
  have hgoes : Counts { nd with incomingMessage := some message } k :=
    .inr ⟨hrole, hfew, m, hloop⟩
  simp only [candidate, if_pos hrole, receive, Bool.false_eq_true, false_and, if_false]
  cases message with
  | vote t granted =>
    have hheard : Node.currentRole { nd with incomingMessage := some (.vote t granted) } =
        .candidate := hrole
    exact candidateVote_counts hheard granted
  | requestVotes t i u =>
    have hlate : ¬ t > nd.currentTerm := Nat.not_lt.mpr hout
    simp only [candidateMessage, if_neg hlate]
    exact ⟨hgoes, trivial, trivial⟩
  | heartbeat t l =>
    have hlate : ¬ t ≥ nd.currentTerm := Nat.not_le.mpr hout
    simp only [candidateMessage, if_neg hlate]
    exact ⟨hgoes, trivial, trivial⟩
  | _ => exact ⟨hgoes, rfl, rfl⟩

/-- A follower whose timeout has passed leaves its loop, and so does one that is none. -/
theorem follower_leaves (nd : Node n V) : nd.follower none true =
    { nd with
      currentRole := if nd.currentRole = .follower then .candidate else nd.currentRole
      loop := .run } := by
  by_cases hrole : nd.currentRole = .follower <;> simp [follower, receive, hrole]

/-- A candidate whose timeout has passed leaves its loop, and stays a candidate. -/
theorem candidate_leaves (hloop : nd.loop = .candidate k m) :
    nd.candidate k m none true = { nd with currentRole := nd.currentRole, loop := .run } := by
  by_cases hrole : nd.currentRole = .candidate <;> simp [candidate, receive, hrole, hloop]

/-- A leader that has been paused leaves its loop. -/
theorem leader_leaves (hrole : nd.currentRole ≠ .leader) :
    nd.leader false (fun _ => false) none =
      { nd with currentRole := nd.currentRole, loop := .run } := by
  simp [leader, hrole]

end Node

/-! ## A node by itself -/

namespace Cluster

variable {s s' : Cluster n V} {p : Fin n}

/-- The state `s'` comes of `s` by what the thread of `p` does by itself. -/
def Secluded [EmptyCollection V] (p : Fin n) (s s' : Cluster n V) : Prop :=
  (clusterSystem n V).LeadsTo (fun _ e => e.SecludedAt p) s s'

/-- The granted votes node `p` has sent itself and not read. -/
def ownVotes (s : Cluster n V) (p : Fin n) : ℕ :=
  ((s.net p p).map fun packet => packet.message.votes).sum

/-- No message node `p` has sent itself makes it step down as a candidate. -/
def OwnOutdated (s : Cluster n V) (p : Fin n) : Prop :=
  ∀ packet ∈ s.net p p, packet.message.Outdated (s.nodes p).currentTerm

/-- A node between two iterations has an empty talker. -/
theorem iterate_nodes (s : Cluster n V) (p : Fin n) (nd : Node n V) :
    ((s.setNode p nd).publish p).nodes p = { nd with talker := [], incomingMessage := none } := by
  rw [publish_nodes_self, setNode_nodes_self]

theorem iterate_net (s : Cluster n V) (p : Fin n) (nd : Node n V) :
    ((s.setNode p nd).publish p).net p p = s.net p p ++ addressedTo p nd.talker := by
  simp [publish, setNode]

variable [EmptyCollection V]

/-- The induction is on what the node has sent itself: a candidate that is short of a
majority, and finds it there, wins in its present term. -/
theorem counts_votes {queue : List (Packet n V)} {k m : ℕ}
    (hrole : (s.nodes p).currentRole = .candidate) (hloop : (s.nodes p).loop = .candidate k m)
    (htalker : (s.nodes p).talker = []) (hqueue : s.net p p = queue) (hout : s.OwnOutdated p)
    (hfew : k ≤ n / 2) (hmany : n / 2 < k + s.ownVotes p) :
    ∃ s', s.Secluded p s' ∧ (s'.nodes p).loop = .run ∧ (s'.nodes p).currentRole = .leader ∧
      (s'.nodes p).currentTerm = (s.nodes p).currentTerm := by
  induction queue generalizing s k m with
  | nil =>
    rw [ownVotes, hqueue] at hmany
    exact absurd hmany (Nat.not_lt.mpr hfew)
  | cons packet rest ih =>
    have hhead : packet.message.Outdated (s.nodes p).currentTerm :=
      hout packet (hqueue ▸ List.mem_cons_self ..)
    obtain ⟨hcounts, hterm, hsent⟩ := Node.candidate_outdated hrole hloop hfew p hhead
    generalize hnd : (s.nodes p).candidate k m (some (p, packet.message)) false = nd at *
    let t := ((({ s with net := s.net.setChannel p p rest } : Cluster n V).setNode p nd).publish p)
    have hstep : s.exec (.candidate p (some p) false) = some t := by
      simp [exec, hloop, hrole, thread, take, hqueue, hnd, t]
    have hsecluded : s.Secluded p t :=
      .single (e := .candidate p (some p) false) ⟨rfl, .inr rfl⟩ hstep
    have hnode : t.nodes p = { nd with talker := [], incomingMessage := none } :=
      iterate_nodes ..
    have hnet : t.net p p = rest := by
      rw [iterate_net, hsent, htalker]
      simp
    rcases hcounts with ⟨hwon, hrun⟩ | ⟨hrole', hfew', m', hloop'⟩
    · exact ⟨t, hsecluded, by rw [hnode]; exact hrun, by rw [hnode]; exact hwon,
        by rw [hnode]; exact hterm⟩
    · have hout' : t.OwnOutdated p := by
        intro packet' hmem
        rw [hnode]
        rw [hnet] at hmem
        show packet'.message.Outdated nd.currentTerm
        rw [hterm]
        exact hout packet' (hqueue ▸ List.mem_cons_of_mem _ hmem)
      have hmany' : n / 2 < k + packet.message.votes + t.ownVotes p := by
        rw [ownVotes, hnet]
        rw [ownVotes, hqueue, List.map_cons, List.sum_cons] at hmany
        omega
      obtain ⟨u, hleads, hrun, hwon, hterm'⟩ := ih (by rw [hnode]; exact hrole')
        (by rw [hnode]; exact hloop') (by rw [hnode]) hnet hout' hfew' hmany'
      refine ⟨u, hsecluded.trans hleads, hrun, hwon, ?_⟩
      rw [hterm', hnode]
      exact hterm

/-! ## Elections -/

/-- What the cluster has between two iterations, of which an election makes use. -/
structure Ordered (s : Cluster n V) : Prop where
  talked : Talked s
  bounded : s.TermBounded
  alive : s.Alive

theorem ordered_of_reachable (h : (clusterSystem n V).Reachable unguarded s) : s.Ordered := by
  obtain ⟨history, hrun⟩ := h
  have hunreliable := unreliable_run hrun
  exact ⟨Talked.of_reachable ⟨history, hrun⟩, (unreliable_reachable ⟨_, hunreliable⟩).2,
    alive_of_reachable ⟨_, hunreliable⟩⟩

theorem Ordered.secluded (h : s.Ordered) (hs : s.Secluded p s') : s'.Ordered := by
  refine TransitionSystem.LeadsTo.invariant (I := Ordered) ?_ hs h
  intro s e t hbefore _ hstep
  exact ⟨hbefore.talked.exec hbefore.alive.ready hstep,
    hbefore.bounded.exec hbefore.alive.ready hstep, hbefore.alive.exec hstep⟩

/-- The thread of `p` in the loop of `run`. -/
theorem secluded_run (hloop : (s.nodes p).loop = .run) :
    s.Secluded p ((s.setNode p (s.nodes p).run).publish p) := by
  have hstep : s.exec (.run p) = some ((s.setNode p (s.nodes p).run).publish p) := by
    simp [exec, hloop, thread, take]
  exact .single (e := .run p) rfl hstep

/-- `_candidate` before its loop: nothing that the node has sent itself makes it step down,
and one more vote is there. -/
theorem calls_election (h : s.Ordered) (hloop : (s.nodes p).loop = .run)
    (hrole : (s.nodes p).currentRole = .candidate) :
    ∃ s', s.Secluded p s' ∧ (s'.nodes p).loop = .candidate 0 0 ∧
      (s'.nodes p).currentRole = .candidate ∧
      (s'.nodes p).currentTerm = (s.nodes p).currentTerm + 1 ∧
      s'.ownVotes p = s.ownVotes p + 1 ∧ s'.OwnOutdated p := by
  have hrun : (s.nodes p).run = (s.nodes p).enterCandidate := by simp only [Node.run, hrole]
  have hsecluded := secluded_run hloop
  rw [hrun] at hsecluded
  have hnode := iterate_nodes s p (s.nodes p).enterCandidate
  have hnet := iterate_net s p (s.nodes p).enterCandidate
  obtain ⟨hid, htalker⟩ := h.talked p
  rw [enterCandidate_talker, hid, htalker] at hnet
  refine ⟨_, hsecluded, by rw [hnode]; rfl, by rw [hnode]; exact hrole, by rw [hnode]; rfl, ?_, ?_⟩
  · simp [ownVotes, hnet, addressedTo, Message.votes]
  · intro packet hmem
    rw [hnode]
    rw [hnet] at hmem
    rcases List.mem_append.mp hmem with hold | hnew
    · -- no message is ahead of its sender, and the sender has gone on to a later term
      have hterm := h.bounded p p packet (mem_inflight_of_net hold)
      exact Message.outdated_of_lt (Nat.lt_succ_of_le hterm)
    · obtain rfl | rfl : packet = _ ∨ packet = _ := by simpa [addressedTo] using hnew
      · exact Nat.le_refl _
      · trivial

/-- An iteration that only leaves a loop for the loop of `run`. -/
theorem leaves_loop (h : s.Ordered) {e : Event n V} {role : Role} {nd : Node n V}
    (he : e.SecludedAt p) (hs : s.exec e = some ((s.setNode p nd).publish p))
    (hnd : nd = { s.nodes p with currentRole := role, loop := .run }) :
    ∃ s', s.Secluded p s' ∧ (s'.nodes p).loop = .run ∧ (s'.nodes p).currentRole = role ∧
      (s'.nodes p).currentTerm = (s.nodes p).currentTerm ∧ s'.ownVotes p = s.ownVotes p := by
  have hnode := iterate_nodes s p nd
  have hnet := iterate_net s p nd
  have htalker : nd.talker = [] := by rw [hnd]; exact (h.talked p).2
  refine ⟨_, .single he hs, ?_, ?_, ?_, ?_⟩
  · rw [hnode, hnd]
  · rw [hnode, hnd]
  · rw [hnode, hnd]
  · rw [ownVotes, hnet, htalker]
    simp [ownVotes]

/-- A candidate gives up its election and stays a candidate. -/
theorem gives_up (h : s.Ordered) {k m : ℕ} (hloop : (s.nodes p).loop = .candidate k m) :
    ∃ s', s.Secluded p s' ∧ (s'.nodes p).loop = .run ∧
      (s'.nodes p).currentRole = (s.nodes p).currentRole ∧
      (s'.nodes p).currentTerm = (s.nodes p).currentTerm ∧ s'.ownVotes p = s.ownVotes p :=
  leaves_loop h (e := .candidate p none true) ⟨rfl, .inl rfl⟩
    (by simp [exec, hloop, thread, take]) (Node.candidate_leaves hloop)

/-- A follower whose timeout has passed. -/
theorem times_out (h : s.Ordered) (hloop : (s.nodes p).loop = .follower) :
    ∃ s', s.Secluded p s' ∧ (s'.nodes p).loop = .run ∧
      (s'.nodes p).currentRole = (if (s.nodes p).currentRole = .follower then .candidate
        else (s.nodes p).currentRole) ∧
      (s'.nodes p).currentTerm = (s.nodes p).currentTerm ∧ s'.ownVotes p = s.ownVotes p :=
  leaves_loop h (e := .follower p none true) ⟨rfl, .inl rfl⟩
    (by simp [exec, hloop, thread, take]) (Node.follower_leaves _)

/-- By induction on their number: elections that the node gives up, but for the last, leave
their votes in its mail. -/
theorem calls_elections (h : s.Ordered) (hloop : (s.nodes p).loop = .run)
    (hrole : (s.nodes p).currentRole = .candidate) (elections : ℕ) :
    ∃ s', s.Secluded p s' ∧ (s'.nodes p).loop = .candidate 0 0 ∧
      (s'.nodes p).currentRole = .candidate ∧
      (s'.nodes p).currentTerm = (s.nodes p).currentTerm + (elections + 1) ∧
      elections + 1 ≤ s'.ownVotes p ∧ s'.OwnOutdated p := by
  induction elections with
  | zero =>
    obtain ⟨t, hleads, hloop', hrole', hterm, hvotes, hout⟩ := calls_election h hloop hrole
    exact ⟨t, hleads, hloop', hrole', hterm, by omega, hout⟩
  | succ elections ih =>
    obtain ⟨t, hleads, hloop₁, hrole₁, hterm₁, hvotes₁, -⟩ := ih
    have ht := h.secluded hleads
    obtain ⟨u, hgives, hloop₂, hrole₂, hterm₂, hvotes₂⟩ := gives_up ht hloop₁
    obtain ⟨v, hcalls, hloop₃, hrole₃, hterm₃, hvotes₃, hout⟩ :=
      calls_election (ht.secluded hgives) hloop₂ (hrole₂.trans hrole₁)
    exact ⟨v, (hleads.trans hgives).trans hcalls, hloop₃, hrole₃, by omega, by omega, hout⟩

/-! ## From any state into office -/

/-- Whatever loop the thread of `p` is in, it gets back to the loop of `run`, unless `p`
leads. -/
theorem returns_to_run (h : s.Ordered)
    (hleads : ¬ ((s.nodes p).loop = .leader ∧ (s.nodes p).currentRole = .leader)) :
    ∃ s', s.Secluded p s' ∧ (s'.nodes p).loop = .run ∧
      (s'.nodes p).currentTerm = (s.nodes p).currentTerm ∧
      ((s'.nodes p).currentRole = .leader ↔ (s.nodes p).currentRole = .leader) := by
  cases hloop : (s.nodes p).loop with
  | run => exact ⟨s, .refl, hloop, rfl, Iff.rfl⟩
  | follower =>
    obtain ⟨t, hsecluded, hrun, hrole, hterm, -⟩ := times_out h hloop
    refine ⟨t, hsecluded, hrun, hterm, ?_⟩
    rw [hrole]
    split
    · rename_i hfollower
      simp [hfollower]
    · exact Iff.rfl
  | candidate k m =>
    obtain ⟨t, hsecluded, hrun, hrole, hterm, -⟩ := gives_up h hloop
    exact ⟨t, hsecluded, hrun, hterm, by rw [hrole]⟩
  | leader =>
    have hpaused : (s.nodes p).currentRole ≠ .leader := fun hrole => hleads ⟨hloop, hrole⟩
    obtain ⟨t, hsecluded, hrun, hrole, hterm, -⟩ :=
      leaves_loop h (e := .leader p false (fun _ => false) none) ⟨rfl, .inl rfl⟩
        (by simp [exec, hloop, thread, take]) (Node.leader_leaves hpaused)
    exact ⟨t, hsecluded, hrun, hterm, by rw [hrole]⟩
  | crashed => exact absurd hloop (h.alive.loop p)

/-- A follower whose election timeout passes. -/
theorem promotes_itself (h : s.Ordered) (hloop : (s.nodes p).loop = .run)
    (hrole : (s.nodes p).currentRole = .follower) :
    ∃ s', s.Secluded p s' ∧ (s'.nodes p).loop = .run ∧
      (s'.nodes p).currentRole = .candidate ∧
      (s'.nodes p).currentTerm = (s.nodes p).currentTerm := by
  have hrun : (s.nodes p).run = { s.nodes p with loop := .follower } := by
    simp only [Node.run, hrole]
  have henters := secluded_run hloop
  rw [hrun] at henters
  have hnode := iterate_nodes s p { s.nodes p with loop := .follower }
  generalize (s.setNode p { s.nodes p with loop := .follower }).publish p = t at *
  have hloop' : (t.nodes p).loop = .follower := by rw [hnode]
  have hrole' : (t.nodes p).currentRole = .follower := by rw [hnode]; exact hrole
  obtain ⟨u, hsecluded, hrun', hcandidate, hterm, -⟩ := times_out (h.secluded henters) hloop'
  rw [if_pos hrole'] at hcandidate
  exact ⟨u, henters.trans hsecluded, hrun', hcandidate, hterm.trans (by rw [hnode])⟩

/-- A node that does not lead becomes a candidate; a paused one is let go on first. -/
theorem becomes_candidate (h : s.Ordered) (hloop : (s.nodes p).loop = .run)
    (hrole : (s.nodes p).currentRole ≠ .leader) :
    ∃ s', s.Secluded p s' ∧ (s'.nodes p).loop = .run ∧
      (s'.nodes p).currentRole = .candidate ∧
      (s'.nodes p).currentTerm = (s.nodes p).currentTerm := by
  cases hcase : (s.nodes p).currentRole with
  | leader => exact absurd hcase hrole
  | candidate => exact ⟨s, .refl, hloop, hcase, rfl⟩
  | follower => exact promotes_itself h hloop hcase
  | none =>
    let t := s.setNode p (s.nodes p).unPause
    have hunpaused : s.Secluded p t := .single (e := .unPause p) rfl rfl
    have hnode : t.nodes p = { s.nodes p with currentRole := .follower } := by
      rw [setNode_nodes_self, Node.unPause, if_pos hcase]
    obtain ⟨u, hsecluded, hrun, hcandidate, hterm⟩ :=
      promotes_itself (h.secluded hunpaused) (by rw [hnode]; exact hloop) (by rw [hnode])
    exact ⟨u, hunpaused.trans hsecluded, hrun, hcandidate, hterm.trans (by rw [hnode])⟩

/-- A node that has won enters `_leader`. -/
theorem takes_office (hloop : (s.nodes p).loop = .run)
    (hrole : (s.nodes p).currentRole = .leader) :
    ∃ s', s.Secluded p s' ∧ (s'.nodes p).loop = .leader ∧
      (s'.nodes p).currentRole = .leader ∧
      (s'.nodes p).currentTerm = (s.nodes p).currentTerm := by
  have hrun : (s.nodes p).run = (s.nodes p).enterLeader := by simp only [Node.run, hrole]
  have hsecluded := secluded_run hloop
  rw [hrun] at hsecluded
  obtain ⟨talker, next, reached, heq⟩ :=
    Node.broadcastAppendEntries_eq (s.nodes p).inaugurated (s.nodes p).noop
  have hnode := iterate_nodes s p (s.nodes p).enterLeader
  rw [Node.enterLeader_eq, heq] at hnode
  rw [Node.enterLeader_eq, heq] at hsecluded
  exact ⟨_, hsecluded, by rw [hnode], by rw [hnode]; exact hrole, by rw [hnode]; rfl⟩

/-- By itself, in as many elections as a majority has votes, a node comes to lead. -/
theorem comes_to_lead (h : s.Ordered) (p : Fin n) (elections : ℕ)
    (hmany : n / 2 < elections + 1) :
    ∃ s', s.Secluded p s' ∧ (s'.nodes p).loop = .leader ∧
      (s'.nodes p).currentRole = .leader ∧
      (s'.nodes p).currentTerm = if (s.nodes p).currentRole = .leader then
        (s.nodes p).currentTerm else (s.nodes p).currentTerm + (elections + 1) := by
  by_cases hoffice : (s.nodes p).loop = .leader ∧ (s.nodes p).currentRole = .leader
  · exact ⟨s, .refl, hoffice.1, hoffice.2, (if_pos hoffice.2).symm⟩
  · obtain ⟨t, hreturns, hrun, hterm, hrole⟩ := returns_to_run h hoffice
    by_cases hleader : (s.nodes p).currentRole = .leader
    · -- it has won and not yet entered `_leader`
      obtain ⟨u, htakes, hloop, hrole', hterm'⟩ := takes_office hrun (hrole.mpr hleader)
      rw [if_pos hleader]
      exact ⟨u, hreturns.trans htakes, hloop, hrole', hterm'.trans hterm⟩
    · have ht := h.secluded hreturns
      obtain ⟨u, hbecomes, hrun₁, hrole₁, hterm₁⟩ :=
        becomes_candidate ht hrun (fun hwon => hleader (hrole.mp hwon))
      have hu := ht.secluded hbecomes
      obtain ⟨v, hcalls, hloop₂, hrole₂, hterm₂, hvotes, hout⟩ :=
        calls_elections hu hrun₁ hrole₁ elections
      have hv := hu.secluded hcalls
      obtain ⟨w, hcounts, hrun₃, hrole₃, hterm₃⟩ := counts_votes hrole₂ hloop₂ (hv.talked p).2
        rfl hout (Nat.zero_le _) (by omega)
      obtain ⟨x, htakes, hloop₄, hrole₄, hterm₄⟩ := takes_office hrun₃ hrole₃
      refine ⟨x, (((hreturns.trans hbecomes).trans hcalls).trans hcounts).trans htakes, hloop₄,
        hrole₄, ?_⟩
      rw [if_neg hleader]
      omega

/-- The thread of a node moves no other node. -/
theorem secludedAt_nodes {e : Event n V} {q : Fin n} (he : e.SecludedAt p)
    (hs : s.exec e = some s') (hq : q ≠ p) : s'.nodes q = s.nodes q := by
  obtain ⟨r, rfl, -, rfl⟩ | ⟨r, _, _, taken, _, rfl, -, -, htake, rfl⟩ |
    ⟨r, _, _, taken, _, _, _, rfl, -, -, htake, rfl⟩ |
    ⟨r, _, _, _, taken, _, rfl, -, -, htake, rfl⟩ | ⟨r, _, _, rfl, -⟩ | ⟨r, rfl, -⟩ |
    ⟨r, rfl, rfl⟩ | ⟨_, _, _, rfl, -⟩ := exec_cases hs
  · rw [publish_nodes_of_ne (he ▸ hq), setNode_nodes_of_ne (he ▸ hq)]
  · rw [publish_nodes_of_ne (he.1 ▸ hq), setNode_nodes_of_ne (he.1 ▸ hq), take_nodes htake]
  · rw [publish_nodes_of_ne (he.1 ▸ hq), setNode_nodes_of_ne (he.1 ▸ hq), take_nodes htake]
  · rw [publish_nodes_of_ne (he.1 ▸ hq), setNode_nodes_of_ne (he.1 ▸ hq), take_nodes htake]
  · exact he.elim
  · exact he.elim
  · rw [setNode_nodes_of_ne (he ▸ hq)]
  · exact he.elim

theorem Secluded.nodes {q : Fin n} (h : s.Secluded p s') (hq : q ≠ p) :
    s'.nodes q = s.nodes q :=
  TransitionSystem.LeadsTo.invariant (I := fun t => t.nodes q = s.nodes q)
    (fun _ _ _ hbefore he hs => (secludedAt_nodes he hs hq).trans hbefore) h rfl

end Cluster

/-! ## All nodes -/

variable [EmptyCollection V] {s : Cluster n V}

/-- One node after another; the induction is on the nodes whose turn it has been. -/
theorem come_to_lead (h : s.Ordered) {term : ℕ}
    (hterm : ∀ p, (s.nodes p).currentTerm + n / 2 < term) (turns : List (Fin n)) :
    ∃ s', (clusterSystem n V).LeadsTo (fun _ e => ∃ p, e.SecludedAt p) s s' ∧ s'.Ordered ∧
      (∀ p ∈ turns, (s'.nodes p).loop = .leader ∧ (s'.nodes p).currentRole = .leader ∧
        (s'.nodes p).currentTerm = if (s.nodes p).currentRole = .leader then
          (s.nodes p).currentTerm else term) ∧
      ∀ p ∉ turns, s'.nodes p = s.nodes p := by
  induction turns with
  | nil => exact ⟨s, .refl, h, by simp, fun _ _ => rfl⟩
  | cons q turns ih =>
    obtain ⟨t, hleads, ht, hturns, hothers⟩ := ih
    by_cases hq : q ∈ turns
    · refine ⟨t, hleads, ht, fun p hp => ?_,
        fun p hp => hothers p (List.not_mem_of_not_mem_cons hp)⟩
      rcases List.mem_cons.mp hp with rfl | hp
      · exact hturns p hq
      · exact hturns p hp
    · have hbefore := hothers q hq
      have hbound := hterm q
      obtain ⟨u, hsecluded, hloop, hrole, hterm'⟩ :=
        Cluster.comes_to_lead ht q (term - (s.nodes q).currentTerm - 1) (by omega)
      have hmember : (clusterSystem n V).LeadsTo (fun _ e => ∃ p, e.SecludedAt p) t u :=
        TransitionSystem.LeadsTo.mono (fun _ _ he => ⟨q, he⟩) hsecluded
      refine ⟨u, hleads.trans hmember, ht.secluded hsecluded, fun p hp => ?_, fun p hp => ?_⟩
      · by_cases hpq : p = q
        · subst hpq
          refine ⟨hloop, hrole, ?_⟩
          rw [hterm', hbefore]
          split
          · rfl
          · omega
        · rw [hsecluded.nodes hpq]
          exact hturns p ((List.mem_cons.mp hp).resolve_left hpq)
      · rw [hsecluded.nodes (List.ne_of_not_mem_cons hp)]
        exact hothers p (List.not_mem_of_not_mem_cons hp)

/-- The nodes that do not lead yet all come to lead in one and the same term. -/
theorem all_come_to_lead (h : s.Ordered) :
    ∃ s' term, (clusterSystem n V).LeadsTo (fun _ e => ∃ p, e.SecludedAt p) s s' ∧ s'.Ordered ∧
      ∀ p, (s'.nodes p).loop = .leader ∧ (s'.nodes p).currentRole = .leader ∧
        (s'.nodes p).currentTerm = if (s.nodes p).currentRole = .leader then
          (s.nodes p).currentTerm else term := by
  have hlate : ∀ p, (s.nodes p).currentTerm + n / 2 <
      (∑ q, (s.nodes q).currentTerm) + n / 2 + 1 := fun p => by
    have hle : (s.nodes p).currentTerm ≤ ∑ q, (s.nodes q).currentTerm :=
      Finset.single_le_sum (f := fun q => (s.nodes q).currentTerm)
        (fun _ _ => Nat.zero_le _) (Finset.mem_univ p)
    omega
  obtain ⟨s', hleads, hordered, hturns, -⟩ := come_to_lead h hlate (List.finRange n)
  exact ⟨s', _, hleads, hordered, fun p => hturns p (List.mem_finRange p)⟩

/-- From every reachable state the cluster can go on so that all its nodes lead at once: each
hears nobody but itself, those that lead already keep their term, and all others lead in one
and the same term. -/
theorem everyone_leads (h : (clusterSystem n V).Reachable unguarded s) :
    ∃ s' term, (clusterSystem n V).LeadsTo (fun _ e => ∃ p, e.SecludedAt p) s s' ∧
      ∀ p, (s'.nodes p).loop = .leader ∧ (s'.nodes p).currentRole = .leader ∧
        (s'.nodes p).currentTerm = if (s.nodes p).currentRole = .leader then
          (s.nodes p).currentTerm else term := by
  obtain ⟨s', term, hleads, -, hall⟩ := all_come_to_lead (Cluster.ordered_of_reachable h)
  exact ⟨s', term, hleads, hall⟩

/-- Node `1` comes to lead as well while what the first leader sent is on its way to it. -/
theorem everyone_leads_unheardLeader : ∃ s s' : Cluster 2 (List ℕ), leadsUnheard s = true ∧
    (clusterSystem 2 (List ℕ)).LeadsTo (fun _ e => ∃ p, e.SecludedAt p) s s' ∧
      ∀ p, (s'.nodes p).loop = .leader := by
  obtain ⟨history, s, hrun, htest⟩ := exists_leadsUnheard
  obtain ⟨s', term, hleads, hall⟩ := everyone_leads ⟨history, hrun⟩
  exact ⟨s, s', htest, hleads, fun p => (hall p).1⟩

end DreamboatRpc.Raft
