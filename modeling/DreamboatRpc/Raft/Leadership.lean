import DreamboatRpc.CS.Transition
import DreamboatRpc.Raft.LeaderOps

/-!
# The books of a leader

A leader keeps two indices for every node: which entry to send it next, and up to which its
log is known to be stored there. The next index goes up and down with the acknowledges,
ends up as `None`, and comes back with the next entry; whatever acknowledges arrive, and
from whom, both stay inside the log, so that the leader never reads beyond it.

## Main definitions

* `Node.InsideLog` — no index of the leader points outside the log
* `Node.Bookkept` — a node without a next index is up to date as well
* `leadershipSystem` — a node that becomes leader, and everything it can be given to handle

## Main results

* `broadcastAppendEntries_bookkept`, `Bookkept.leaderAcknowledge`, `Bookkept.leader` — what
  the operations of a leader do to its books
* `leader_bookkeeping` — in every leadership the books are in order and no read fails
-/

namespace DreamboatRpc.Raft

open CS

variable {n : ℕ} {V : Type*}

namespace Node

/-- The log has an entry, and no index the leader keeps points outside the log or, if it is
the index of an entry to send, at its start. -/
structure InsideLog (nd : Node n V) : Prop where
  commitIndex : nd.commitIndex < nd.log.length
  matchIndex : ∀ q, nd.matchIndex q < nd.log.length
  nextIndex : ∀ q k, nd.nextIndex q = some k → 1 ≤ k ∧ k < nd.log.length

/-- The books are in order: what is not to be sent anything stores the whole log. -/
structure Bookkept (nd : Node n V) : Prop extends InsideLog nd where
  upToDate : ∀ q, nd.nextIndex q = none → nd.matchIndex q = nd.logMaxIndex

variable {nd nd' : Node n V} {q : Fin n} {k : ℕ}

/-- The books of a node only depend on its log and its indices. -/
theorem Bookkept.congr (h : nd.Bookkept) (hlog : nd'.log = nd.log)
    (hcommit : nd'.commitIndex = nd.commitIndex) (hmatch : nd'.matchIndex = nd.matchIndex)
    (hnext : nd'.nextIndex = nd.nextIndex) : nd'.Bookkept := by
  refine ⟨⟨?_, ?_, ?_⟩, ?_⟩
  · rw [hcommit, hlog]
    exact h.commitIndex
  · rw [hmatch, hlog]
    exact h.matchIndex
  · rw [hnext, hlog]
    exact h.nextIndex
  · rw [hnext, hmatch, logMaxIndex, hlog]
    exact h.upToDate

/-- New indices for one node. -/
theorem Bookkept.update (h : nd.Bookkept) {next : Option ℕ} {reached : ℕ}
    (hlog : nd'.log = nd.log) (hcommit : nd'.commitIndex = nd.commitIndex)
    (hmatch : nd'.matchIndex = Function.update nd.matchIndex q reached)
    (hnext : nd'.nextIndex = Function.update nd.nextIndex q next)
    (hreached : reached < nd.log.length)
    (hsome : ∀ k, next = some k → 1 ≤ k ∧ k < nd.log.length)
    (hnone : next = none → reached = nd.logMaxIndex) : nd'.Bookkept := by
  refine ⟨⟨?_, fun r => ?_, fun r => ?_⟩, fun r => ?_⟩
  · rw [hcommit, hlog]
    exact h.commitIndex
  · rw [hmatch, hlog, Function.update_apply]
    split
    · exact hreached
    · exact h.matchIndex r
  · rw [hnext, hlog, Function.update_apply]
    split
    · exact hsome
    · exact h.nextIndex r
  · rw [hnext, hmatch, Function.update_apply, Function.update_apply, logMaxIndex, hlog]
    split
    · exact hnone
    · exact h.upToDate r

/-! ## Sending entries -/

/-- An index inside the log and past its start can be sent. -/
theorem sendEntryAt_eq (nd : Node n V) (node : Fin n) (hk : 1 ≤ k ∧ k < nd.log.length) :
    ∃ prev entry, nd.log[k - 1]? = some prev ∧ nd.log[k]? = some entry ∧
      nd.sendEntryAt node k = nd.sendAppendEntries (k - 1) prev.term entry node := by
  have hprev : nd.log[k - 1]? = some nd.log[k - 1] := List.getElem?_eq_getElem (by omega)
  have hentry : nd.log[k]? = some nd.log[k] := List.getElem?_eq_getElem hk.2
  exact ⟨_, _, hprev, hentry, by simp only [sendEntryAt, hprev, hentry]⟩

/-- A leader that has its next indices inside the log only sends before it looks for a
message. -/
theorem leaderSends_of_nextIndex
    (hnext : ∀ q k, nd.nextIndex q = some k → 1 ≤ k ∧ k < nd.log.length)
    (heartbeat : Bool) (expired : Fin n → Bool) :
    ∃ talker, nd.leaderSends heartbeat expired = { nd with talker := talker } := by
  have hheartbeat : ∃ talker, (if heartbeat then nd.sendHeartbeat else nd) =
      { nd with talker := talker } := by
    split
    · exact ⟨_, rfl⟩
    · exact ⟨_, rfl⟩
  obtain ⟨talker, heq⟩ := hheartbeat
  rw [Node.leaderSends, heq, resend]
  refine List.foldlRecOn (motive := fun nd' : Node n V =>
    ∃ talker, nd' = { nd with talker := talker }) _ _ ⟨talker, rfl⟩ ?_
  rintro _ ⟨talker', rfl⟩ node _
  unfold resendTo
  split
  · rename_i index hindex
    split
    · -- what is sent again was there to be sent
      obtain ⟨prev, entry, -, -, hsend⟩ :=
        sendEntryAt_eq { nd with talker := talker' } node (hnext node index hindex)
      rw [hsend]
      exact ⟨_, rfl⟩
    · exact ⟨_, rfl⟩
  · exact ⟨_, rfl⟩

/-! ## A new entry -/

/-- The loop of `_broadcast_append_entries` gives a next index to every node without one. -/
theorem offerEntry_foldl_nextIndex (nd : Node n V) (index term : ℕ) (entry : Entry V)
    (l : List (Fin n)) (q : Fin n) :
    (l.foldl (offerEntry index term entry) nd).nextIndex q =
      if q ∈ l ∧ nd.nextIndex q = none then some nd.logMaxIndex else nd.nextIndex q := by
  induction l generalizing nd with
  | nil => simp
  | cons a l ih =>
    rw [List.foldl_cons, ih]
    cases hnext : nd.nextIndex a with
    | none =>
      have hoffer : offerEntry index term entry nd a =
          { nd.sendAppendEntries index term entry a with
            nextIndex := Function.update nd.nextIndex a (some nd.logMaxIndex) } := by
        simp only [offerEntry, hnext]
      rw [hoffer]
      by_cases hq : q = a
      · subst hq
        simp [hnext]
      · simp only [Function.update_of_ne hq, List.mem_cons, hq, false_or]
        rfl
    | some k =>
      have hoffer : offerEntry index term entry nd a = nd := by
        simp only [offerEntry, hnext]
      rw [hoffer]
      by_cases hq : q = a
      · subst hq
        simp [hnext]
      · simp [hq]

/-- What a broadcast does to the log and the indices. -/
theorem broadcastAppendEntries_indices (nd : Node n V) (entry : Entry V) :
    ∃ talker, nd.broadcastAppendEntries entry =
      { nd.appended entry with
        talker := talker
        nextIndex := fun q =>
          if q = nd.myId then none else some ((nd.nextIndex q).getD nd.log.length)
        matchIndex := Function.update nd.matchIndex nd.myId nd.log.length } := by
  have hmax : (nd.appended entry).logMaxIndex = nd.log.length := by simp [logMaxIndex, appended]
  obtain ⟨talker, next, heq⟩ := offerEntry_foldl_eq (nd.appended entry) nd.logMaxIndex
    nd.lastLogTerm entry (List.finRange n)
  -- after the loop every node has a next index; the node itself loses it again
  have hnext : Function.update next nd.myId none = fun q =>
      if q = nd.myId then none else some ((nd.nextIndex q).getD nd.log.length) := by
    funext q
    rw [Function.update_apply]
    split
    · rfl
    · have hq := offerEntry_foldl_nextIndex (nd.appended entry) nd.logMaxIndex nd.lastLogTerm
        entry (List.finRange n) q
      rw [heq, hmax] at hq
      change next q = _ at hq
      rw [hq]
      change (if q ∈ List.finRange n ∧ nd.nextIndex q = none then some nd.log.length
        else nd.nextIndex q) = _
      cases hnone : nd.nextIndex q with
      | none => simp
      | some k => simp
  refine ⟨talker, ?_⟩
  unfold broadcastAppendEntries
  rw [appendEntry_none]
  simp only [heq, updateOwnIndices]
  rw [← hnext, ← hmax]
  rfl

/-- After a broadcast the books are in order, as soon as the indices were inside the log:
the new entry is on its way to every node, or an earlier one is. -/
theorem broadcastAppendEntries_bookkept (h : nd.InsideLog) (entry : Entry V) :
    (nd.broadcastAppendEntries entry).Bookkept := by
  obtain ⟨talker, heq⟩ := nd.broadcastAppendEntries_indices entry
  have hlen : (nd.appended entry).log.length = nd.log.length + 1 := by simp [appended]
  have hpos : 1 ≤ nd.log.length := Nat.one_le_iff_ne_zero.mpr (by have := h.commitIndex; omega)
  rw [heq]
  refine ⟨⟨?_, fun q => ?_, fun q k hk => ?_⟩, fun q hq => ?_⟩
  · exact (h.commitIndex.trans (Nat.lt_succ_self _)).trans_eq hlen.symm
  · simp only [Function.update_apply, hlen]
    split
    · exact Nat.lt_succ_self _
    · exact (h.matchIndex q).trans (Nat.lt_succ_self _)
  · simp only at hk
    split at hk
    · simp at hk
    · rw [Option.some.injEq] at hk
      simp only [hlen, ← hk]
      cases hnext : nd.nextIndex q with
      | none => exact ⟨hpos, Nat.lt_succ_self _⟩
      | some k' =>
        obtain ⟨hone, hlt⟩ := h.nextIndex q k' hnext
        exact ⟨hone, hlt.trans (Nat.lt_succ_self _)⟩
  · -- only the node itself is left without a next index
    simp only at hq
    split at hq
    · rename_i hself
      simp [hself, logMaxIndex, hlen]
    · simp at hq

/-! ## An acknowledge -/

/-- A commit inside the log only commits and sends. -/
theorem commitCommittable_eq (h : nd.maxCommittableIndex < nd.log.length) :
    ∃ talker index applied term, (index = nd.commitIndex ∨ index = nd.maxCommittableIndex) ∧
      nd.commitCommittable = { nd with
        talker := talker, commitIndex := index, lastAppliedIndex := applied
        lastAppliedTerm := term } := by
  unfold commitCommittable
  split
  · obtain ⟨talker, htalker⟩ := sendCommittal_foldl_eq
      (nd.commitEntry nd.maxCommittableIndex (nd.log[nd.maxCommittableIndex]).term)
      (List.finRange n)
    rw [broadcastCommmitEntries, List.getElem?_eq_getElem h]
    simp only
    rw [htalker]
    exact ⟨_, _, _, _, .inr rfl, rfl⟩
  · exact ⟨_, _, _, _, .inl rfl, rfl⟩

/-- A next index behind the end of the log means that nothing is left to send. -/
theorem bringUpToDate_of_gt (hnext : nd.nextIndex q = some k) (hk : k > nd.logMaxIndex) :
    nd.bringUpToDate q = { nd with nextIndex := Function.update nd.nextIndex q none } := by
  simp only [bringUpToDate, hnext, if_pos hk]

theorem bringUpToDate_of_le (hnext : nd.nextIndex q = some k) (hk : k ≤ nd.logMaxIndex) :
    nd.bringUpToDate q = nd.sendEntryAt q k := by
  simp only [bringUpToDate, hnext, if_neg (not_lt.mpr hk)]

/-- The indices of the sender after an acknowledge, with what it is sent then. -/
theorem Bookkept.acknowledged (h : nd.Bookkept) (sender : Fin n) (success : Bool)
    (hk : nd.nextIndex sender = some k) :
    ((nd.creditAcknowledge sender k success).bringUpToDate sender).Bookkept ∧
      ((nd.creditAcknowledge sender k success).bringUpToDate sender).log = nd.log ∧
      ((nd.creditAcknowledge sender k success).bringUpToDate sender).loop = nd.loop := by
  obtain ⟨hone, hlt⟩ := h.nextIndex sender k hk
  have hmax : nd.logMaxIndex + 1 = nd.log.length := by
    rw [logMaxIndex]
    omega
  -- a next index inside the log is sent at once
  have hsend : ∀ nd₁ : Node n V, nd₁.log = nd.log → nd₁.loop = nd.loop →
      (∃ k', nd₁.nextIndex sender = some k' ∧ 1 ≤ k' ∧ k' < nd.log.length) → nd₁.Bookkept →
      (nd₁.bringUpToDate sender).Bookkept ∧ (nd₁.bringUpToDate sender).log = nd.log ∧
        (nd₁.bringUpToDate sender).loop = nd.loop := by
    rintro nd₁ hlog hloop ⟨k', hnext, hone', hlt'⟩ hbooks
    have hle : k' ≤ nd₁.logMaxIndex := by
      rw [logMaxIndex, hlog]
      omega
    obtain ⟨prev, entry, -, -, heq⟩ :=
      nd₁.sendEntryAt_eq sender ⟨hone', by rw [hlog]; exact hlt'⟩
    rw [bringUpToDate_of_le hnext hle, heq]
    exact ⟨hbooks.congr rfl rfl rfl rfl, hlog, hloop⟩
  unfold creditAcknowledge
  by_cases hsuccess : success = true
  · rw [if_pos hsuccess]
    by_cases hlast : k = nd.logMaxIndex
    · -- that was the last entry
      rw [bringUpToDate_of_gt (k := k + 1) (Function.update_self ..)
        (by rw [hlast]; exact Nat.lt_succ_self _)]
      exact ⟨h.update rfl rfl rfl (Function.update_idem ..) hlt (by simp) fun _ => hlast,
        rfl, rfl⟩
    · have hnext : ∀ k', some (k + 1) = some k' → 1 ≤ k' ∧ k' < nd.log.length := by
        rintro k' ⟨⟩
        omega
      exact hsend _ rfl rfl ⟨k + 1, Function.update_self .., hnext _ rfl⟩
        (h.update rfl rfl rfl rfl hlt hnext (by simp))
  · rw [if_neg hsuccess]
    split
    · rename_i hne
      have hnext : ∀ k', some (k - 1) = some k' → 1 ≤ k' ∧ k' < nd.log.length := by
        rintro k' ⟨⟩
        omega
      have hmatch : nd.matchIndex =
          Function.update nd.matchIndex sender (nd.matchIndex sender) :=
        (Function.update_eq_self sender nd.matchIndex).symm
      exact hsend _ rfl rfl ⟨k - 1, Function.update_self .., hnext _ rfl⟩
        (h.update rfl rfl hmatch rfl (h.matchIndex sender) hnext (by simp))
    · exact hsend nd rfl rfl ⟨k, hk, hone, hlt⟩ h

/-- Whatever an acknowledge says, and whoever sends it, the books stay in order. -/
theorem Bookkept.leaderAcknowledge (h : nd.Bookkept) (hloop : nd.loop ≠ .crashed)
    (sender : Fin n) (success : Bool) :
    (nd.leaderAcknowledge sender success).Bookkept ∧
      (nd.leaderAcknowledge sender success).log = nd.log ∧
      (nd.leaderAcknowledge sender success).loop = nd.loop := by
  cases hk : nd.nextIndex sender with
  | none =>
    simp only [Node.leaderAcknowledge, hk]
    exact ⟨h, trivial, trivial⟩
  | some k =>
    obtain ⟨hbooks, hlog, hloop'⟩ := h.acknowledged sender success hk
    simp only [Node.leaderAcknowledge, hk]
    set nd₁ := (nd.creditAcknowledge sender k success).bringUpToDate sender
    rw [if_neg (by rwa [hloop'])]
    -- the index to commit is one of the match indices
    have hin : nd₁.maxCommittableIndex < nd₁.log.length :=
      (nd₁.maxCommittableIndex_le nd₁.myId).trans_lt (hbooks.matchIndex _)
    obtain ⟨talker, index, applied, term, hindex, heq⟩ := commitCommittable_eq hin
    have hlt : index < nd₁.log.length := by
      rcases hindex with rfl | rfl
      · exact hbooks.commitIndex
      · exact hin
    rw [heq]
    exact ⟨⟨⟨hlt, hbooks.matchIndex, hbooks.nextIndex⟩, hbooks.upToDate⟩, hlog, hloop'⟩

/-! ## A whole iteration -/

/-- The books of `nd'` are in order, no read has failed on the way from `nd`, and the log has
only been appended to. -/
structure KeepsBooks (nd nd' : Node n V) : Prop where
  books : nd'.Bookkept
  loop : nd'.loop ≠ .crashed
  log : nd.log <+: nd'.log

theorem Bookkept.broadcastAppendEntries (h : nd.Bookkept) (hloop : nd.loop ≠ .crashed)
    (entry : Entry V) : nd.KeepsBooks (nd.broadcastAppendEntries entry) := by
  obtain ⟨talker, heq⟩ := nd.broadcastAppendEntries_indices entry
  refine ⟨broadcastAppendEntries_bookkept h.toInsideLog entry, ?_, ?_⟩
  · rw [heq]
    exact hloop
  · rw [heq]
    exact List.prefix_append _ _

theorem Bookkept.leaderMessage (h : nd.Bookkept) (hloop : nd.loop ≠ .crashed) (sender : Fin n)
    (message : Message n V) : nd.KeepsBooks (nd.leaderMessage sender message) := by
  have hself : nd.KeepsBooks nd := ⟨h, hloop, List.prefix_rfl⟩
  cases message with
  | acknowledge term success =>
    obtain ⟨hbooks, hlog, hloop'⟩ := h.leaderAcknowledge hloop sender success
    exact ⟨hbooks, by rwa [← hloop'] at hloop, hlog ▸ List.prefix_rfl⟩
  | clientRequest term entries => exact h.broadcastAppendEntries hloop entries
  | requestVotes term i u =>
    simp only [Node.leaderMessage]
    split
    · exact ⟨h.congr rfl rfl rfl rfl, by simp [yieldTo], List.prefix_rfl⟩
    · exact hself
  | _ => exact hself

/-- One iteration of `_leader` keeps the books, whatever message it is given. -/
theorem Bookkept.leader (h : nd.Bookkept) (hloop : nd.loop = .leader) (heartbeat : Bool)
    (expired : Fin n → Bool) (incoming : Option (Fin n × Message n V)) :
    nd.KeepsBooks (nd.leader heartbeat expired incoming) := by
  unfold Node.leader
  split
  swap
  · exact ⟨h.congr rfl rfl rfl rfl, by simp, List.prefix_rfl⟩
  -- the heartbeat and the resend loop, then the message
  obtain ⟨talker, hsends⟩ := leaderSends_of_nextIndex h.nextIndex heartbeat expired
  have hsent : nd.KeepsBooks (nd.leaderSends heartbeat expired) ∧
      (nd.leaderSends heartbeat expired).loop = .leader := by
    rw [hsends]
    exact ⟨⟨h.congr rfl rfl rfl rfl, by simp [hloop], List.prefix_rfl⟩, hloop⟩
  simp only [if_pos hsent.2]
  have hreceive : nd.KeepsBooks
      ((nd.leaderSends heartbeat expired).receive Node.leaderMessage incoming) := by
    cases incoming with
    | none => exact hsent.1
    | some m =>
      have hheld : ({ nd.leaderSends heartbeat expired with incomingMessage := some m.2 } :
          Node n V).Bookkept := hsent.1.books.congr rfl rfl rfl rfl
      obtain ⟨hbooks, hloop', hlog⟩ := hheld.leaderMessage hsent.1.loop m.1 m.2
      exact ⟨hbooks, hloop', hsent.1.log.trans hlog⟩
  set nd₁ := (nd.leaderSends heartbeat expired).receive Node.leaderMessage incoming
  split
  · -- the oldest client request, if there is one
    unfold leaderClientRequest
    split
    · exact hreceive
    · rename_i entry rest hqueue
      have htaken : ({ nd₁ with clientQueue := rest } : Node n V).Bookkept :=
        hreceive.books.congr rfl rfl rfl rfl
      obtain ⟨hbooks, hloop', hlog⟩ := htaken.broadcastAppendEntries hreceive.loop entry
      exact ⟨hbooks, hloop', hreceive.log.trans hlog⟩
  · exact hreceive

/-- A new leader has its books in order after its first broadcast. -/
theorem enterLeader_keepsBooks [EmptyCollection V] (h : nd.commitIndex < nd.log.length) :
    nd.KeepsBooks nd.enterLeader := by
  have hinside : nd.inaugurated.InsideLog := ⟨h, fun _ => h, by simp [inaugurated]⟩
  rw [enterLeader_eq]
  refine ⟨(broadcastAppendEntries_bookkept hinside nd.noop).congr rfl rfl rfl rfl, by simp, ?_⟩
  have hlog := nd.enterLeader_log
  rw [enterLeader_eq] at hlog
  rw [hlog]
  exact List.prefix_append _ _

end Node

/-! ## Leaderships -/

/-- What happens to a leader: it enters its loop, it runs an iteration with whatever message
and timers, it is called by a client, or the network takes what it has sent. -/
inductive LeadershipEvent (n : ℕ) (V : Type*)
  | enter
  | iteration (heartbeat : Bool) (expired : Fin n → Bool)
      (incoming : Option (Fin n × Message n V))
  | clientRequest (value : V) (idNum : ℤ)
  | pause
  | unPause
  | publish

/-- One event of a leadership; `none` if it cannot happen. -/
def leadershipExec [EmptyCollection V] (nd : Node n V) : LeadershipEvent n V → Option (Node n V)
  | .enter => if nd.loop = .run ∧ nd.currentRole = .leader then some nd.run else none
  | .iteration heartbeat expired incoming =>
    if nd.loop = .leader then some (nd.leader heartbeat expired incoming) else none
  | .clientRequest value idNum => some (nd.clientRequest value idNum)
  | .pause => some nd.pause
  | .unPause => some nd.unPause
  | .publish => some { nd with talker := [], incomingMessage := none }

/-- A node that has won an election, and what it goes through as a leader. -/
def leadershipSystem (n : ℕ) (V : Type*) [EmptyCollection V] :
    TransitionSystem (Node n V) (LeadershipEvent n V) where
  init nd := nd.loop = .run ∧ nd.currentRole = .leader ∧ nd.commitIndex < nd.log.length
  step nd e nd' := leadershipExec nd e = some nd'

/-- What holds all along: a leader in its loop has its books in order. -/
structure LeadershipInv (nd : Node n V) : Prop where
  commitIndex : nd.commitIndex < nd.log.length
  loop : nd.loop ≠ .crashed
  books : nd.loop = .leader → nd.Bookkept

theorem LeadershipInv.of_keepsBooks {nd nd' : Node n V} (h : nd.KeepsBooks nd') :
    LeadershipInv nd' :=
  ⟨h.books.commitIndex, h.loop, fun _ => h.books⟩

/-- Nothing that leaves log, indices and loop alone matters. -/
theorem LeadershipInv.congr {nd nd' : Node n V} (h : LeadershipInv nd)
    (hlog : nd'.log = nd.log) (hcommit : nd'.commitIndex = nd.commitIndex)
    (hmatch : nd'.matchIndex = nd.matchIndex) (hnext : nd'.nextIndex = nd.nextIndex)
    (hloop : nd'.loop = nd.loop) : LeadershipInv nd' := by
  refine ⟨by rw [hcommit, hlog]; exact h.commitIndex, by rw [hloop]; exact h.loop, fun hlead => ?_⟩
  rw [hloop] at hlead
  exact (h.books hlead).congr hlog hcommit hmatch hnext

section Runs

variable [EmptyCollection V] {nd nd' : Node n V} {e : LeadershipEvent n V}

theorem LeadershipInv.step (h : LeadershipInv nd) (hs : leadershipExec nd e = some nd') :
    LeadershipInv nd' ∧ nd.log <+: nd'.log := by
  cases e with
  | enter =>
    simp only [leadershipExec, Option.ite_none_right_eq_some, Option.some.injEq] at hs
    obtain ⟨⟨-, hrole⟩, rfl⟩ := hs
    have hrun : nd.run = nd.enterLeader := by simp only [Node.run, hrole]
    rw [hrun]
    have hkeeps := Node.enterLeader_keepsBooks h.commitIndex
    exact ⟨.of_keepsBooks hkeeps, hkeeps.log⟩
  | iteration heartbeat expired incoming =>
    simp only [leadershipExec, Option.ite_none_right_eq_some, Option.some.injEq] at hs
    obtain ⟨hloop, rfl⟩ := hs
    have hkeeps := (h.books hloop).leader hloop heartbeat expired incoming
    exact ⟨.of_keepsBooks hkeeps, hkeeps.log⟩
  | unPause =>
    simp only [leadershipExec, Option.some.injEq] at hs
    subst hs
    unfold Node.unPause
    split
    · exact ⟨h.congr rfl rfl rfl rfl rfl, List.prefix_rfl⟩
    · exact ⟨h, List.prefix_rfl⟩
  | _ =>
    simp only [leadershipExec, Option.some.injEq] at hs
    subst hs
    exact ⟨h.congr rfl rfl rfl rfl rfl, List.prefix_rfl⟩

theorem leadershipInv_of_run {history : List (Transition (Node n V) (LeadershipEvent n V))}
    (h : (leadershipSystem n V).Run unguarded history nd) : LeadershipInv nd := by
  refine TransitionSystem.Reachable.invariant (I := LeadershipInv) ?_ ?_ ⟨history, h⟩
  · rintro nd ⟨hloop, -, hcommit⟩
    exact ⟨hcommit, by simp [hloop], by simp [hloop]⟩
  · intro nd e nd' hinv _ hstep
    exact (hinv.step hstep).1

/-- In every leadership that begins with a commit index inside the log, whatever messages,
client requests and timers there are: the thread never reads outside the log, as long as it is
in its loop every node is up to date or has a next index inside the log, and the log is only
appended to. -/
theorem leader_bookkeeping {history : List (Transition (Node n V) (LeadershipEvent n V))}
    (h : (leadershipSystem n V).Run unguarded history nd) :
    (nd.loop = .leader → ∀ q,
      (nd.nextIndex q = none ∧ nd.matchIndex q = nd.logMaxIndex) ∨
      ∃ k, nd.nextIndex q = some k ∧ 1 ≤ k ∧ k ≤ nd.logMaxIndex ∧
        nd.matchIndex q ≤ nd.logMaxIndex) ∧
    nd.loop ≠ .crashed ∧ ∀ x ∈ history, x.source.log <+: x.target.log := by
  have hinv := leadershipInv_of_run h
  refine ⟨fun hloop q => ?_, hinv.loop, fun x hx => ?_⟩
  · have hbooks := hinv.books hloop
    cases hnext : nd.nextIndex q with
    | none => exact .inl ⟨rfl, hbooks.upToDate q hnext⟩
    | some k =>
      obtain ⟨hone, hlt⟩ := hbooks.nextIndex q k hnext
      exact .inr ⟨k, rfl, hone, Nat.le_sub_one_of_lt hlt,
        Nat.le_sub_one_of_lt (hbooks.matchIndex q)⟩
  · obtain ⟨⟨earlier, hrun⟩, -, hstep⟩ := h.of_mem hx
    exact ((leadershipInv_of_run hrun).step hstep).2

/-- What is computed from an elected node is a leadership. -/
theorem leadership_run {elected : Node n V} (hloop : elected.loop = .run)
    (hrole : elected.currentRole = .leader) (hcommit : elected.commitIndex < elected.log.length)
    {G : Node n V → LeadershipEvent n V → Prop}
    {history : List (Transition (Node n V) (LeadershipEvent n V))}
    (h : (TransitionSystem.ofExec elected leadershipExec).Run G history nd) :
    (leadershipSystem n V).Run unguarded history nd := by
  induction h with
  | init h =>
    obtain rfl : _ = elected := h
    exact .init ⟨hloop, hrole, hcommit⟩
  | step _ _ hstep ih => exact .step ih trivial hstep

end Runs

/-- A leader of two nodes sends its first entry again, is told that it was stored, and appends
what a client asks for. -/
def acknowledgedOnce : List (LeadershipEvent 2 (List ℕ)) :=
  [.enter, .iteration true (fun _ => true) none,
    .iteration false (fun _ => false) (some (1, .acknowledge 2 true)), .clientRequest [7] 5,
    .iteration false (fun _ => false) none]

theorem leader_bookkeeping_acknowledgedOnce : ∃ (nd : Node 2 (List ℕ))
    (history : List (Transition (Node 2 (List ℕ)) (LeadershipEvent 2 (List ℕ)))),
    (nd.log.length = 3 ∧ nd.matchIndex 1 = 1 ∧ nd.nextIndex 1 = some 2) ∧ nd.loop ≠ .crashed ∧
      ∀ x ∈ history, x.source.log <+: x.target.log := by
  let elected : Node 2 (List ℕ) := { Node.init 0 with currentRole := .leader, currentTerm := 2 }
  have hreplay : (replay leadershipExec (fun _ _ => true) [] elected acknowledgedOnce).any
      (fun r => decide (r.2.log.length = 3 ∧ r.2.matchIndex 1 = 1 ∧ r.2.nextIndex 1 = some 2)) =
      true := by decide +kernel
  obtain ⟨history, nd, hrun, htest⟩ := exists_run_of_replay (fun _ (nd : Node 2 (List ℕ)) =>
    decide (nd.log.length = 3 ∧ nd.matchIndex 1 = 1 ∧ nd.nextIndex 1 = some 2)) hreplay
  obtain ⟨-, halive, hgrows⟩ := leader_bookkeeping (leadership_run rfl rfl Nat.one_pos hrun)
  exact ⟨nd, history, of_decide_eq_true htest, halive, hgrows⟩

end DreamboatRpc.Raft
