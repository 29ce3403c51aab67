import Mathlib.Logic.Relation
import Mathlib.Order.Bounds.Basic
import DreamboatRpc.Raft.Inflight

/-!
# What a leader does, operation by operation

An iteration of `_leader` sends heartbeats, sends entries again, handles a message
and appends a client request, each in a loop over the nodes. `LeaderOp` lists the
elementary operations all this is made of; an invariant is then checked on them
instead of on the loops.

## Main results

* `broadcastAppendEntries_ops`, `leaderAcknowledge_ops`, `resend_ops` — the parts of
  an iteration are sequences of operations
* `leader_cases` — an iteration is a sequence of operations, which may end in the
  node yielding to a candidate of a higher term
* `maxCommittableIndex_le` — no match index is below the index a leader commits
-/

namespace DreamboatRpc.Raft.Node

open Relation

variable {n : ℕ} {V : Type*}

/-- An elementary operation of a leader that appends only entries in `Offers` and
credits a node only with indices in `Credits`. -/
inductive LeaderOp (Offers : Entry V → Prop) (Credits : Fin n → ℕ → Prop) :
    Node n V → Node n V → Prop
  | hold (nd : Node n V) (message : Option (Message n V)) :
      LeaderOp Offers Credits nd { nd with incomingMessage := message }
  | heartbeat (nd : Node n V) : LeaderOp Offers Credits nd nd.sendHeartbeat
  | sendEntry (nd : Node n V) (node : Fin n) (index : ℕ) (prev entry : Entry V) :
      nd.log[index]? = some prev → nd.log[index + 1]? = some entry →
      LeaderOp Offers Credits nd (nd.sendAppendEntries index prev.term entry node)
  | crash (nd : Node n V) : LeaderOp Offers Credits nd { nd with loop := .crashed }
  | next (nd : Node n V) (next : Fin n → Option ℕ) : (∀ q k, next q = some k → 1 ≤ k) →
      LeaderOp Offers Credits nd { nd with nextIndex := next }
  | credit (nd : Node n V) (q : Fin n) (k : ℕ) : Credits q k →
      LeaderOp Offers Credits nd { nd with matchIndex := Function.update nd.matchIndex q k }
  | commit (nd : Node n V) (index : ℕ) (e : Entry V) : (∀ q, index ≤ nd.matchIndex q) →
      nd.commitIndex < index → nd.log[index]? = some e →
      LeaderOp Offers Credits nd (nd.commitEntry index e.term)
  | committal (nd : Node n V) (node : Fin n) :
      LeaderOp Offers Credits nd (nd.sendCommittal node)
  | append (nd : Node n V) (entry : Entry V) : Offers entry →
      LeaderOp Offers Credits nd
        { nd with log := nd.log ++ [entry], logHash := (entry.id, entry) :: nd.logHash }
  | matchSelf (nd : Node n V) : LeaderOp Offers Credits nd
      { nd with matchIndex := Function.update nd.matchIndex nd.myId nd.logMaxIndex }

/-- A sequence of operations. -/
abbrev LeaderOps (Offers : Entry V → Prop) (Credits : Fin n → ℕ → Prop) :
    Node n V → Node n V → Prop :=
  ReflTransGen (LeaderOp Offers Credits)

/-- The log has its initial entry, and no next index points at it. -/
structure Ready (nd : Node n V) : Prop where
  log : nd.log ≠ []
  nextIndex : ∀ q k, nd.nextIndex q = some k → 1 ≤ k

variable {O : Entry V → Prop} {C : Fin n → ℕ → Prop} {nd nd' : Node n V}

theorem Ready.op (h : nd.Ready) (hop : LeaderOp O C nd nd') : nd'.Ready := by
  cases hop with
  | next next hnext => exact ⟨h.log, hnext⟩
  | append entry _ => exact ⟨by simp, h.nextIndex⟩
  | _ => exact ⟨h.log, h.nextIndex⟩

theorem Ready.ops (h : nd.Ready) (hops : LeaderOps O C nd nd') : nd'.Ready := by
  induction hops with
  | refl => exact h
  | tail _ hop ih => exact ih.op hop

theorem Ready.update_nextIndex (h : nd.Ready) {q : Fin n} {next : Option ℕ}
    (hnext : ∀ k, next = some k → 1 ≤ k) :
    ∀ r k, Function.update nd.nextIndex q next r = some k → 1 ≤ k := by
  intro r k hr
  rw [Function.update_apply] at hr
  split at hr
  · exact hnext k hr
  · exact h.nextIndex r k hr

/-- A loop whose body is a sequence of operations is one. -/
theorem foldl_ops {α : Type*} (l : List α) {f : Node n V → α → Node n V}
    (hf : ∀ nd, nd.Ready → ∀ a ∈ l, LeaderOps O C nd (f nd a)) (hnd : nd.Ready) :
    LeaderOps O C nd (l.foldl f nd) :=
  List.foldlRecOn l f (motive := LeaderOps O C nd) .refl
    fun nd' hops a ha => hops.trans (hf nd' (hnd.ops hops) a ha)

/-! ## Sending entries -/

theorem sendEntryAt_ops (node : Fin n) {index : ℕ} (hindex : 1 ≤ index) :
    LeaderOps O C nd (nd.sendEntryAt node index) := by
  unfold sendEntryAt
  split
  · rename_i prev entry hprev hentry
    -- an index of at least 1 has a predecessor, so Python reads no entry from the end
    refine .single (.sendEntry nd node (index - 1) prev entry hprev ?_)
    rwa [Nat.sub_add_cancel hindex]
  · exact .single (.crash nd)

theorem resend_ops (hnd : nd.Ready) (expired : Fin n → Bool) :
    LeaderOps O C nd (nd.resend expired) := by
  refine foldl_ops _ (fun nd hnd node _ => ?_) hnd
  unfold resendTo
  split
  · rename_i index hindex
    split
    · exact sendEntryAt_ops node (hnd.nextIndex node index hindex)
    · exact .refl
  · exact .refl

/-- The resend loop changes nothing but the talker, and the thread may end in it. -/
theorem resend_eq (nd : Node n V) (expired : Fin n → Bool) :
    ∃ talker loop, nd.resend expired = { nd with talker := talker, loop := loop } := by
  refine List.foldlRecOn (motive := fun nd' : Node n V =>
    ∃ talker loop, nd' = { nd with talker := talker, loop := loop }) _ _ ⟨_, _, rfl⟩ ?_
  rintro _ ⟨talker, loop, rfl⟩ node _
  unfold resendTo sendEntryAt
  split
  · split
    · split
      · exact ⟨_, _, rfl⟩
      · exact ⟨_, _, rfl⟩
    · exact ⟨_, _, rfl⟩
  · exact ⟨_, _, rfl⟩

theorem leaderSends_ops (hnd : nd.Ready) (heartbeat : Bool) (expired : Fin n → Bool) :
    LeaderOps O C nd (nd.leaderSends heartbeat expired) := by
  have hheartbeat : LeaderOps O C nd (if heartbeat then nd.sendHeartbeat else nd) := by
    split
    · exact .single (.heartbeat nd)
    · exact .refl
  exact hheartbeat.trans (resend_ops (hnd.ops hheartbeat) expired)

/-- Before it looks for a message a leader only sends, and the thread may end. -/
theorem leaderSends_eq (nd : Node n V) (heartbeat : Bool) (expired : Fin n → Bool) :
    ∃ talker loop, nd.leaderSends heartbeat expired =
      { nd with talker := talker, loop := loop } := by
  have hheartbeat : ∃ talker, (if heartbeat then nd.sendHeartbeat else nd) =
      { nd with talker := talker } := by
    split
    · exact ⟨_, rfl⟩
    · exact ⟨_, rfl⟩
  obtain ⟨talker, heq⟩ := hheartbeat
  obtain ⟨talker', loop', hresend⟩ := resend_eq { nd with talker := talker } expired
  exact ⟨talker', loop', by rw [leaderSends, heq, hresend]⟩

/-! ## Appending an entry -/

/-- The node after `_append_entry` at the end of the log. -/
def appended (nd : Node n V) (entry : Entry V) : Node n V :=
  { nd with log := nd.log ++ [entry], logHash := (entry.id, entry) :: nd.logHash }

theorem appendEntry_none (nd : Node n V) (entry : Entry V) :
    nd.appendEntry entry false none = (nd.appended entry, nd.logMaxIndex, nd.lastLogTerm) :=
  rfl

theorem getElem?_logMaxIndex (hlog : nd.log ≠ []) :
    ∃ prev, nd.log[nd.logMaxIndex]? = some prev ∧ prev.term = nd.lastLogTerm := by
  refine ⟨nd.log.getLast hlog, ?_, by simp [lastLogTerm, List.getLast?_eq_getLast_of_ne_nil hlog]⟩
  rw [logMaxIndex, ← List.getLast?_eq_getElem?]
  exact List.getLast?_eq_getLast_of_ne_nil hlog

/-- The loop of `_broadcast_append_entries` only sends, and sets next indices. -/
theorem offerEntry_foldl_eq (nd : Node n V) (index term : ℕ) (entry : Entry V)
    (l : List (Fin n)) :
    ∃ talker next, l.foldl (offerEntry index term entry) nd =
      { nd with talker := talker, nextIndex := next } := by
  refine List.foldlRecOn (motive := fun nd' : Node n V =>
    ∃ talker next, nd' = { nd with talker := talker, nextIndex := next }) _ _ ⟨_, _, rfl⟩ ?_
  rintro _ ⟨talker, next, rfl⟩ node _
  unfold offerEntry
  split <;> exact ⟨_, _, rfl⟩

/-- The loop of `_broadcast_append_entries`, with the new entry already in the log. -/
theorem offerEntry_foldl_ops (hnd : nd.Ready) {entry prev : Entry V} {index : ℕ}
    (hprev : nd.log[index]? = some prev) (hentry : nd.log[index + 1]? = some entry)
    (l : List (Fin n)) :
    LeaderOps O C nd (l.foldl (offerEntry index prev.term entry) nd) := by
  suffices h : ∀ nd' : Node n V, LeaderOps O C nd nd' ∧ nd'.log = nd.log →
      ∀ node, LeaderOps O C nd (offerEntry index prev.term entry nd' node) ∧
        (offerEntry index prev.term entry nd' node).log = nd.log from
    (List.foldlRecOn (motive := fun nd' => LeaderOps O C nd nd' ∧ nd'.log = nd.log)
      l _ ⟨.refl, rfl⟩ fun nd' h' node _ => h nd' h' node).1
  rintro nd' ⟨hops, hlog⟩ node
  unfold offerEntry
  split
  · refine ⟨(hops.tail (.sendEntry nd' node index prev entry ?_ ?_)).tail (.next _ _ ?_), hlog⟩
    · rwa [hlog]
    · rwa [hlog]
    · -- the new next index is that of the entry just appended
      refine (hnd.ops hops).update_nextIndex fun k hk => ?_
      have hlt := (List.getElem?_eq_some_iff.mp hentry).1
      simp only [Option.some.injEq, logMaxIndex, hlog] at hk
      omega
  · exact ⟨hops, hlog⟩

theorem updateOwnIndices_ops (hnd : nd.Ready) :
    LeaderOps O C nd nd.updateOwnIndices := by
  have hnext : LeaderOps O C nd
      { nd with nextIndex := Function.update nd.nextIndex nd.myId none } :=
    .single (.next nd _ (hnd.update_nextIndex fun k hk => by simp at hk))
  exact hnext.tail (.matchSelf _)

theorem broadcastAppendEntries_ops (hnd : nd.Ready) (entry : Entry V) (hentry : O entry) :
    LeaderOps O C nd (nd.broadcastAppendEntries entry) := by
  obtain ⟨prev, hprev, hterm⟩ := getElem?_logMaxIndex hnd.log
  have happend : LeaderOps O C nd (nd.appended entry) := .single (.append nd entry hentry)
  -- the last entry of the old log is the predecessor of the new one
  have hlen : nd.logMaxIndex + 1 = nd.log.length :=
    Nat.sub_add_cancel (List.length_pos_iff.mpr hnd.log)
  have hprev' : (nd.appended entry).log[nd.logMaxIndex]? = some prev := by
    simp only [appended]
    rw [List.getElem?_append_left (by omega)]
    exact hprev
  have hentry' : (nd.appended entry).log[nd.logMaxIndex + 1]? = some entry := by
    simp [appended, hlen]
  have hloop : LeaderOps O C (nd.appended entry) _ :=
    offerEntry_foldl_ops (hnd.ops happend) hprev' hentry' (List.finRange n)
  rw [hterm] at hloop
  have hready := (hnd.ops happend).ops hloop
  unfold broadcastAppendEntries
  rw [appendEntry_none]
  exact (happend.trans hloop).trans (updateOwnIndices_ops hready)

/-- A broadcast appends the entry and leaves term, role, vote and commit index alone. -/
theorem broadcastAppendEntries_eq (nd : Node n V) (entry : Entry V) :
    ∃ talker next reached, nd.broadcastAppendEntries entry =
      { nd.appended entry with talker := talker, nextIndex := next, matchIndex := reached } := by
  unfold broadcastAppendEntries
  rw [appendEntry_none]
  obtain ⟨talker, next, h⟩ := offerEntry_foldl_eq (nd.appended entry) nd.logMaxIndex
    nd.lastLogTerm entry (List.finRange n)
  simp only [h, updateOwnIndices]
  exact ⟨_, _, _, rfl⟩

/-! ## Committing -/

/-- An index no entry of the list is below is counted once for every entry. -/
theorem replicatedOn_of_forall_le {l : List ℕ} {index : ℕ} (h : ∀ i ∈ l, index ≤ i) :
    replicatedOn l index = l.length := by
  induction l with
  | nil => rfl
  | cons a l ih =>
    have ha : index ≤ a := h a (by simp)
    have hl := ih fun i hi => h i (List.mem_cons_of_mem _ hi)
    simp only [replicatedOn, List.map_cons, List.sum_cons, List.length_cons, if_pos ha] at hl ⊢
    omega

/-- The loop overwrites its result at every index that a majority has reached, and it
runs through the indices downwards, so it ends with the smallest one: the index a
leader commits has been reached by every node. -/
theorem maxCommittableIndex_isLeast (nd : Node n V) (q : Fin n) :
    IsLeast (Set.range nd.matchIndex) nd.maxCommittableIndex := by
  unfold maxCommittableIndex
  set l := (List.ofFn nd.matchIndex).insertionSort (· ≥ ·) with hl
  have hperm : l.Perm (List.ofFn nd.matchIndex) := List.perm_insertionSort _ _
  have hsorted : l.Pairwise (· ≥ ·) := List.pairwise_insertionSort _ _
  have hlen : l.length = n := by rw [hperm.length_eq, List.length_ofFn]
  have hne : l ≠ [] := by
    rw [← List.length_pos_iff, hlen]
    exact q.pos
  obtain ⟨front, x, hfront⟩ : ∃ front x, l = front ++ [x] :=
    ⟨l.dropLast, l.getLast hne, (List.dropLast_append_getLast hne).symm⟩
  have hx : ∀ i ∈ l, x ≤ i := by
    intro i hi
    rw [hfront] at hi hsorted
    rcases List.mem_append.mp hi with hi | hi
    · exact (List.pairwise_append.mp hsorted).2.2 i hi x (List.mem_singleton_self x)
    · rw [List.mem_singleton.mp hi]
  have hmajority : replicatedOn l x ≥ n / 2 + 1 := by
    rw [replicatedOn_of_forall_le hx, hlen]
    have := q.pos
    omega
  have hresult : l.foldl
      (fun acc index => if replicatedOn l index ≥ n / 2 + 1 then index else acc) 0 = x := by
    generalize replicatedOn l = count at hmajority
    rw [hfront, List.foldl_append, List.foldl_cons, List.foldl_nil, if_pos hmajority]
  rw [hresult]
  constructor
  · have hmem : x ∈ l := by
      rw [hfront]
      exact List.mem_append_right _ (List.mem_singleton_self x)
    exact Set.mem_range.mpr (List.mem_ofFn.mp (hperm.mem_iff.mp hmem))
  · rintro _ ⟨r, rfl⟩
    exact hx _ (hperm.mem_iff.mpr (List.mem_ofFn.mpr ⟨r, rfl⟩))

theorem maxCommittableIndex_le (nd : Node n V) (q : Fin n) :
    nd.maxCommittableIndex ≤ nd.matchIndex q :=
  (nd.maxCommittableIndex_isLeast q).2 (Set.mem_range_self q)

/-- A commit broadcast only commits and sends. -/
theorem sendCommittal_foldl_eq (nd : Node n V) (l : List (Fin n)) :
    ∃ talker, l.foldl sendCommittal nd = { nd with talker := talker } := by
  refine List.foldlRecOn (motive := fun nd' : Node n V =>
    ∃ talker, nd' = { nd with talker := talker }) _ _ ⟨_, rfl⟩ ?_
  rintro _ ⟨talker, rfl⟩ node _
  exact ⟨_, rfl⟩

theorem commitCommittable_ops (hnd : nd.Ready) :
    LeaderOps O C nd nd.commitCommittable := by
  unfold commitCommittable
  split
  · rename_i hlt
    unfold broadcastCommmitEntries
    split
    · exact .single (.crash nd)
    · rename_i e he
      have hcommit : LeaderOp O C nd _ :=
        .commit nd nd.maxCommittableIndex e nd.maxCommittableIndex_le hlt he
      exact .head hcommit (foldl_ops _ (fun nd _ node _ => .single (.committal nd node))
        (hnd.op hcommit))
  · exact .refl

/-! ## Handling an acknowledge -/

theorem creditAcknowledge_ops (hnd : nd.Ready) {sender : Fin n} {index : ℕ} {success : Bool}
    (hindex : 1 ≤ index) (hcredit : success = true → C sender index) :
    LeaderOps O C nd (nd.creditAcknowledge sender index success) := by
  unfold creditAcknowledge
  split
  · rename_i hsuccess
    have hmatch : LeaderOps O C nd
        { nd with matchIndex := Function.update nd.matchIndex sender index } :=
      .single (.credit nd sender index (hcredit hsuccess))
    refine hmatch.tail (.next _ _ (hnd.update_nextIndex fun k hk => ?_))
    simp only [Option.some.injEq] at hk
    omega
  · split
    · rename_i hne
      refine .single (.next nd _ (hnd.update_nextIndex fun k hk => ?_))
      simp only [Option.some.injEq] at hk
      omega
    · exact .refl

theorem bringUpToDate_ops (hnd : nd.Ready) (node : Fin n) :
    LeaderOps O C nd (nd.bringUpToDate node) := by
  unfold bringUpToDate
  split
  · exact .refl
  · rename_i next hnext
    split
    · exact .single (.next nd _ (hnd.update_nextIndex fun k hk => by simp at hk))
    · exact sendEntryAt_ops node (hnd.nextIndex node next hnext)

theorem leaderAcknowledge_ops (hnd : nd.Ready) {sender : Fin n} {success : Bool}
    (hcredit : ∀ k, success = true → nd.nextIndex sender = some k → C sender k) :
    LeaderOps O C nd (nd.leaderAcknowledge sender success) := by
  unfold leaderAcknowledge
  split
  · exact .refl
  · rename_i index hindex
    -- first the indices, then the next entry, then the commit
    have hcredited := creditAcknowledge_ops (O := O) hnd
      (hnd.nextIndex sender index hindex) fun hs => hcredit index hs hindex
    have hsent := hcredited.trans (bringUpToDate_ops (hnd.ops hcredited) sender)
    simp only
    split
    · exact hsent
    · exact hsent.trans (commitCommittable_ops (hnd.ops hsent))

/-! ## Taking office -/

/-- A new leader after its first heartbeat, with its indices reset. -/
def inaugurated (nd : Node n V) : Node n V :=
  { nd.sendHeartbeat with
    leaderId := some nd.myId
    matchIndex := fun _ => nd.commitIndex
    nextIndex := fun _ => none }

/-- The entry a new leader broadcasts first. -/
def noop [EmptyCollection V] (nd : Node n V) : Entry V :=
  { term := nd.currentTerm, entry := {}, id := -1 }

theorem enterLeader_eq [EmptyCollection V] (nd : Node n V) :
    nd.enterLeader = { nd.inaugurated.broadcastAppendEntries nd.noop with loop := .leader } :=
  rfl

theorem Ready.inaugurated (h : nd.Ready) : nd.inaugurated.Ready :=
  ⟨h.log, by simp [Node.inaugurated]⟩

theorem enterLeader_log [EmptyCollection V] (nd : Node n V) :
    nd.enterLeader.log = nd.log ++ [nd.noop] := by
  obtain ⟨talker, next, reached, heq⟩ := broadcastAppendEntries_eq nd.inaugurated nd.noop
  rw [enterLeader_eq, heq]
  rfl

/-! ## A whole iteration -/

/-- The operations leave the client queue alone. -/
theorem LeaderOps.clientQueue (hops : LeaderOps O C nd nd') :
    nd'.clientQueue = nd.clientQueue := by
  induction hops with
  | refl => rfl
  | tail _ hop ih => cases hop <;> exact ih

theorem LeaderOps.currentTerm (hops : LeaderOps O C nd nd') :
    nd'.currentTerm = nd.currentTerm := by
  induction hops with
  | refl => rfl
  | tail _ hop ih => cases hop <;> exact ih

/-- A leader only adds to its log and to what it has committed. -/
theorem LeaderOps.grows (hops : LeaderOps O C nd nd') :
    nd.log <+: nd'.log ∧ nd.commitIndex ≤ nd'.commitIndex := by
  induction hops with
  | refl => exact ⟨List.prefix_rfl, le_rfl⟩
  | tail _ hop ih =>
    obtain ⟨hlog, hcommit⟩ := ih
    cases hop with
    | commit index e _ hlt _ => exact ⟨hlog, hcommit.trans hlt.le⟩
    | append entry _ => exact ⟨hlog.trans (List.prefix_append _ _), hcommit⟩
    | _ => exact ⟨hlog, hcommit⟩

/-- What a leader appends was offered to it. -/
theorem LeaderOps.log (hops : LeaderOps O C nd nd') :
    ∃ new, nd'.log = nd.log ++ new ∧ ∀ e ∈ new, O e := by
  induction hops with
  | refl => exact ⟨[], by simp, by simp⟩
  | tail _ hop ih =>
    obtain ⟨new, hlog, hoffered⟩ := ih
    cases hop with
    | append entry hentry =>
      -- the only operation that changes the log
      refine ⟨new ++ [entry], by simp [hlog], fun e he => ?_⟩
      rcases List.mem_append.mp he with he | he
      · exact hoffered e he
      · rwa [List.mem_singleton.mp he]
    | _ => exact ⟨new, hlog, hoffered⟩

theorem leaderMessage_cases (hnd : nd.Ready) (sender : Fin n) (message : Message n V)
    (hoffer : ∀ t e, message = .clientRequest t e → O e)
    (hcredit : ∀ t k, message = .acknowledge t true → nd.nextIndex sender = some k →
      C sender k) :
    LeaderOps O C nd (nd.leaderMessage sender message) ∨
    ∃ term i t, message = .requestVotes term i t ∧ nd.currentTerm < term ∧
      nd.leaderMessage sender message = nd.yieldTo sender term := by
  cases message with
  | acknowledge term success =>
    exact .inl (leaderAcknowledge_ops hnd fun k hs hk => hcredit term k (by rw [hs]) hk)
  | clientRequest term entries =>
    exact .inl (broadcastAppendEntries_ops hnd entries (hoffer term entries rfl))
  | requestVotes term i t =>
    simp only [leaderMessage]
    split
    · rename_i hlt
      exact .inr ⟨term, i, t, rfl, hlt, rfl⟩
    · exact .inl .refl
  | _ => exact .inl .refl

/-- What an iteration of `_leader` amounts to: some operations; or some operations
and then yielding to a candidate of a higher term; or some operations, taking a
client request off the queue, and further operations that append it. -/
theorem leader_cases (hrole : nd.currentRole = .leader)
    (hnd : nd.Ready) (heartbeat : Bool) (expired : Fin n → Bool)
    (incoming : Option (Fin n × Message n V))
    (hoffer : ∀ q t e, incoming = some (q, .clientRequest t e) → O e)
    (hcredit : ∀ q t k, incoming = some (q, .acknowledge t true) → nd.nextIndex q = some k →
      C q k) :
    ∃ nd₁, LeaderOps O C nd nd₁ ∧
      (nd.leader heartbeat expired incoming = nd₁ ∨
      (∃ q term i t, incoming = some (q, .requestVotes term i t) ∧ nd.currentTerm < term ∧
        nd.leader heartbeat expired incoming = nd₁.yieldTo q term) ∨
      (∃ entry rest, nd.clientQueue = entry :: rest ∧ nd₁.loop = .leader ∧
        (∀ q term i t, incoming = some (q, .requestVotes term i t) → term ≤ nd.currentTerm) ∧
        nd.leader heartbeat expired incoming =
          { nd₁ with clientQueue := rest }.broadcastAppendEntries entry)) := by
  unfold leader
  rw [if_pos hrole]
  -- the heartbeat and the resend loop
  have hops₁ : LeaderOps O C nd (nd.leaderSends heartbeat expired) :=
    leaderSends_ops hnd heartbeat expired
  obtain ⟨talker₁, loop₁, hsame₁⟩ := leaderSends_eq nd heartbeat expired
  set nd₁ := nd.leaderSends heartbeat expired with hnd₁
  have hnext₁ : nd₁.nextIndex = nd.nextIndex := by rw [hsame₁]
  have hterm₁ : nd₁.currentTerm = nd.currentTerm := by rw [hsame₁]
  simp only
  by_cases hloop₁ : nd₁.loop = .leader
  swap
  · rw [if_neg hloop₁]
    exact ⟨nd₁, hops₁, .inl rfl⟩
  rw [if_pos hloop₁]
  -- the message, and after it the client queue
  have hend : ∀ nd₂ : Node n V, LeaderOps O C nd nd₂ →
      (∀ q term i t, incoming = some (q, .requestVotes term i t) → term ≤ nd.currentTerm) →
      ∃ nd₃, LeaderOps O C nd nd₃ ∧
        ((if nd₂.loop = .leader then nd₂.leaderClientRequest else nd₂) = nd₃ ∨
        (∃ q term i t, incoming = some (q, .requestVotes term i t) ∧ nd.currentTerm < term ∧
          (if nd₂.loop = .leader then nd₂.leaderClientRequest else nd₂) = nd₃.yieldTo q term) ∨
        (∃ entry rest, nd.clientQueue = entry :: rest ∧ nd₃.loop = .leader ∧
          (∀ q term i t, incoming = some (q, .requestVotes term i t) → term ≤ nd.currentTerm) ∧
          (if nd₂.loop = .leader then nd₂.leaderClientRequest else nd₂) =
            { nd₃ with clientQueue := rest }.broadcastAppendEntries entry)) := by
    intro nd₂ hops₂ hyield
    refine ⟨nd₂, hops₂, ?_⟩
    by_cases hloop₂ : nd₂.loop = .leader
    · rw [if_pos hloop₂, leaderClientRequest, hops₂.clientQueue]
      cases hqueue : nd.clientQueue with
      | nil => exact .inl rfl
      | cons entry rest => exact .inr (.inr ⟨entry, rest, rfl, hloop₂, hyield, rfl⟩)
    · rw [if_neg hloop₂]
      exact .inl rfl
  cases incoming with
  | none => exact hend nd₁ hops₁ (by simp)
  | some m =>
    obtain ⟨q, message⟩ := m
    have hhold := hops₁.tail (.hold nd₁ (some message))
    obtain hops₂ | ⟨term, i, t, hmessage, hlt, heq⟩ :=
      leaderMessage_cases (O := O) (C := C) (hnd.ops hhold) q message
        (fun t e (h : message = _) => hoffer q t e (by rw [h]))
        (fun t k h hk => hcredit q t k (by rw [h]) (by rwa [hnext₁] at hk))
    · by_cases hyield : ∀ q' term i t, some (q, message) = some (q', .requestVotes term i t) →
          term ≤ nd.currentTerm
      · exact hend _ (hhold.trans hops₂) hyield
      · -- a request of a higher term makes the leader yield, whatever the operations are
        simp only [not_forall] at hyield
        obtain ⟨q', term, i, t, heq, hlt⟩ := hyield
        simp only [Option.some.injEq, Prod.mk.injEq] at heq
        obtain ⟨rfl, rfl⟩ := heq
        refine ⟨_, hhold, .inr (.inl ⟨q, term, i, t, rfl, by omega, ?_⟩)⟩
        have hgt : term > nd₁.currentTerm := by omega
        simp [receive, leaderMessage, yieldTo, hgt]
    · refine ⟨_, hhold, .inr (.inl ⟨q, term, i, t, by rw [hmessage], by
        simpa [hterm₁] using hlt, ?_⟩)⟩
      simp only [receive, heq]
      simp [yieldTo]

end DreamboatRpc.Raft.Node
