import DreamboatRpc.CS.Agreement
import DreamboatRpc.Raft.Handling
import DreamboatRpc.Raft.Leadership

/-!
# Bringing a follower up to date

A leader that has sent a follower its last entry goes back one entry at every refusal and
on by one at every acceptance, while the follower cuts its log back at each acceptance. Left
alone the two end with the same log: going back stops at the first index up to which the
logs agree, and from there on every entry is accepted.

## Main definitions

* `CatchUp` — the leader, the follower and the entries on their way
* `CatchUp.exchange` — the follower handles an entry and the leader the answer
* `CatchUp.run` — a number of exchanges
* `Sending` — the entry at a certain index is on its way

## Main results

* `Sending.accepted`, `Sending.refused` — what one exchange does
* `Sending.climbs`, `Sending.converges` — from agreement upwards, and from anywhere
* `catch_up` — a follower is brought up to date with less than two messages an entry
-/

namespace DreamboatRpc.Raft

open CS FifoNetwork

variable {n : ℕ} {V : Type*}

/-! ## The exchange -/

/-- An entry for a follower. -/
def Message.isAppendEntries : Message n V → Bool
  | .appendEntries _ _ _ _ _ _ => true
  | .requestVotes _ _ _ | .vote _ _ | .heartbeat _ _ | .committal _ _ _ | .acknowledge _ _
  | .clientRequest _ _ => false

/-- An answer of a follower. -/
def Message.isAcknowledge : Message n V → Bool
  | .acknowledge _ _ => true
  | .requestVotes _ _ _ | .vote _ _ | .heartbeat _ _ | .appendEntries _ _ _ _ _ _
  | .committal _ _ _ | .clientRequest _ _ => false

/-- What a node has put in its talker for `q`. -/
def Node.outbox (nd : Node n V) (q : Fin n) : List (Message n V) :=
  (addressedTo q nd.talker).map Packet.message

/-- A leader, a follower, and the entries under way from the one to the other. -/
structure CatchUp (n : ℕ) (V : Type*) where
  leader : Node n V
  follower : Node n V
  sent : List (Message n V)

namespace CatchUp

/-- The leader has sent the follower the entry at its next index. -/
def start (leader follower : Node n V) (next : ℕ) : CatchUp n V where
  leader := leader
  follower := follower
  sent := (({ leader with talker := [] } : Node n V).sendEntryAt follower.myId next).outbox
    follower.myId

/-- The follower handles the oldest entry, the leader its answer, and what the leader sends
the follower then is on its way; all other messages are left out. -/
def exchange (s : CatchUp n V) : Option (CatchUp n V) :=
  match s.sent with
  | [] => none
  | message :: rest =>
    let follower := ({ s.follower with talker := [] } : Node n V).handle s.leader.myId message
    let answers := (follower.outbox s.leader.myId).filter Message.isAcknowledge
    let leader := answers.foldl (fun nd answer => nd.handle follower.myId answer)
      ({ s.leader with talker := [] } : Node n V)
    let entries := (leader.outbox follower.myId).filter Message.isAppendEntries
    some { leader := leader, follower := follower, sent := rest ++ entries }

/-- At most `k` exchanges. -/
def run : ℕ → CatchUp n V → CatchUp n V
  | 0, s => s
  | k + 1, s =>
    match s.exchange with
    | none => s
    | some t => run k t

variable {s t : CatchUp n V}

theorem run_succ (k : ℕ) (h : s.exchange = some t) : run (k + 1) s = run k t := by
  simp only [run, h]

/-- Without entries under way nothing happens any more. -/
theorem run_of_sent_nil (k : ℕ) (h : s.sent = []) : run k s = s := by
  cases k with
  | zero => rfl
  | succ k =>
    have hnone : s.exchange = none := by simp only [exchange, h]
    simp only [run, hnone]

end CatchUp

/-! ## What the two sides send -/

namespace Node

variable {nd : Node n V} {q r : Fin n} {k : ℕ}

theorem outbox_append (nd : Node n V) {nd' : Node n V} {out : List (Option (Fin n) × Packet n V)}
    (h : nd'.talker = nd.talker ++ out) :
    nd'.outbox q = nd.outbox q ++ (addressedTo q out).map Packet.message := by
  rw [outbox, outbox, h, addressedTo_append, List.map_append]

theorem outbox_sendMessage_self (message : Message n V) :
    (nd.sendMessage (some q) message).outbox q = nd.outbox q ++ [message] := by
  rw [outbox_append nd rfl]
  simp [addressedTo]

/-- Committals are not entries. -/
theorem sendCommittal_outbox (nd : Node n V) :
    ((nd.sendCommittal r).outbox q).filter Message.isAppendEntries =
      (nd.outbox q).filter Message.isAppendEntries := by
  rw [sendCommittal, sendMessage, outbox_append nd rfl, List.filter_append]
  by_cases hr : r = q
  · simp [addressedTo, hr, Message.isAppendEntries]
  · simp [addressedTo, hr]

theorem sendCommittal_foldl_outbox (l : List (Fin n)) (nd : Node n V) :
    ((l.foldl sendCommittal nd).outbox q).filter Message.isAppendEntries =
      (nd.outbox q).filter Message.isAppendEntries := by
  induction l generalizing nd with
  | nil => rfl
  | cons r l ih => rw [List.foldl_cons, ih, sendCommittal_outbox]

/-- A commit sends no entries. -/
theorem commitCommittable_outbox (nd : Node n V) :
    (nd.commitCommittable.outbox q).filter Message.isAppendEntries =
      (nd.outbox q).filter Message.isAppendEntries := by
  unfold commitCommittable
  split
  · unfold broadcastCommmitEntries
    split
    · rfl
    · rw [sendCommittal_foldl_outbox]
      rfl
  · rfl

/-- A follower answers an entry with one acknowledge, and says whether it has accepted it. -/
theorem handle_appendEntries (nd : Node n V) (q : Fin n) (h : nd.loop = .follower)
    (htalker : nd.talker = []) (term : ℕ) (leaderId : Fin n) (prevLogIndex prevLogTerm : ℕ)
    (entries : Entry V) (leaderCommit : ℕ) :
    ∃ nd', nd.handle q (.appendEntries term leaderId prevLogIndex prevLogTerm entries
        leaderCommit) = nd' ∧ nd'.loop = .follower ∧ nd'.myId = nd.myId ∧
      nd'.currentTerm = nd.currentTerm ∧
      nd'.log = (if nd.acceptsAppendEntries term prevLogIndex prevLogTerm then
        nd.log.take (prevLogIndex + 1) ++ [entries] else nd.log) ∧
      (nd'.outbox leaderId).filter Message.isAcknowledge =
        [.acknowledge nd.currentTerm (nd.acceptsAppendEntries term prevLogIndex prevLogTerm)] := by
  have hempty : ∀ nd₁ : Node n V, nd₁.talker = nd.talker → nd₁.outbox leaderId = [] := by
    intro nd₁ h₁
    rw [outbox, h₁, htalker]
    rfl
  refine ⟨_, rfl, ?_⟩
  rw [handle_follower _ _ h]
  simp only [followerMessage]
  rw [followerAppendEntries_log]
  unfold followerAppendEntries
  split
  · rename_i haccepts
    generalize hcommit : decide (leaderCommit > nd.commitIndex) = commit
    have hsame : ∀ nd₁ : Node n V, nd₁ = (nd.appendEntry entries commit (some prevLogIndex)).1 →
        nd₁.talker = nd.talker ∧ nd₁.loop = nd.loop ∧ nd₁.myId = nd.myId ∧
          nd₁.currentTerm = nd.currentTerm := by
      rintro _ rfl
      simp only [appendEntry]
      split <;> exact ⟨rfl, rfl, rfl, rfl⟩
    obtain ⟨htalker', hloop', hid', hterm'⟩ := hsame _ rfl
    refine ⟨hloop'.trans h, hid', hterm', rfl, ?_⟩
    rw [sendAcknowledge, outbox_sendMessage_self, hempty _ htalker', hterm', haccepts]
    rfl
  · rename_i hrefuses
    refine ⟨h, rfl, rfl, rfl, ?_⟩
    rw [sendAcknowledge, outbox_sendMessage_self, hempty _ rfl, eq_false_of_ne_true hrefuses]
    rfl

theorem verifyEntry_iff {index term : ℕ} :
    nd.verifyEntry index term = true ↔ ∃ e, nd.log[index]? = some e ∧ e.term = term := by
  unfold verifyEntry
  cases nd.log[index]? with
  | none => simp
  | some e => simp

/-- The next index of a node after an acknowledge. -/
def nextAfter (k : ℕ) (success : Bool) : ℕ :=
  if success then k + 1 else if k ≠ 1 then k - 1 else k

theorem nextAfter_true (k : ℕ) : nextAfter k true = k + 1 := rfl

theorem nextAfter_false (hk : k ≠ 1) : nextAfter k false = k - 1 := by
  simp [nextAfter, hk]

theorem creditAcknowledge_eq (nd : Node n V) (hnext : nd.nextIndex q = some k) (success : Bool) :
    nd.creditAcknowledge q k success = { nd with
      matchIndex := Function.update nd.matchIndex q (if success then k else nd.matchIndex q)
      nextIndex := Function.update nd.nextIndex q (some (nextAfter k success)) } := by
  have hself : Function.update nd.nextIndex q (some k) = nd.nextIndex := by
    rw [← hnext, Function.update_eq_self]
  unfold creditAcknowledge nextAfter
  by_cases hsuccess : success = true
  · simp only [if_pos hsuccess]
  · rw [if_neg hsuccess]
    simp only [if_neg hsuccess, Function.update_eq_self]
    split
    · rfl
    · rw [hself]

/-- A commit inside the log changes nothing that matters to the next entry. -/
theorem commitCommittable_frame (nd : Node n V) (hinside : ∃ r, nd.matchIndex r < nd.log.length) :
    nd.commitCommittable.loop = nd.loop ∧ nd.commitCommittable.myId = nd.myId ∧
      nd.commitCommittable.currentTerm = nd.currentTerm ∧ nd.commitCommittable.log = nd.log ∧
      nd.commitCommittable.matchIndex = nd.matchIndex ∧
      nd.commitCommittable.nextIndex = nd.nextIndex := by
  obtain ⟨r, hr⟩ := hinside
  obtain ⟨talker, index, applied, term, -, heq⟩ :=
    commitCommittable_eq ((nd.maxCommittableIndex_le r).trans_lt hr)
  rw [heq]
  exact ⟨rfl, rfl, rfl, rfl, rfl, rfl⟩

/-- The leader goes on with its log, and what it has sent `q` is the entry at `k`, or nothing
if its log ends there. -/
structure Offers (nd nd' : Node n V) (q : Fin n) (k : ℕ) : Prop where
  loop : nd'.loop = .leader
  myId : nd'.myId = nd.myId
  currentTerm : nd'.currentTerm = nd.currentTerm
  log : nd'.log = nd.log
  offer : (k < nd.log.length ∧ nd'.nextIndex q = some k ∧
      ∃ prev entry, nd.log[k - 1]? = some prev ∧ nd.log[k]? = some entry ∧
        (nd'.outbox q).filter Message.isAppendEntries = [.appendEntries nd.currentTerm nd.myId
          (k - 1) prev.term entry nd.commitIndex]) ∨
    (k = nd.log.length ∧ nd'.nextIndex q = none ∧
      (nd'.outbox q).filter Message.isAppendEntries = [])

/-- What a leader sends a node whose next index has just been set, and the commit after it. -/
theorem bringUpToDate_commit (nd : Node n V) (h : nd.loop = .leader) (htalker : nd.talker = [])
    (hinside : ∃ r, nd.matchIndex r < nd.log.length) (hnext : nd.nextIndex q = some k)
    (hk : 1 ≤ k ∧ k ≤ nd.log.length) :
    ∃ nd', (if (nd.bringUpToDate q).loop = .crashed then nd.bringUpToDate q
        else (nd.bringUpToDate q).commitCommittable) = nd' ∧ nd.Offers nd' q k ∧
      nd'.matchIndex = nd.matchIndex := by
  have hempty : nd.outbox q = [] := by
    rw [outbox, htalker]
    rfl
  refine ⟨_, rfl, ?_⟩
  by_cases hlast : k = nd.log.length
  · -- nothing is left to send
    have hgt : k > nd.logMaxIndex := by
      rw [logMaxIndex]
      omega
    rw [bringUpToDate_of_gt hnext hgt]
    set done : Node n V := { nd with nextIndex := Function.update nd.nextIndex q none }
    have hloop : done.loop = .leader := h
    rw [if_neg (by simp [hloop])]
    obtain ⟨hloop', hid, hterm, hlog, hmatch, hnext'⟩ :=
      done.commitCommittable_frame hinside
    refine ⟨⟨hloop'.trans h, hid, hterm, hlog, .inr ⟨hlast, ?_, ?_⟩⟩, hmatch⟩
    · rw [hnext']
      exact Function.update_self ..
    · rw [commitCommittable_outbox]
      change (nd.outbox q).filter _ = []
      rw [hempty]
      rfl
  · have hle : k ≤ nd.logMaxIndex := by
      rw [logMaxIndex]
      omega
    obtain ⟨prev, entry, hprev, hentry, hsend⟩ := nd.sendEntryAt_eq q ⟨hk.1, by omega⟩
    rw [bringUpToDate_of_le hnext hle, hsend]
    set offered := nd.sendAppendEntries (k - 1) prev.term entry q with hoffered
    have hloop : offered.loop = .leader := h
    rw [if_neg (by simp [hloop])]
    obtain ⟨hloop', hid, hterm, hlog, hmatch, hnext'⟩ :=
      offered.commitCommittable_frame hinside
    refine ⟨⟨hloop'.trans h, hid, hterm, hlog, .inl ⟨by omega, hnext' ▸ hnext, prev, entry,
      hprev, hentry, ?_⟩⟩, hmatch⟩
    rw [commitCommittable_outbox, hoffered, sendAppendEntries, outbox_sendMessage_self, hempty]
    rfl

/-- A leader that gets an acknowledge of a node it has an entry for sends the next one, as
long as there is one. -/
theorem handle_acknowledge (nd : Node n V) (q : Fin n) (h : nd.loop = .leader)
    (htalker : nd.talker = []) (hinside : ∃ r, nd.matchIndex r < nd.log.length)
    (hnext : nd.nextIndex q = some k) (hk : 1 ≤ k ∧ k < nd.log.length) (term : ℕ)
    (success : Bool) :
    ∃ nd', nd.handle q (.acknowledge term success) = nd' ∧
      nd.Offers nd' q (nextAfter k success) ∧ (∃ r, nd'.matchIndex r < nd.log.length) ∧
      (success = true → nd'.matchIndex q = k) := by
  have hbounds : 1 ≤ nextAfter k success ∧ nextAfter k success ≤ nd.log.length := by
    unfold nextAfter
    split
    · omega
    · split <;> omega
  -- some match index is still inside the log, so the index to commit is
  have hinside' : ∃ r, Function.update nd.matchIndex q
      (if success then k else nd.matchIndex q) r < nd.log.length := by
    obtain ⟨r, hr⟩ := hinside
    by_cases hrq : r = q
    · refine ⟨q, ?_⟩
      rw [Function.update_self]
      split
      · exact hk.2
      · rwa [hrq] at hr
    · exact ⟨r, by rwa [Function.update_of_ne hrq]⟩
  obtain ⟨nd', heq, hoffers, hmatch⟩ := bringUpToDate_commit
    { nd with
      matchIndex := Function.update nd.matchIndex q (if success then k else nd.matchIndex q)
      nextIndex := Function.update nd.nextIndex q (some (nextAfter k success)) }
    h htalker hinside' (Function.update_self ..) hbounds
  refine ⟨nd', ?_, ⟨hoffers.loop, hoffers.myId, hoffers.currentTerm, hoffers.log, hoffers.offer⟩,
    ?_, ?_⟩
  · rw [handle_leader _ _ h]
    simp only [leaderMessage, leaderAcknowledge, hnext, creditAcknowledge_eq nd hnext]
    exact heq
  · rw [hmatch]
    exact hinside'
  · rintro rfl
    rw [hmatch]
    simp

end Node

/-! ## Convergence -/

/-- The entry at index `k` of the leader's log `L` is on its way to the follower, which is not
in a later term than the leader. -/
structure Sending (L : List (Entry V)) (k : ℕ) (s : CatchUp n V) : Prop where
  leader : s.leader.loop = .leader
  follower : s.follower.loop = .follower
  log : s.leader.log = L
  term : s.follower.currentTerm ≤ s.leader.currentTerm
  inside : ∃ r, s.leader.matchIndex r < L.length
  next : s.leader.nextIndex s.follower.myId = some k
  bounds : 1 ≤ k ∧ k < L.length
  sent : ∃ prev entry commit, L[k - 1]? = some prev ∧ L[k]? = some entry ∧
    s.sent = [.appendEntries s.leader.currentTerm s.leader.myId (k - 1) prev.term entry commit]

/-- The follower has the log `L`, and the leader knows. -/
structure UpToDate (L : List (Entry V)) (s : CatchUp n V) : Prop where
  sent : s.sent = []
  follower : s.follower.log = L
  leader : s.leader.log = L
  loop : s.leader.loop = .leader
  next : s.leader.nextIndex s.follower.myId = none
  reached : s.leader.matchIndex s.follower.myId = L.length - 1

namespace Sending

variable {L : List (Entry V)} {k : ℕ} {s : CatchUp n V}

/-- One exchange: the follower answers, and the leader sends the next entry, if any. -/
theorem exchange (h : Sending L k s) :
    ∃ t prev entry success, L[k - 1]? = some prev ∧ L[k]? = some entry ∧ s.exchange = some t ∧
      success = s.follower.verifyEntry (k - 1) prev.term ∧ t.follower.myId = s.follower.myId ∧
      t.follower.log = (if success then s.follower.log.take k ++ [entry] else s.follower.log) ∧
      (success = true → t.leader.matchIndex s.follower.myId = k) ∧
      (Sending L (Node.nextAfter k success) t ∨
        (Node.nextAfter k success = L.length ∧ t.sent = [] ∧ t.leader.log = L ∧
          t.leader.loop = .leader ∧ t.leader.nextIndex s.follower.myId = none)) := by
  obtain ⟨prev, entry, commit, hprev, hentry, hsent⟩ := h.sent
  obtain ⟨hone, hlt⟩ := h.bounds
  set success := s.follower.verifyEntry (k - 1) prev.term with hsuccess
  -- the follower handles the entry
  obtain ⟨f, hf, hfloop, hfid, hfterm, hflog, hanswer⟩ := Node.handle_appendEntries
    { s.follower with talker := [] } s.leader.myId h.follower rfl
    s.leader.currentTerm s.leader.myId (k - 1) prev.term entry commit
  have haccepts : ({ s.follower with talker := [] } : Node n V).acceptsAppendEntries
      s.leader.currentTerm (k - 1) prev.term = success := by
    have hterm : decide (s.leader.currentTerm < s.follower.currentTerm) = false :=
      decide_eq_false (not_lt.mpr h.term)
    change (!decide (s.leader.currentTerm < s.follower.currentTerm) && success) = success
    rw [hterm]
    rfl
  rw [haccepts] at hflog hanswer
  -- and the leader its answer
  obtain ⟨l, hl, ⟨hlloop, hlid, hlterm, hllog, hnext⟩, hinside, hreached⟩ :=
    Node.handle_acknowledge { s.leader with talker := [] } s.follower.myId
      h.leader rfl (by rw [h.log]; exact h.inside) h.next (by rw [h.log]; exact h.bounds)
      s.follower.currentTerm success
  have hexchange : s.exchange =
      some ⟨l, f, (l.outbox f.myId).filter Message.isAppendEntries⟩ := by
    simp only [CatchUp.exchange, hsent, hf, hanswer, List.foldl_cons, List.foldl_nil,
      List.nil_append]
    rw [← hl, hfid]
  have hid : f.myId = s.follower.myId := hfid
  simp only [h.log] at hllog hinside hnext
  refine ⟨_, prev, entry, success, hprev, hentry, hexchange, rfl, hid, ?_, hreached, ?_⟩
  · simp only [hflog, Nat.sub_add_cancel hone]
  · rcases hnext with ⟨hin, hnext, prev', entry', hprev', hentry', hout⟩ | ⟨hend, hnext, hout⟩
    · refine .inl ⟨hlloop, hfloop, hllog, ?_, hinside, ?_, ⟨?_, hin⟩,
        prev', entry', s.leader.commitIndex, hprev', hentry', ?_⟩
      · simp only [hfterm, hlterm]
        exact h.term
      · rw [hid]
        exact hnext
      · unfold Node.nextAfter
        split
        · omega
        · split <;> omega
      · simp only [hid, hout, hlid, hlterm]
    · exact .inr ⟨hend, by rw [hid]; exact hout, hllog, hlloop, hnext⟩

/-- From an index up to which the logs agree, every entry is accepted. -/
theorem climbs {d : ℕ} (hd : k + d = L.length) (h : Sending L k s)
    (hagree : AgreeTo (k - 1) s.follower.log L) : UpToDate L (CatchUp.run d s) := by
  induction d generalizing k s with
  | zero => exact absurd h.bounds.2 (by omega)
  | succ d ih =>
    obtain ⟨t, prev, entry, success, hprev, hentry, hexchange, hsuccess, hid, hlog, hreached,
      hnext⟩ := h.exchange
    obtain ⟨hone, hlt⟩ := h.bounds
    have htrue : success = true := by
      rw [hsuccess, Node.verifyEntry, hagree.getElem? le_rfl, hprev]
      exact beq_self_eq_true _
    subst htrue
    -- the follower now agrees one entry further, and has nothing behind
    have hagree' : AgreeTo k t.follower.log L := by
      have hcut := hagree.cut_append (a := entry) (by rwa [Nat.sub_add_cancel hone])
      rw [Nat.sub_add_cancel hone] at hcut
      rw [hlog]
      exact hcut
    rw [CatchUp.run_succ d hexchange]
    rcases hnext with hnext | ⟨hend, hsent, hllog, hloop, hnone⟩
    · exact ih (by rw [Node.nextAfter_true]; omega) hnext hagree'
    · rw [CatchUp.run_of_sent_nil d hsent]
      have hlen : L.length = k + 1 := hend.symm
      have hshort : t.follower.log.length = k + 1 := by
        have hk := hagree.length_left
        rw [hlog, if_pos rfl, List.length_append, List.length_take, List.length_singleton]
        omega
      refine ⟨hsent, hagree'.eq_of_length hshort hlen, hllog, hloop, ?_, ?_⟩
      · rw [hid]
        exact hnone
      · rw [hid, hreached rfl, hlen]
        rfl

/-- Going back ends where the logs agree, at the first entry at the latest. -/
theorem converges (h : Sending L k s) (hhead : s.follower.log[0]? = L[0]?)
    (hmatch : ∀ i a b, L[i]? = some a → s.follower.log[i]? = some b → a.term = b.term →
      AgreeTo i s.follower.log L) :
    ∃ d, d + 1 ≤ k + (L.length - 1) ∧ UpToDate L (CatchUp.run d s) := by
  induction k generalizing s with
  | zero => exact absurd h.bounds.1 (by omega)
  | succ k ih =>
    obtain ⟨t, prev, entry, success, hprev, -, hexchange, hsuccess, hid, hlog, -, hnext⟩ :=
      h.exchange
    obtain ⟨-, hlt⟩ := h.bounds
    rw [Nat.add_sub_cancel] at hprev hsuccess
    cases success with
    | true =>
      -- the terms are the same, so everything before is, too
      obtain ⟨a, ha, hterm⟩ := Node.verifyEntry_iff.mp hsuccess.symm
      have hagree := hmatch k prev a hprev ha hterm.symm
      exact ⟨L.length - (k + 1), by omega, h.climbs (by omega) hagree⟩
    | false =>
      have hk : k ≠ 0 := by
        rintro rfl
        have haccepts : s.follower.verifyEntry 0 prev.term = true :=
          Node.verifyEntry_iff.mpr ⟨prev, hhead.trans hprev, rfl⟩
        simp [haccepts] at hsuccess
      have hback : Node.nextAfter (k + 1) false = k := Node.nextAfter_false (by omega)
      rw [hback] at hnext
      have hsending : Sending L k t := hnext.resolve_right fun hend => by
        have hlast := hend.1
        omega
      have hsame : t.follower.log = s.follower.log := hlog
      obtain ⟨d, hd, hdone⟩ := ih hsending (by rwa [hsame]) (by rwa [hsame])
      exact ⟨d + 1, by omega, by rwa [CatchUp.run_succ d hexchange]⟩

end Sending

/-- More exchanges than it takes change nothing. -/
theorem CatchUp.run_of_le {s : CatchUp n V} {a b : ℕ} (hab : a ≤ b)
    (h : (CatchUp.run a s).sent = []) : CatchUp.run b s = CatchUp.run a s := by
  induction a generalizing s b with
  | zero => exact CatchUp.run_of_sent_nil b h
  | succ a ih =>
    obtain ⟨b, rfl⟩ := Nat.exists_eq_succ_of_ne_zero (by omega : b ≠ 0)
    cases hexchange : s.exchange with
    | none => simp only [CatchUp.run, hexchange]
    | some t =>
      rw [CatchUp.run_succ a hexchange] at h ⊢
      rw [CatchUp.run_succ b hexchange]
      exact ih (by omega) h

/-- A leader in its loop with a log of at least two entries has sent a follower its last
entry. If the two logs begin alike and wherever they have entries of one term agree up to
there, and the follower is not in a later term, then after at most two entries sent for each
of the log the follower has the log of the leader, and the leader has it as up to date. -/
theorem catch_up (l f : Node n V) (hlen : 2 ≤ l.log.length) (hhead : f.log[0]? = l.log[0]?)
    (hmatch : ∀ i a b, l.log[i]? = some a → f.log[i]? = some b → a.term = b.term →
      l.log.take (i + 1) = f.log.take (i + 1))
    (hterm : f.currentTerm ≤ l.currentTerm) (hl : l.loop = .leader) (hf : f.loop = .follower)
    (hnext : l.nextIndex f.myId = some (l.log.length - 1))
    (hinside : ∃ r, l.matchIndex r < l.log.length) :
    UpToDate l.log
      (CatchUp.run (2 * (l.log.length - 1)) (CatchUp.start l f (l.log.length - 1))) := by
  have hbounds : 1 ≤ l.log.length - 1 ∧ l.log.length - 1 < l.log.length := by omega
  obtain ⟨prev, entry, hprev, hentry, hsend⟩ :=
    Node.sendEntryAt_eq { l with talker := [] } f.myId hbounds
  have hsent : (CatchUp.start l f (l.log.length - 1)).sent =
      [.appendEntries l.currentTerm l.myId (l.log.length - 1 - 1) prev.term entry
        l.commitIndex] := by
    rw [CatchUp.start, hsend, Node.sendAppendEntries, Node.outbox_sendMessage_self]
    rfl
  have hstart : Sending l.log (l.log.length - 1) (CatchUp.start l f (l.log.length - 1)) :=
    ⟨hl, hf, rfl, hterm, hinside, hnext, hbounds, prev, entry, l.commitIndex, hprev, hentry, hsent⟩
  obtain ⟨d, hd, hdone⟩ := hstart.converges hhead fun i a b ha hb hab =>
    .of_take (List.getElem?_eq_some_iff.mp hb).1 (hmatch i a b ha hb hab).symm
  have hmore : d ≤ 2 * (l.log.length - 1) := by omega
  rwa [CatchUp.run_of_le hmore hdone.sent]

/-- A leader of term 3 with entries of the terms 1, 2 and 3. -/
def leaderAhead : Node 2 (List ℕ) :=
  { Node.init 0 with
    currentTerm := 3, log := [⟨1, [], -1⟩, ⟨2, [], -1⟩, ⟨3, [], -1⟩], loop := .leader
    nextIndex := fun _ => some 2 }

/-- A follower with two entries of term 1. -/
def followerAstray : Node 2 (List ℕ) :=
  { Node.init 1 with log := [⟨1, [], -1⟩, ⟨1, [7], 1⟩], loop := .follower }

theorem catch_up_followerAstray :
    UpToDate leaderAhead.log (CatchUp.run 4 (CatchUp.start leaderAhead followerAstray 2)) := by
  refine catch_up leaderAhead followerAstray (by decide) rfl (fun i a b ha hb hab => ?_)
    (by decide) rfl rfl rfl ⟨0, by decide⟩
  -- only the first entries are of one term
  have hlt : i < 2 := (List.getElem?_eq_some_iff.mp hb).1
  obtain rfl | rfl : i = 0 ∨ i = 1 := by omega
  · rfl
  · rw [← Option.some.inj ha, ← Option.some.inj hb] at hab
    exact absurd hab (by decide)

end DreamboatRpc.Raft
