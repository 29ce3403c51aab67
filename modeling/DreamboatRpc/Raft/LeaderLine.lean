import DreamboatRpc.Raft.ClientRequests
import DreamboatRpc.Raft.CommitIndex
import DreamboatRpc.Raft.Sends
import DreamboatRpc.Raft.Submission

/-!
# A leader that is the only one with requests

What a leader has appended and what waits in its queue form one line: an iteration moves the
oldest entry of the queue to the end of the log, and the line is the same as before. Where one
stable leader is the only node clients talk to, nothing else ever gets into the line but the
entry with which the leader takes office.

## Main definitions

* `Node.line` — the log of a node and then its queue
* `Cluster.OnlyAt` — no request is anywhere but with the leader

## Main results

* `Cluster.OnlyAt.exec` — a step of the threads keeps it so
* `Cluster.OnlyAt.line_exec` — what such a step does to the line of the leader
-/

namespace DreamboatRpc.Raft

open CS

variable {n : ℕ} {V : Type*}

/-- What a node has appended, and then what it is about to append. -/
def Node.line (nd : Node n V) : List (Entry V) := nd.log ++ nd.clientQueue

/-- All requests are with node `ℓ`, once it is in office, and what it has committed is in its
log. -/
structure Cluster.OnlyAt (ℓ : Fin n) (s : Cluster n V) : Prop where
  queues : ∀ q, ¬ (s.nodes q).Led → (s.nodes q).clientQueue = []
  underway : s.Underway fun _ _ message => message.request = none
  inside : (s.nodes ℓ).Inside

/-! ## One iteration -/

section Iteration

variable {nd : Node n V}

/-- A follower with nothing in its queue keeps it so, and forwards nothing. -/
theorem follower_keepsRequests (hqueue : nd.clientQueue = [])
    (incoming : Option (Fin n × Message n V)) (timeout : Bool) :
    KeepsRequests nd (nd.follower incoming timeout) := by
  rcases follower_requests nd incoming timeout with hkeeps | ⟨l, term, entry, cause, hhead, -⟩
  · exact hkeeps
  · simp [hqueue] at hhead

/-- A follower that is told of votes only keeps its line. -/
theorem follower_line (hled : ¬ nd.Led) (incoming : Option (Fin n × Message n V))
    (timeout : Bool)
    (hincoming : ∀ q message, incoming = some (q, message) → message.isElection = true) :
    (nd.follower incoming timeout).line = nd.line := by
  have hmessage : (nd.receive Node.followerMessage incoming).line = nd.line := by
    cases incoming with
    | none => rfl
    | some m =>
      obtain ⟨q, message⟩ := m
      have helection := hincoming q message rfl
      have hheld : ¬ ({ nd with incomingMessage := some message } : Node n V).Led := hled
      have hframe : ElectionFrame { nd with incomingMessage := some message }
          (({ nd with incomingMessage := some message } : Node n V).followerMessage q message) := by
        apply followerMessage_election hheld q
        · rintro t l rfl
          simp [Message.isElection] at helection
        · rintro t l k u e c rfl
          simp [Message.isElection] at helection
      exact congrArg₂ (· ++ ·) hframe.log hframe.clientQueue
  unfold Node.follower
  split
  · simp only
    split
    · exact hmessage
    · exact hmessage
  · rfl

/-- A leader that is given no request only moves entries along its line. -/
theorem leader_line (hrole : nd.currentRole = .leader) (hready : nd.Ready) (heartbeat : Bool)
    (expired : Fin n → Bool) (incoming : Option (Fin n × Message n V))
    (hincoming : ∀ q message, incoming = some (q, message) → message.request = none) :
    (nd.leader heartbeat expired incoming).line = nd.line ∧
      nd.commitIndex ≤ (nd.leader heartbeat expired incoming).commitIndex := by
  have hoffer : ∀ q t e, incoming = some (q, .clientRequest t e) → False := by
    intro q t e he
    simpa [Message.request] using hincoming q _ he
  obtain ⟨nd₁, hops, hcases⟩ := Node.leader_cases (C := fun _ _ => True) (O := fun _ => False)
    hrole hready heartbeat expired incoming hoffer (fun _ _ _ _ _ => trivial)
  have hlog : nd₁.log = nd.log := by
    obtain ⟨new, hlog, hnone⟩ := hops.log
    rw [hlog, List.eq_nil_iff_forall_not_mem.mpr hnone, List.append_nil]
  have hcommit := hops.grows.2
  obtain heq | ⟨q, term, i, t, -, -, heq⟩ | ⟨entry, rest, hqueue, -, -, heq⟩ := hcases
  · rw [heq, Node.line, hlog, hops.clientQueue]
    exact ⟨rfl, hcommit⟩
  · rw [heq]
    refine ⟨?_, hcommit⟩
    rw [Node.line, Node.line, ← hlog, ← hops.clientQueue]
    rfl
  · -- the oldest entry of the queue is now the last one of the log
    obtain ⟨talker, next, reached, hbroadcast⟩ :=
      Node.broadcastAppendEntries_eq { nd₁ with clientQueue := rest } entry
    rw [heq, hbroadcast]
    refine ⟨?_, hcommit⟩
    simp [Node.line, Node.appended, hlog, hqueue]

end Iteration

/-! ## All steps -/

namespace Cluster

variable [EmptyCollection V] {P : ℕ → V → Prop} {ℓ : Fin n} {K : ℕ} {s s' : Cluster n V}
  {e : Event n V}

theorem onlyAt_init (ℓ : Fin n) : (init : Cluster n V).OnlyAt ℓ where
  queues _ _ := rfl
  underway := underway_init
  inside := Nat.one_pos

namespace OnlyAt

omit [EmptyCollection V] in
/-- Before it is in office, the leader may be told of votes only. -/
theorem received_isElection (h : Lineup P ℓ K [] s) (hidle : ¬ (s.nodes ℓ).Led)
    {source : Option (Fin n)} {q : Fin n} {message : Message n V}
    (hreceived : s.received ℓ source = some (q, message)) : message.isElection = true := by
  obtain ⟨-, packet, hpacket, rfl⟩ := mem_inflight_of_received hreceived
  exact (h.early hidle).2 q ℓ packet hpacket

omit [EmptyCollection V] in
theorem received_request (h : s.OnlyAt ℓ) {p : Fin n} {source : Option (Fin n)} {q : Fin n}
    {message : Message n V} (hreceived : s.received p source = some (q, message)) :
    message.request = none := by
  obtain ⟨-, packet, hpacket, rfl⟩ := mem_inflight_of_received hreceived
  exact h.underway q p packet hpacket

/-- What an iteration does to the queue of a node that is not in office, and what it sends. -/
theorem iteration_sent (h : s.OnlyAt ℓ) (hready : s.Ready) (hs : s.exec e = some s') {p : Fin n}
    {nd : Node n V} (hiteration : s.iteration e = some (p, nd)) :
    Sent (fun message => message.request = none) (s.nodes p) nd ∧
      ((s.nodes p).loop ≠ .leader → nd.clientQueue = (s.nodes p).clientQueue) := by
  obtain ⟨-, -, rfl⟩ | ⟨source, timeout, -, hloop, rfl⟩ | ⟨source, timeout, k, m, -, -, rfl⟩ |
    ⟨heartbeat, expired, source, -, hloop, rfl⟩ := iteration_cases hs hiteration
  · obtain ⟨hqueue, hsent⟩ := run_keepsRequests (hready p)
    exact ⟨hsent, fun _ => hqueue⟩
  · have hempty := h.queues p (by simp [Node.Led, hloop])
    obtain ⟨hqueue, hsent⟩ := follower_keepsRequests hempty (s.received p source) timeout
    exact ⟨hsent, fun _ => hqueue⟩
  · obtain ⟨hqueue, hsent⟩ := candidate_keepsRequests (s.nodes p) k m (s.received p source) timeout
    exact ⟨hsent, fun _ => hqueue⟩
  · exact ⟨leader_sent leads_noRequest (fun _ => rfl) (hready p) heartbeat expired _,
      fun hne => absurd hloop hne⟩

/-- A node whose thread does not run keeps its queue, unless a client talks to it. -/
theorem clientQueue_idle (hs : s.exec e = some s')
    (hclient : ∀ p value idNum, e ≠ .clientRequest p value idNum) {q : Fin n}
    (hidle : ∀ nd, s.iteration e ≠ some (q, nd)) :
    (s'.nodes q).clientQueue = (s.nodes q).clientQueue := by
  obtain heq | ⟨value, idNum, rfl, -⟩ | ⟨-, heq⟩ | ⟨-, heq⟩ := exec_idle hs hidle
  · rw [heq]
  · exact absurd rfl (hclient q value idNum)
  · rw [heq]
    rfl
  · rw [heq, Node.unPause]
    split <;> rfl

/-- A leader that keeps its office leaves the loop only by an exception. -/
theorem led_exec (h : Lineup P ℓ K [] s) (h' : Lineup P ℓ K [] s') (hready : s.Ready)
    (hs : s.exec e = some s') (hled : (s.nodes ℓ).Led) : (s'.nodes ℓ).Led := by
  by_contra hidle
  have hlong := h.long hled
  have hshort := (h'.early hidle).1
  have hlength : (s.nodes ℓ).log.length ≤ (s'.nodes ℓ).log.length := by
    obtain ⟨nd, hiteration, heq⟩ | ⟨-, queue, role, heq, -⟩ := exec_node hs ℓ
    · rw [heq]
      obtain ⟨-, hloop, -⟩ | ⟨_, _, -, hloop, -⟩ | ⟨_, _, _, _, -, hloop, -⟩ |
        ⟨heartbeat, expired, source, -, hloop, rfl⟩ := iteration_cases hs hiteration
      · simp [Node.Led, hloop] at hled
      · simp [Node.Led, hloop] at hled
      · simp [Node.Led, hloop] at hled
      · have hkept : Kept fun nd : Node n V => (s.nodes ℓ).log <+: nd.log := by
          refine ⟨fun nd nd' hnd hsame => by rw [hsame.log]; exact hnd, fun nd nd' hnd hop => ?_⟩
          cases hop with
          | append entry _ => exact hnd.trans (List.prefix_append _ _)
          | _ => exact hnd
        exact (hkept.leader List.prefix_rfl (hready ℓ) heartbeat expired _).length_le
    · rw [heq]
  omega

/-- What the leader has committed stays in its log: before it is in office it has only been told
of votes. -/
theorem inside_exec (h : s.OnlyAt ℓ) (hl : Lineup P ℓ K [] s) (hready : s.Ready)
    (hs : s.exec e = some s') : (s'.nodes ℓ).Inside := by
  obtain ⟨nd, hiteration, heq⟩ | ⟨-, queue, role, heq, -⟩ := exec_node hs ℓ
  · have hnd : nd.Inside := by
      obtain ⟨-, -, rfl⟩ | ⟨source, timeout, -, hloop, rfl⟩ |
        ⟨source, timeout, k, m, -, -, rfl⟩ | ⟨heartbeat, expired, source, -, -, rfl⟩ :=
        iteration_cases hs hiteration
      · exact kept_inside.run h.inside (hready ℓ)
      · have hidle : ¬ (s.nodes ℓ).Led := by simp [Node.Led, hloop]
        cases hreceived : s.received ℓ source with
        | none => exact kept_inside.follower_idle h.inside timeout
        | some m =>
          obtain ⟨q, message⟩ := m
          have helection := received_isElection hl hidle hreceived
          by_cases hrole : (s.nodes ℓ).currentRole = .follower
          · rw [kept_inside.follower_iff hrole]
            have hheld : ({ s.nodes ℓ with incomingMessage := some message } : Node n V).Inside :=
              h.inside
            refine followerMessage_inside hheld ?_ q
            cases message with
            | requestVotes t i u => rfl
            | vote t granted => rfl
            | _ => simp [Message.isElection] at helection
          · unfold Node.follower
            rw [if_neg hrole]
            exact h.inside
      · exact kept_inside.candidate h.inside k m _ timeout
      · exact kept_inside.leader h.inside (hready ℓ) heartbeat expired _
    rw [heq]
    exact hnd
  · rw [heq]
    exact h.inside

/-- A step of the threads keeps the requests where they are, or moves them along. -/
theorem exec (h : s.OnlyAt ℓ) (hl : Lineup P ℓ K [] s) (hl' : Lineup P ℓ K [] s')
    (hready : s.Ready) (hs : s.exec e = some s')
    (hclient : ∀ p value idNum, e ≠ .clientRequest p value idNum) : s'.OnlyAt ℓ := by
  constructor
  case queues =>
    intro q hidle'
    have hsame : (s'.nodes q).clientQueue = (s.nodes q).clientQueue ∧ ¬ (s.nodes q).Led := by
      obtain ⟨nd, hiteration, heq⟩ | ⟨hidle, queue, role, heq, -⟩ := exec_node hs q
      · -- a thread in the loop of a leader stays in office
        have hidle : ¬ (s.nodes q).Led := by
          intro hled
          obtain rfl := hl.office q hled
          exact hidle' (led_exec hl hl' hready hs hled)
        have hqueue := (h.iteration_sent hready hs hiteration).2 fun hloop => hidle (.inl hloop)
        rw [heq]
        exact ⟨hqueue, hidle⟩
      · refine ⟨clientQueue_idle hs hclient hidle, ?_⟩
        rw [heq] at hidle'
        exact hidle'
    rw [hsame.1, h.queues q hsame.2]
  case underway =>
    refine h.underway.exec hl.myId (fun p nd hiteration => ?_) hs
    refine (h.iteration_sent hready hs hiteration).1.sends ?_
    obtain ⟨nd', hiteration', heq⟩ | ⟨hidle, -⟩ := exec_node hs p
    · rw [hiteration, Option.some.injEq, Prod.mk.injEq] at hiteration'
      have hid := hl'.myId p
      rw [heq, ← hiteration'.2] at hid
      exact hid.trans (hl.myId p).symm
    · exact absurd hiteration (hidle nd)
  case inside => exact h.inside_exec hl hready hs

/-- A step of the threads does not change the line of the leader, except that the leader takes
office with an entry of its own; and the leader commits more and more of it. -/
theorem line_exec (h : s.OnlyAt ℓ) (hl : Lineup P ℓ K [] s) (hready : s.Ready)
    (hs : s.exec e = some s') (hguard : stableLeader ℓ s e = true)
    (hclient : ∀ p value idNum, e ≠ .clientRequest p value idNum) :
    (s.nodes ℓ).commitIndex ≤ (s'.nodes ℓ).commitIndex ∧
      ((s'.nodes ℓ).line = (s.nodes ℓ).line ∨ (s.nodes ℓ).line.length = 1 ∧
        (s'.nodes ℓ).line = (s.nodes ℓ).line ++ [(s.nodes ℓ).noop]) := by
  obtain ⟨nd, hiteration, heq⟩ | ⟨hidle, queue, role, heq, -⟩ := exec_node hs ℓ
  swap
  · have hqueue := clientQueue_idle hs hclient hidle
    rw [heq] at hqueue ⊢
    exact ⟨le_rfl, .inl (congrArg ((s.nodes ℓ).log ++ ·) hqueue)⟩
  have hline : (s'.nodes ℓ).line = nd.line := by
    rw [heq]
    rfl
  have hcommit : (s'.nodes ℓ).commitIndex = nd.commitIndex := by
    rw [heq]
  rw [hline, hcommit]
  -- before it is in office the leader has nothing to commit
  have hzero : ¬ (s.nodes ℓ).Led → (s.nodes ℓ).commitIndex = 0 := by
    intro hidle
    have hinside : (s.nodes ℓ).commitIndex < (s.nodes ℓ).log.length := h.inside
    rw [(hl.early hidle).1] at hinside
    omega
  obtain ⟨rfl, hloop, rfl⟩ | ⟨source, timeout, -, hloop, rfl⟩ |
    ⟨source, timeout, k, m, -, hloop, rfl⟩ | ⟨heartbeat, expired, source, rfl, hloop, rfl⟩ :=
    iteration_cases hs hiteration
  · have hidle : ¬ (s.nodes ℓ).Led := by simp [Node.Led, hloop]
    rw [hzero hidle]
    refine ⟨Nat.zero_le _, ?_⟩
    cases hrole : (s.nodes ℓ).currentRole with
    | leader =>
      have hrun : (s.nodes ℓ).run = (s.nodes ℓ).enterLeader := by simp only [Node.run, hrole]
      have hqueue := (run_keepsRequests (hready ℓ)).1
      rw [h.queues ℓ hidle, hrun] at hqueue
      right
      rw [hrun, Node.line, Node.line, hqueue, h.queues ℓ hidle, Node.enterLeader_log]
      simp [(hl.early hidle).1]
    | follower =>
      left
      simp only [Node.run, hrole]
      rfl
    | candidate =>
      left
      obtain ⟨-, hlog, hqueue, -, -⟩ := enterCandidate_election (s.nodes ℓ)
      simp only [Node.run, hrole, Node.line]
      rw [hlog, hqueue]
    | none =>
      left
      simp only [Node.run, hrole]
  · have hidle : ¬ (s.nodes ℓ).Led := by simp [Node.Led, hloop]
    rw [hzero hidle]
    exact ⟨Nat.zero_le _, .inl (follower_line hidle _ timeout
      fun q message hreceived => received_isElection hl hidle hreceived)⟩
  · have hidle : ¬ (s.nodes ℓ).Led := by simp [Node.Led, hloop]
    obtain ⟨-, hlog, hqueue, -, -⟩ :=
      candidate_election hidle k m (s.received ℓ source) timeout
    rw [hzero hidle, Node.line, hlog, hqueue]
    exact ⟨Nat.zero_le _, .inl rfl⟩
  · have hrole := hl.leads hloop
    obtain ⟨hsame, hle⟩ := leader_line hrole (hready ℓ) heartbeat expired (s.received ℓ source)
      fun q message hreceived => h.received_request hreceived
    exact ⟨hle, .inl hsame⟩

end OnlyAt

end Cluster

end DreamboatRpc.Raft
