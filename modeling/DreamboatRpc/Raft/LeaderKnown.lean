import DreamboatRpc.Raft.Sends

/-!
# Who is known as leader

A node sets `leader_id` to whatever a heartbeat says, in `_follower` even to that of an
earlier term, and forwards its client requests there. What a heartbeat says is nonetheless
true: messages of a leader are sent by nodes that have taken office in the term they are
stamped with, so nothing is ever forwarded, or acknowledged, to a node that has not led.

## Main definitions

* `TakesOffice` — the step in which a node enters `_leader`
* `Message.Honest` — a message that only a node in office sends comes from one, and one that
  is meant for a leader goes to one
* `Node.Knows` — what a node believes about leaders is on record

## Main results

* `run_reports`, `follower_reports`, `candidate_reports`, `leader_reports` — every iteration
  keeps what a node believes true, and sends honest messages
* `leader_known` — along every run, on every network
-/

namespace DreamboatRpc.Raft

open CS FifoNetwork

variable {n : ℕ} {V : Type*}

/-- A message from `src` to `dst`, where `office` says who has taken office, and in which
terms. -/
def Message.Honest (office : Fin n → ℕ → Prop) (src dst : Fin n) : Message n V → Prop
  | .heartbeat term leaderId | .appendEntries term leaderId _ _ _ _ =>
    leaderId = src ∧ office src term
  | .committal term _ _ => office src term
  | .clientRequest term _ => ∃ t ≤ term, office dst t
  | .acknowledge _ _ => ∃ t, office dst t
  | .requestVotes _ _ _ | .vote _ _ => True

variable {office office' : Fin n → ℕ → Prop}

theorem Message.Honest.mono {src dst : Fin n} {message : Message n V}
    (hle : ∀ q t, office q t → office' q t) (h : message.Honest office src dst) :
    message.Honest office' src dst := by
  cases message with
  | heartbeat t l => exact ⟨h.1, hle _ _ h.2⟩
  | appendEntries t l i u e c => exact ⟨h.1, hle _ _ h.2⟩
  | committal t i u => exact hle _ _ h
  | clientRequest t e =>
    obtain ⟨u, hu, hoffice⟩ := h
    exact ⟨u, hu, hle _ _ hoffice⟩
  | acknowledge t b =>
    obtain ⟨u, hoffice⟩ := h
    exact ⟨u, hle _ _ hoffice⟩
  | _ => trivial

/-! ## One iteration -/

namespace Node

variable {nd nd' nd'' : Node n V}

/-- The leader a node knows has taken office, in a term the node has reached; and a node in
the loop of a leader knows itself. -/
structure Knows (office : Fin n → ℕ → Prop) (nd : Node n V) : Prop where
  leaderId : ∀ l, nd.leaderId = some l → ∃ t ≤ nd.currentTerm, office l t
  loop : nd.loop = .leader → office nd.myId nd.currentTerm ∧ nd.leaderId = some nd.myId

theorem Knows.mono (hle : ∀ q t, office q t → office' q t) (h : nd.Knows office) :
    nd.Knows office' := by
  refine ⟨fun l hl => ?_, fun hloop => ⟨hle _ _ (h.loop hloop).1, (h.loop hloop).2⟩⟩
  obtain ⟨t, ht, hoffice⟩ := h.leaderId l hl
  exact ⟨t, ht, hle _ _ hoffice⟩

/-- A node outside the loop of a leader, in a term that is not earlier. -/
theorem Knows.outside (h : nd.Knows office) (hleader : nd'.leaderId = nd.leaderId)
    (hterm : nd.currentTerm ≤ nd'.currentTerm) (hloop : nd'.loop ≠ .leader) :
    nd'.Knows office := by
  refine ⟨fun l hl => ?_, fun hlead => absurd hlead hloop⟩
  rw [hleader] at hl
  obtain ⟨t, ht, hoffice⟩ := h.leaderId l hl
  exact ⟨t, ht.trans hterm, hoffice⟩

/-- A node outside the loop of a leader that has learnt who leads. -/
theorem knows_of_learnt {l : Fin n} {t : ℕ} (hoffice : office l t)
    (hleader : nd.leaderId = some l) (hterm : t ≤ nd.currentTerm) (hloop : nd.loop ≠ .leader) :
    nd.Knows office := by
  refine ⟨fun l' hl' => ?_, fun hlead => absurd hlead hloop⟩
  rw [hleader, Option.some.injEq] at hl'
  subst hl'
  exact ⟨t, hterm, hoffice⟩

/-! ### Followers -/

theorem followerRequestVotes_reports (h : nd.Knows office) (hloop : nd.loop ≠ .leader)
    (q : Fin n) (t i u : ℕ) : (nd.followerRequestVotes q t i u).Knows office ∧
      nd.Sends (Message.Honest office) (nd.followerRequestVotes q t i u) := by
  have hvote : ∀ nd₁ : Node n V, nd₁.leaderId = nd.leaderId → nd.currentTerm ≤ nd₁.currentTerm →
      nd₁.loop ≠ .leader → nd₁.myId = nd.myId → nd₁.talker = nd.talker → ∀ granted,
      (nd₁.sendVote q granted).Knows office ∧
        nd.Sends (Message.Honest office) (nd₁.sendVote q granted) := by
    intro nd₁ hleader hterm hloop₁ hid htalker granted
    have hbefore : nd.Sends (Message.Honest office) nd₁ := .of_talker hid htalker
    have hvote : nd₁.Sends (Message.Honest office) (nd₁.sendVote q granted) :=
      .of_send rfl rfl fun _ _ => trivial
    exact ⟨h.outside hleader hterm hloop₁, hbefore.trans hvote⟩
  unfold followerRequestVotes
  by_cases ht : t > nd.currentTerm
  · simp only [if_pos ht]
    split
    · exact hvote (nd.incrementTerm (some t)) rfl ht.le hloop rfl rfl true
    · exact hvote (nd.incrementTerm (some t)) rfl ht.le hloop rfl rfl false
  · simp only [if_neg ht]
    split
    · exact hvote nd rfl le_rfl hloop rfl rfl true
    · exact hvote nd rfl le_rfl hloop rfl rfl false

/-- On a heartbeat a follower forwards a client request to the leader it has just learnt of. -/
theorem followerHeartbeat_reports {l : Fin n} {t : ℕ} (hoffice : office l t)
    (hloop : nd.loop ≠ .leader) : (nd.followerHeartbeat t l).Knows office ∧
      nd.Sends (Message.Honest office) (nd.followerHeartbeat t l) := by
  have hforward : ∀ nd₁ : Node n V, nd₁.leaderId = some l → t ≤ nd₁.currentTerm →
      nd₁.loop ≠ .leader → nd₁.myId = nd.myId → nd₁.talker = nd.talker →
      (nd₁.forwardClientRequest l).Knows office ∧
        nd.Sends (Message.Honest office) (nd₁.forwardClientRequest l) := by
    intro nd₁ hleader hterm hloop₁ hid htalker
    have hknows : nd₁.Knows office := knows_of_learnt hoffice hleader hterm hloop₁
    have hbefore : nd.Sends (Message.Honest office) nd₁ := .of_talker hid htalker
    unfold forwardClientRequest
    split
    · exact ⟨hknows, hbefore⟩
    · refine ⟨hknows.outside rfl le_rfl hloop₁, hbefore.trans (.of_send rfl rfl fun dst hdst => ?_)⟩
      obtain rfl : l = dst := Option.some.inj (hdst.resolve_left (by simp))
      exact ⟨t, hterm, hoffice⟩
  unfold followerHeartbeat
  by_cases ht : t > nd.currentTerm
  · simp only [if_pos ht]
    exact hforward _ rfl le_rfl hloop rfl rfl
  · simp only [if_neg ht]
    exact hforward _ rfl (not_lt.mp ht) hloop rfl rfl

theorem followerAppendEntries_reports (h : nd.Knows office) (hloop : nd.loop ≠ .leader)
    {l : Fin n} {t : ℕ} (hoffice : office l t) (i u : ℕ) (e : Entry V) (c : ℕ) :
    (nd.followerAppendEntries t l i u e c).Knows office ∧
      nd.Sends (Message.Honest office) (nd.followerAppendEntries t l i u e c) := by
  have hack : ∀ dst, some l = none ∨ some l = some dst → ∃ t, office dst t := by
    rintro dst hdst
    obtain rfl : l = dst := Option.some.inj (hdst.resolve_left (by simp))
    exact ⟨t, hoffice⟩
  simp only [followerAppendEntries, appendEntry, cutLog]
  split
  · split
    · exact ⟨h.outside rfl le_rfl hloop, .of_send rfl rfl hack⟩
    · exact ⟨h.outside rfl le_rfl hloop, .of_send rfl rfl hack⟩
  · exact ⟨h.outside rfl le_rfl hloop, .of_send rfl rfl hack⟩

theorem followerMessage_reports (h : nd.Knows office) (hloop : nd.loop ≠ .leader) {q : Fin n}
    {message : Message n V} (hhonest : message.Honest office q nd.myId) :
    (nd.followerMessage q message).Knows office ∧
      nd.Sends (Message.Honest office) (nd.followerMessage q message) := by
  cases message with
  | requestVotes t i u => exact followerRequestVotes_reports h hloop q t i u
  | heartbeat t l =>
    obtain ⟨rfl, hoffice⟩ := hhonest
    exact followerHeartbeat_reports hoffice hloop
  | appendEntries t l i u e c =>
    obtain ⟨rfl, hoffice⟩ := hhonest
    exact followerAppendEntries_reports h hloop hoffice i u e c
  | committal t i u => exact ⟨h.outside rfl le_rfl hloop, .of_talker rfl rfl⟩
  | _ => exact ⟨h, .refl⟩

/-- A loop outside that of a leader that looks at its message first. -/
theorem receive_reports (handle : Node n V → Fin n → Message n V → Node n V)
    {incoming : Option (Fin n × Message n V)} (h : nd.Knows office) (hloop : nd.loop ≠ .leader)
    (hhonest : ∀ q message, incoming = some (q, message) → message.Honest office q nd.myId)
    (hhandle : ∀ (held : Node n V) q message, held.Knows office → held.loop = nd.loop →
      message.Honest office q held.myId →
      (handle held q message).Knows office ∧
        held.Sends (Message.Honest office) (handle held q message)) :
    (nd.receive handle incoming).Knows office ∧
      nd.Sends (Message.Honest office) (nd.receive handle incoming) := by
  cases incoming with
  | none => exact ⟨h, .refl⟩
  | some m =>
    have hheld : ({ nd with incomingMessage := some m.2 } : Node n V).Knows office :=
      h.outside rfl le_rfl hloop
    have hholds : nd.Sends (Message.Honest office) { nd with incomingMessage := some m.2 } :=
      .of_talker rfl rfl
    obtain ⟨hknows, hreports⟩ := hhandle _ m.1 m.2 hheld rfl (hhonest m.1 m.2 rfl)
    exact ⟨hknows, hholds.trans hreports⟩

theorem follower_reports (h : nd.Knows office) (hloop : nd.loop = .follower)
    {incoming : Option (Fin n × Message n V)}
    (hhonest : ∀ q message, incoming = some (q, message) → message.Honest office q nd.myId)
    (timeout : Bool) : (nd.follower incoming timeout).Knows office ∧
      nd.Sends (Message.Honest office) (nd.follower incoming timeout) := by
  have hne : nd.loop ≠ .leader := by simp [hloop]
  unfold Node.follower
  split
  · obtain ⟨hknows, hreports⟩ := receive_reports followerMessage h hne hhonest
      fun held q message hheld hsame hmessage =>
        followerMessage_reports hheld (by rw [hsame]; exact hne) hmessage
    simp only
    split
    · exact ⟨hknows.outside rfl le_rfl (by simp), hreports.trans (.of_talker rfl rfl)⟩
    · exact ⟨hknows, hreports⟩
  · exact ⟨h.outside rfl le_rfl (by simp), .of_talker rfl rfl⟩

/-! ### Candidates -/

theorem yieldTo_reports (h : nd.Knows office) (q : Fin n) {t : ℕ} (ht : nd.currentTerm ≤ t) :
    (nd.yieldTo q t).Knows office ∧ nd.Sends (Message.Honest office) (nd.yieldTo q t) :=
  ⟨h.outside rfl ht (by simp [yieldTo]), .of_send rfl rfl fun _ _ => trivial⟩

theorem candidateMessage_reports {k m : ℕ} (h : nd.Knows office) {q : Fin n}
    {message : Message n V} (hhonest : message.Honest office q nd.myId) :
    (nd.candidateMessage k m q message).Knows office ∧
      nd.Sends (Message.Honest office) (nd.candidateMessage k m q message) := by
  cases message with
  | vote t granted =>
    simp only [candidateMessage, candidateVote]
    split <;> split <;> exact ⟨h.outside rfl le_rfl (by simp), .of_talker rfl rfl⟩
  | requestVotes t i u =>
    simp only [candidateMessage]
    split
    · rename_i hlt
      exact yieldTo_reports h q hlt.le
    · exact ⟨h, .refl⟩
  | heartbeat t l =>
    obtain ⟨rfl, hoffice⟩ := hhonest
    simp only [candidateMessage]
    split
    · exact ⟨knows_of_learnt hoffice rfl le_rfl (by simp), .of_talker rfl rfl⟩
    · exact ⟨h, .refl⟩
  | _ => exact ⟨h, .refl⟩

theorem candidate_reports {k m : ℕ} (h : nd.Knows office) (hloop : nd.loop = .candidate k m)
    {incoming : Option (Fin n × Message n V)}
    (hhonest : ∀ q message, incoming = some (q, message) → message.Honest office q nd.myId)
    (timeout : Bool) : (nd.candidate k m incoming timeout).Knows office ∧
      nd.Sends (Message.Honest office) (nd.candidate k m incoming timeout) := by
  have hne : nd.loop ≠ .leader := by simp [hloop]
  unfold Node.candidate
  split
  · obtain ⟨hknows, hreports⟩ := receive_reports
      (fun nd => nd.candidateMessage k m) h hne hhonest fun held q message hheld _ hmessage =>
        candidateMessage_reports hheld hmessage
    simp only
    split
    · exact ⟨hknows.outside rfl le_rfl (by simp), hreports.trans (.of_talker rfl rfl)⟩
    · exact ⟨hknows, hreports⟩
  · exact ⟨h.outside rfl le_rfl (by simp), .of_talker rfl rfl⟩

/-! ### Leaders -/

/-- The operations of a leader that is in office. -/
theorem LeaderOps.sends {O : Entry V → Prop} {C : Fin n → ℕ → Prop}
    (hops : LeaderOps O C nd nd') (hoffice : office nd.myId nd.currentTerm) :
    nd.Sends (Message.Honest office) nd' ∧ nd'.currentTerm = nd.currentTerm ∧
      nd'.leaderId = nd.leaderId ∧ (nd'.loop = nd.loop ∨ nd'.loop = .crashed) := by
  induction hops with
  | refl => exact ⟨.refl, rfl, rfl, .inl rfl⟩
  | @tail nd₁ nd₂ _ hop ih =>
    obtain ⟨hreports, hterm, hleader, hloop⟩ := ih
    have hoffice₁ : office nd₁.myId nd₁.currentTerm := by
      rw [hreports.myId, hterm]
      exact hoffice
    cases hop with
    | heartbeat => exact ⟨hreports.trans (.of_send rfl rfl fun _ _ => ⟨rfl, hoffice₁⟩),
        hterm, hleader, hloop⟩
    | sendEntry => exact ⟨hreports.trans (.of_send rfl rfl fun _ _ => ⟨rfl, hoffice₁⟩),
        hterm, hleader, hloop⟩
    | committal => exact ⟨hreports.trans (.of_send rfl rfl fun _ _ => hoffice₁),
        hterm, hleader, hloop⟩
    | crash => exact ⟨hreports.trans (.of_talker rfl rfl), hterm, hleader, .inr rfl⟩
    | _ => exact ⟨hreports.trans (.of_talker rfl rfl), hterm, hleader, hloop⟩

/-- A broadcast changes neither the term nor the leader a node knows. -/
theorem broadcastAppendEntries_reports (hready : nd.Ready)
    (hoffice : office nd.myId nd.currentTerm) (entry : Entry V) :
    nd.Sends (Message.Honest office) (nd.broadcastAppendEntries entry) :=
  (LeaderOps.sends (broadcastAppendEntries_ops (O := fun _ => True) (C := fun _ _ => True)
    hready entry trivial) hoffice).1

theorem leader_reports (h : nd.Knows office) (hready : nd.Ready) (hloop : nd.loop = .leader)
    (heartbeat : Bool) (expired : Fin n → Bool) (incoming : Option (Fin n × Message n V)) :
    (nd.leader heartbeat expired incoming).Knows office ∧
      nd.Sends (Message.Honest office) (nd.leader heartbeat expired incoming) := by
  obtain ⟨hoffice, hself⟩ := h.loop hloop
  by_cases hrole : nd.currentRole = .leader
  swap
  · unfold Node.leader
    rw [if_neg hrole]
    exact ⟨h.outside rfl le_rfl (by simp), .of_talker rfl rfl⟩
  obtain ⟨nd₁, hops, hcases⟩ := leader_cases (O := fun _ => True) (C := fun _ _ => True)
    hrole hready heartbeat expired incoming (fun _ _ _ _ => trivial) (fun _ _ _ _ _ => trivial)
  obtain ⟨hreports, hterm, hleader, hloop₁⟩ := LeaderOps.sends hops hoffice
  have hoffice₁ : office nd₁.myId nd₁.currentTerm := by
    rw [hreports.myId, hterm]
    exact hoffice
  have hknows : nd₁.Knows office := by
    refine ⟨fun l hl => ?_, fun _ => ⟨hoffice₁, ?_⟩⟩
    · rw [hleader] at hl
      rw [hterm]
      exact h.leaderId l hl
    · rw [hleader, hreports.myId]
      exact hself
  obtain heq | ⟨q, t, i, u, -, hlt, heq⟩ | ⟨entry, rest, -, -, -, heq⟩ := hcases
  · rw [heq]
    exact ⟨hknows, hreports⟩
  · rw [heq]
    obtain ⟨hyields, hyield⟩ := yieldTo_reports hknows q (hterm.trans_le hlt.le)
    exact ⟨hyields, hreports.trans hyield⟩
  · -- the request is taken from the queue, then broadcast
    have hpopped : ({ nd₁ with clientQueue := rest } : Node n V).Ready :=
      (hready.ops hops).congr rfl rfl
    have hpops : nd₁.Sends (Message.Honest office) { nd₁ with clientQueue := rest } :=
      .of_talker rfl rfl
    have hbroadcast := broadcastAppendEntries_reports hpopped hoffice₁ entry
    obtain ⟨talker, next, reached, hsame⟩ :=
      broadcastAppendEntries_eq { nd₁ with clientQueue := rest } entry
    rw [heq]
    refine ⟨?_, (hreports.trans hpops).trans hbroadcast⟩
    rw [hsame]
    exact ⟨hknows.leaderId, hknows.loop⟩

/-! ### Entering a loop -/

/-- A node that enters the loop of a leader has just taken office. -/
theorem enterLeader_reports [EmptyCollection V] (hready : nd.Ready)
    (hoffice : office nd.myId nd.currentTerm) :
    nd.enterLeader.Knows office ∧ nd.Sends (Message.Honest office) nd.enterLeader := by
  have hheartbeat : nd.Sends (Message.Honest office) nd.inaugurated :=
    .of_send rfl rfl fun _ _ => ⟨rfl, hoffice⟩
  have hbroadcast := broadcastAppendEntries_reports hready.inaugurated hoffice nd.noop
  obtain ⟨talker, next, reached, hsame⟩ := broadcastAppendEntries_eq nd.inaugurated nd.noop
  rw [enterLeader_eq]
  refine ⟨?_, (hheartbeat.trans hbroadcast).trans (.of_talker rfl rfl)⟩
  rw [hsame]
  refine ⟨fun l hl => ?_, fun _ => ⟨hoffice, rfl⟩⟩
  obtain rfl : nd.myId = l := Option.some.inj hl
  exact ⟨_, le_rfl, hoffice⟩

theorem enterCandidate_reports (h : nd.Knows office) :
    nd.enterCandidate.Knows office ∧ nd.Sends (Message.Honest office) nd.enterCandidate := by
  have hrequest : nd.Sends (Message.Honest office) (nd.incrementTerm none).sendRequestVote :=
    .of_send rfl rfl fun _ _ => trivial
  have hvote : (nd.incrementTerm none).sendRequestVote.Sends (Message.Honest office)
      nd.enterCandidate :=
    .of_send rfl rfl fun _ _ => trivial
  refine ⟨h.outside rfl ?_ (by simp [enterCandidate]), hrequest.trans hvote⟩
  exact Nat.le_succ nd.currentTerm

theorem run_reports [EmptyCollection V] (h : nd.Knows office) (hready : nd.Ready)
    (hoffice : nd.currentRole = .leader → office nd.myId nd.currentTerm) :
    nd.run.Knows office ∧ nd.Sends (Message.Honest office) nd.run := by
  unfold Node.run
  cases hrole : nd.currentRole with
  | leader => exact enterLeader_reports hready (hoffice hrole)
  | follower => exact ⟨h.outside rfl le_rfl (by simp), .of_talker rfl rfl⟩
  | candidate => exact enterCandidate_reports h
  | none => exact ⟨h, .refl⟩

end Node

/-! ## All steps -/

/-- The step in which node `q` takes office in term `t`: it finds itself leader in the loop of
`run`. -/
def TakesOffice (x : Transition (Cluster n V) (UnreliableEvent n V)) (q : Fin n) (t : ℕ) :
    Prop :=
  x.event = .event (.run q) ∧ (x.source.nodes q).currentRole = .leader ∧
    (x.source.nodes q).currentTerm = t

/-- The offices taken in the steps of a history. -/
def TookOffice (history : List (Transition (Cluster n V) (UnreliableEvent n V))) (q : Fin n)
    (t : ℕ) : Prop :=
  ∃ x ∈ history, TakesOffice x q t

namespace Cluster

variable {s s' : Cluster n V} {e : Event n V}

/-- All nodes know, and all messages under way are honest. -/
structure Knows (office : Fin n → ℕ → Prop) (s : Cluster n V) : Prop where
  ids : ∀ p, (s.nodes p).myId = p
  nodes : ∀ p, (s.nodes p).Knows office
  underway : s.Underway (Message.Honest office)

theorem Knows.mono (hle : ∀ q t, office q t → office' q t)
    (h : s.Knows office) : s.Knows office' :=
  ⟨h.ids, fun p => (h.nodes p).mono hle, fun p q packet hpacket =>
    Message.Honest.mono hle (h.underway p q packet hpacket)⟩

variable [EmptyCollection V]

theorem knows_init : (init : Cluster n V).Knows office where
  ids _ := rfl
  nodes _ := ⟨fun l hl => by simp [init, Node.init] at hl, fun hloop => by
    simp [init, Node.init] at hloop⟩
  underway := underway_init

/-- The iteration of a node. -/
theorem iteration_reports {p : Fin n} {nd : Node n V} (h : s.Knows office) (hready : s.Ready)
    (hoffice : e = .run p → (s.nodes p).currentRole = .leader →
      office p (s.nodes p).currentTerm)
    (hs : s.exec e = some s') (hiteration : s.iteration e = some (p, nd)) :
    nd.Knows office ∧ (s.nodes p).Sends (Message.Honest office) nd := by
  have hhonest : ∀ source q message, s.received p source = some (q, message) →
      message.Honest office q (s.nodes p).myId := by
    intro source q message hreceived
    obtain ⟨-, packet, hpacket, rfl⟩ := mem_inflight_of_received hreceived
    rw [h.ids p]
    exact h.underway q p packet hpacket
  obtain ⟨rfl, -, rfl⟩ | ⟨source, timeout, -, hloop, rfl⟩ |
    ⟨source, timeout, k, m, -, hloop, rfl⟩ | ⟨heartbeat, expired, source, -, hloop, rfl⟩ :=
    iteration_cases hs hiteration
  · refine Node.run_reports (h.nodes p) (hready p) fun hrole => ?_
    rw [h.ids p]
    exact hoffice rfl hrole
  · exact Node.follower_reports (h.nodes p) hloop (hhonest source) timeout
  · exact Node.candidate_reports (h.nodes p) hloop (hhonest source) timeout
  · exact Node.leader_reports (h.nodes p) (hready p) hloop heartbeat expired _

/-- A step, where the office that may be taken in it is on record. -/
theorem Knows.exec (h : s.Knows office) (hready : s.Ready)
    (hoffice : ∀ p, e = .run p → (s.nodes p).currentRole = .leader →
      office p (s.nodes p).currentTerm)
    (hs : s.exec e = some s') : s'.Knows office := by
  have hreports : ∀ p nd, s.iteration e = some (p, nd) →
      nd.Knows office ∧ (s.nodes p).Sends (Message.Honest office) nd :=
    fun p nd hiteration => iteration_reports h hready (hoffice p) hs hiteration
  refine ⟨ids_exec h.ids (fun p nd hiteration => (hreports p nd hiteration).2.myId) hs,
    fun q => ?_, h.underway.exec h.ids (fun p nd hiteration => (hreports p nd hiteration).2) hs⟩
  obtain ⟨nd, hiteration, heq⟩ | ⟨-, queue, role, heq, -⟩ := exec_node hs q
  · obtain ⟨hknows, -⟩ := hreports q nd hiteration
    rw [heq]
    exact ⟨hknows.leaderId, hknows.loop⟩
  · rw [heq]
    exact ⟨(h.nodes q).leaderId, (h.nodes q).loop⟩

end Cluster

/-! ## Runs -/

section Runs

variable [EmptyCollection V] {s t : Cluster n V}
  {history : List (Transition (Cluster n V) (UnreliableEvent n V))}

theorem knows_of_run (h : (unreliableSystem n V).Run unguarded history s) :
    s.Knows (TookOffice history) := by
  induction h with
  | init h =>
    obtain rfl : _ = Cluster.init := h
    exact Cluster.knows_init
  | @step history s t e hrun _ hstep ih =>
    have hready : s.Ready := (unreliable_reachable ⟨history, hrun⟩).1
    have hbefore : s.Knows (TookOffice (⟨s, e, t⟩ :: history)) :=
      ih.mono fun q u ⟨x, hx, htakes⟩ => ⟨x, List.mem_cons_of_mem _ hx, htakes⟩
    cases e with
    | event e =>
      refine hbefore.exec hready (fun p hevent hrole => ?_) hstep
      exact ⟨_, List.mem_cons_self .., by rw [hevent], hrole, rfl⟩
    | rearrange net =>
      obtain ⟨hnet, rfl⟩ := hstep
      exact ⟨hbefore.ids, hbefore.nodes, hbefore.underway.rearranges hnet⟩

/-- Along every run of a cluster, whatever its network does to the messages: the leader a node
knows has taken office in a term the node has reached, a node in the loop of a leader knows
itself, and every message under way comes from a node in office, or goes to one, if its kind
asks for that. -/
theorem leader_known (h : (unreliableSystem n V).Run unguarded history s) :
    (∀ p l, (s.nodes p).leaderId = some l →
      ∃ t ≤ (s.nodes p).currentTerm, TookOffice history l t) ∧
    (∀ p, (s.nodes p).loop = .leader →
      TookOffice history p (s.nodes p).currentTerm ∧ (s.nodes p).leaderId = some p) ∧
    s.Underway (Message.Honest (TookOffice history)) := by
  have hknows := knows_of_run h
  refine ⟨fun p => (hknows.nodes p).leaderId, fun p hloop => ?_, hknows.underway⟩
  have hself := (hknows.nodes p).loop hloop
  rwa [hknows.ids p] at hself

end Runs

/-- Node `0` of two is elected with both votes, and node `1` gets its first heartbeat. -/
def firstHeartbeat : List (Event 2 (List ℕ)) :=
  [.run 0, .run 1, .follower 0 none true, .run 0, .candidate 0 (some 0) false,
    .candidate 0 (some 0) false, .follower 1 (some 0) false, .candidate 0 (some 1) false,
    .run 0, .follower 1 (some 0) false]

theorem leader_known_firstHeartbeat :
    ∃ (history : List (Transition (Cluster 2 (List ℕ)) (UnreliableEvent 2 (List ℕ))))
      (s : Cluster 2 (List ℕ)),
      (s.nodes 1).leaderId = some 0 ∧ ∃ t ≤ (s.nodes 1).currentTerm, TookOffice history 0 t := by
  have hreplay : (replay Cluster.exec (fun _ _ => true) []
      (Cluster.init : Cluster 2 (List ℕ)) firstHeartbeat).any
      (fun r => (r.2.nodes 1).leaderId = some 0) = true := by decide
  obtain ⟨history, s, hrun, hleader⟩ :=
    exists_run_of_replay (fun _ (s : Cluster 2 (List ℕ)) => (s.nodes 1).leaderId = some 0)
      hreplay
  obtain ⟨hknown, -, -⟩ := leader_known (unreliable_run hrun)
  exact ⟨_, s, of_decide_eq_true hleader, hknown 1 0 (of_decide_eq_true hleader)⟩

end DreamboatRpc.Raft
