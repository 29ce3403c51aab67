import Mathlib.Data.Finset.Card
import Mathlib.Data.Fintype.Card
import DreamboatRpc.Raft.Steps

/-!
# Elections

A candidate counts granted votes without looking at the term they are stamped
with, so a vote of an earlier candidacy may help to win a later one. This file
shows that this is the only thing that breaks elections: in runs in which every
counted vote is stamped with the term of the candidate, no two nodes lead in the
same term.

The proof keeps a `Ledger`: which candidates every node has granted its vote in
every term, whose votes the present candidacy of a node has counted, and who has
won which term. A node votes at most twice in a term, and twice only if it first
voted for itself as a candidate and then gave up on seeing a heartbeat; then it
never wins that term.

## Main definitions

* `countsCurrentVote` — a counted vote is stamped with the term of the candidate
* `ElectionSafe` — at most one leader in every term
* `Ledger`, `ElectionInv` — the history of votes and the invariant about it

## Main results

* `ElectionInv.elected_unique` — a term is won by at most one node
-/

namespace DreamboatRpc.Raft

open CS FifoNetwork

variable {n : ℕ} {V : Type*}

/-- A granted vote that a candidate counts is stamped with its own term. -/
def countsCurrentVote (s : Cluster n V) : Event n V → Bool
  | .candidate p source _ =>
    match (s.taken p source).map Packet.message with
    | some (.vote term true) => term == (s.nodes p).currentTerm
    | _ => true
  | _ => true

/-- Election safety: two leaders of one term are one node. -/
def ElectionSafe (s : Cluster n V) : Prop :=
  ∀ p q, (s.nodes p).currentRole = .leader → (s.nodes q).currentRole = .leader →
    (s.nodes p).currentTerm = (s.nodes q).currentTerm → p = q

/-! ## Votes under way -/

/-- Whether a packet is a granted vote stamped with term `t`. -/
def Packet.grantsIn (t : ℕ) (packet : Packet n V) : Bool :=
  match packet.message with
  | .vote term true => term == t
  | _ => false

/-- How many granted votes stamped with term `t` are under way from `v` to `c`. -/
def Cluster.votes (s : Cluster n V) (v c : Fin n) (t : ℕ) : ℕ :=
  (s.inflight v c).countP (Packet.grantsIn t)

section Votes

variable {s s' : Cluster n V} {p v c : Fin n} {t : ℕ} {nd nd' : Node n V}
  {out : List (Option (Fin n) × Packet n V)}

theorem Cluster.Fewer.votes_le (h : s'.Fewer s) : s'.votes v c t ≤ s.votes v c t :=
  (h.inflight v c).countP_le

@[simp] theorem votes_publish : (s.publish p).votes v c t = s.votes v c t := by
  simp [Cluster.votes]

theorem votes_setNode_of_ne (h : v ≠ p) : (s.setNode p nd).votes v c t = s.votes v c t := by
  simp [Cluster.votes, Cluster.inflight_setNode_of_ne h]

theorem votes_setNode_self (h : nd.talker = (s.nodes p).talker ++ out) :
    (s.setNode p nd).votes p c t =
      s.votes p c t + (addressedTo c out).countP (Packet.grantsIn t) := by
  rw [Cluster.votes, Cluster.inflight_setNode_self out h, List.countP_append, Cluster.votes]

/-- What is sent contains no granted vote. -/
def NoVotes (out : List (Option (Fin n) × Packet n V)) : Prop :=
  ∀ m ∈ out, ∀ t, m.2.grantsIn t = false

theorem NoVotes.countP (h : NoVotes out) :
    (addressedTo c out).countP (Packet.grantsIn t) = 0 := by
  rw [List.countP_eq_zero]
  intro packet hmem
  rcases mem_addressedTo.mp hmem with hmem | hmem <;> simp [h _ hmem t]

/-- A packet addressed to one node reaches that node only. -/
theorem addressedTo_singleton (c r : Fin n) (packet : Packet n V) :
    addressedTo c [(some r, packet)] = if r = c then [packet] else [] := by
  by_cases h : r = c <;> simp [addressedTo, h]

/-- `nd'` is `nd` as far as elections are concerned: it may have given up a candidacy
or the lead, or recorded a refused vote. -/
structure VoteFrame (nd nd' : Node n V) : Prop where
  myId : nd'.myId = nd.myId
  currentTerm : nd'.currentTerm = nd.currentTerm
  votedFor : nd'.votedFor = none → nd.votedFor = none
  currentRole : nd'.currentRole = .leader → nd.currentRole = .leader
  loop : ∀ k m, nd'.loop = .candidate k m → ∃ m', nd.loop = .candidate k m'

theorem VoteFrame.refl : VoteFrame nd nd :=
  ⟨rfl, rfl, id, id, fun _ m h => ⟨m, h⟩⟩

theorem VoteFrame.trans {nd'' : Node n V} (h : VoteFrame nd nd') (h' : VoteFrame nd' nd'') :
    VoteFrame nd nd'' := by
  refine ⟨h'.myId.trans h.myId, h'.currentTerm.trans h.currentTerm,
    fun hv => h.votedFor (h'.votedFor hv), fun hr => h.currentRole (h'.currentRole hr),
    fun k m hl => ?_⟩
  obtain ⟨m', hl'⟩ := h'.loop k m hl
  exact h.loop k m' hl'

/-- `nd'` has sent what `nd` has, and no further vote. -/
def SentNoVotes (nd nd' : Node n V) : Prop :=
  ∃ out, nd'.talker = nd.talker ++ out ∧ NoVotes out

theorem SentNoVotes.refl : SentNoVotes nd nd := ⟨[], by simp, by simp [NoVotes]⟩

theorem SentNoVotes.trans {nd'' : Node n V} (h : SentNoVotes nd nd')
    (h' : SentNoVotes nd' nd'') : SentNoVotes nd nd'' := by
  obtain ⟨out, hout, hno⟩ := h
  obtain ⟨out', hout', hno'⟩ := h'
  refine ⟨out ++ out', by rw [hout', hout, List.append_assoc], fun m hm => ?_⟩
  rcases List.mem_append.mp hm with hm | hm
  · exact hno m hm
  · exact hno' m hm

theorem sentNoVotes_sendMessage (nd : Node n V) (receiver : Option (Fin n))
    {message : Message n V} (h : ∀ t, message ≠ .vote t true) :
    SentNoVotes nd (nd.sendMessage receiver message) := by
  refine ⟨_, rfl, fun m hm t => ?_⟩
  rw [List.mem_singleton.mp hm]
  cases message with
  | vote term granted =>
    cases granted with
    | true => exact absurd rfl (h term)
    | false => rfl
  | _ => rfl

/-- No operation of a leader matters to elections. -/
theorem voteFrame_leaderOp {Offers : Entry V → Prop} {Credits : Fin n → ℕ → Prop}
    (hop : Node.LeaderOp Offers Credits nd nd') : VoteFrame nd nd' ∧ SentNoVotes nd nd' := by
  have hsame : ∀ k m, nd.loop = .candidate k m → ∃ m', nd.loop = .candidate k m' :=
    fun _ m h => ⟨m, h⟩
  cases hop with
  | heartbeat => exact ⟨⟨rfl, rfl, id, id, hsame⟩, sentNoVotes_sendMessage _ _ (by simp)⟩
  | sendEntry => exact ⟨⟨rfl, rfl, id, id, hsame⟩, sentNoVotes_sendMessage _ _ (by simp)⟩
  | committal => exact ⟨⟨rfl, rfl, id, id, hsame⟩, sentNoVotes_sendMessage _ _ (by simp)⟩
  | crash => exact ⟨⟨rfl, rfl, id, id, by simp⟩, .refl⟩
  | _ => exact ⟨⟨rfl, rfl, id, id, hsame⟩, .refl⟩

theorem voteFrame_leaderOps {Offers : Entry V → Prop} {Credits : Fin n → ℕ → Prop}
    (hops : Node.LeaderOps Offers Credits nd nd') : VoteFrame nd nd' ∧ SentNoVotes nd nd' := by
  induction hops with
  | refl => exact ⟨.refl, .refl⟩
  | tail _ hop ih =>
    have hop' := voteFrame_leaderOp hop
    exact ⟨ih.1.trans hop'.1, ih.2.trans hop'.2⟩

theorem votes_setNode_of_sentNoVotes (h : SentNoVotes (s.nodes p) nd) :
    (s.setNode p nd).votes v c t = s.votes v c t := by
  by_cases hv : v = p
  · subst hv
    obtain ⟨out, hout, hno⟩ := h
    rw [votes_setNode_self hout, hno.countP, Nat.add_zero]
  · exact votes_setNode_of_ne hv

end Votes

/-! ## The ledger -/

/-- The history of elections: whom every node has granted its vote in every term,
oldest first; whose votes the present candidacy of a node has counted; which node
has won which term. -/
structure Ledger (n : ℕ) where
  granted : Fin n → ℕ → List (Fin n)
  counted : Fin n → Finset (Fin n)
  elected : Fin n → ℕ → Prop

/-- The voters of `Q` have all granted `c` their vote of term `t`, and are a majority;
in a cluster of one node there need not be any. -/
def Ledger.Wins (L : Ledger n) (c : Fin n) (t : ℕ) : Prop :=
  n = 1 ∨ ∃ Q : Finset (Fin n), n / 2 < Q.card ∧ ∀ v ∈ Q, c ∈ L.granted v t

/-- Node `p` has granted its vote of term `t` to the candidates `cs`. -/
def Ledger.setGranted (L : Ledger n) (p : Fin n) (t : ℕ) (cs : List (Fin n)) : Ledger n :=
  { L with granted := fun v u => if v = p ∧ u = t then cs else L.granted v u }

/-- Node `p` has counted the votes of `vs`. -/
def Ledger.setCounted (L : Ledger n) (p : Fin n) (vs : Finset (Fin n)) : Ledger n :=
  { L with counted := Function.update L.counted p vs }

/-- Node `p` has won term `t`. -/
def Ledger.setElected (L : Ledger n) (p : Fin n) (t : ℕ) : Ledger n :=
  { L with elected := fun q u => (q = p ∧ u = t) ∨ L.elected q u }

/-- Node `p` has granted its vote of term `t` to the candidates `cs` besides, and has
counted no votes. -/
def Ledger.castVotes (L : Ledger n) (p : Fin n) (t : ℕ) (cs : List (Fin n)) : Ledger n :=
  (L.setGranted p t (L.granted p t ++ cs)).setCounted p ∅

section CastVotes

variable {L : Ledger n} {p q v : Fin n} {t u : ℕ} {cs : List (Fin n)}

theorem Ledger.castVotes_granted_self :
    (L.castVotes p t cs).granted p t = L.granted p t ++ cs :=
  if_pos ⟨rfl, rfl⟩

theorem Ledger.castVotes_granted_of_ne (h : ¬ (v = p ∧ u = t)) :
    (L.castVotes p t cs).granted v u = L.granted v u :=
  if_neg h

theorem Ledger.castVotes_counted_self : (L.castVotes p t cs).counted p = ∅ :=
  Function.update_self ..

theorem Ledger.castVotes_counted_of_ne (h : q ≠ p) :
    (L.castVotes p t cs).counted q = L.counted q :=
  Function.update_of_ne h ..

/-- A vote that was granted stays granted. -/
theorem Ledger.granted_subset_castVotes :
    L.granted v u ⊆ (L.castVotes p t cs).granted v u := by
  by_cases hvu : v = p ∧ u = t
  · rw [hvu.1, hvu.2, Ledger.castVotes_granted_self]
    exact List.subset_append_left _ _
  · rw [Ledger.castVotes_granted_of_ne hvu]
    exact List.Subset.refl _

/-- Of what a node grants when it casts its votes, some may be under way, in addition to
what was under way before. -/
theorem votes_castVotes {s : Cluster n V} {nd : Node n V} {c : Fin n} {k : ℕ}
    {out : List (Option (Fin n) × Packet n V)} (htalker : nd.talker = (s.nodes p).talker ++ out)
    (hout : ∀ c u, (addressedTo c out).countP (Packet.grantsIn u) ≤
      if u = t then cs.count c else 0)
    (hold : s.votes v c u + k ≤ (L.granted v u).count c) :
    (s.setNode p nd).votes v c u + k ≤ ((L.castVotes p t cs).granted v u).count c := by
  by_cases hv : v = p
  · subst hv
    rw [votes_setNode_self htalker]
    have hnew := hout c u
    by_cases hu : u = t
    · subst hu
      rw [if_pos rfl] at hnew
      rw [Ledger.castVotes_granted_self, List.count_append]
      omega
    · rw [if_neg hu] at hnew
      rw [Ledger.castVotes_granted_of_ne fun hvu => hu hvu.2]
      omega
  · rw [votes_setNode_of_ne hv, Ledger.castVotes_granted_of_ne fun hvu => hv hvu.1]
    exact hold

end CastVotes

/-- What the ledger says about a cluster. -/
structure ElectionInv (s : Cluster n V) (L : Ledger n) : Prop where
  myId : ∀ p, (s.nodes p).myId = p
  /-- No votes in terms to come. -/
  future : ∀ p t, (s.nodes p).currentTerm < t → L.granted p t = []
  /-- One vote a term, or a vote for itself and then another one. -/
  shape : ∀ p t, L.granted p t = [] ∨ (∃ c, L.granted p t = [c]) ∨
    ∃ c, L.granted p t = [p, c] ∧ ¬ L.elected p t
  /-- A node that may vote has not voted, except for itself without winning. -/
  free : ∀ p, (s.nodes p).votedFor = none →
    L.granted p (s.nodes p).currentTerm = [] ∨
    (L.granted p (s.nodes p).currentTerm = [p] ∧ ¬ L.elected p (s.nodes p).currentTerm)
  /-- A candidate has voted for itself only, and counted what it says it has. -/
  running : ∀ p k m, (s.nodes p).loop = .candidate k m →
    (s.nodes p).votedFor ≠ none ∧ L.granted p (s.nodes p).currentTerm = [p] ∧
    ¬ L.elected p (s.nodes p).currentTerm ∧ k = (L.counted p).card ∧
    ∀ v, s.votes v p (s.nodes p).currentTerm + (if v ∈ L.counted p then 1 else 0) ≤
      (L.granted v (s.nodes p).currentTerm).count p
  /-- Every vote under way was granted. -/
  votes : ∀ v c t, s.votes v c t ≤ (L.granted v t).count c
  /-- A winner had a majority and voted for nobody else. -/
  elected : ∀ p t, L.elected p t → L.granted p t = [p] ∧ t ≤ (s.nodes p).currentTerm ∧
    (t = (s.nodes p).currentTerm → (s.nodes p).votedFor ≠ none) ∧ L.Wins p t
  leads : ∀ p, (s.nodes p).currentRole = .leader → L.elected p (s.nodes p).currentTerm

namespace ElectionInv

variable {s s' : Cluster n V} {L : Ledger n} {p q v c : Fin n} {t : ℕ} {nd : Node n V}

theorem init [EmptyCollection V] :
    ElectionInv (Cluster.init : Cluster n V) ⟨fun _ _ => [], fun _ => ∅, fun _ _ => False⟩ where
  myId _ := rfl
  future _ _ _ := rfl
  shape _ _ := .inl rfl
  free _ _ := .inl rfl
  running p k m h := by simp [Cluster.init, Node.init] at h
  votes v c t := by
    simp [Cluster.votes, Cluster.inflight, Cluster.init, Node.init, FifoNetwork.empty]
  elected _ _ h := h.elim
  leads p h := by simp [Cluster.init, Node.init] at h

/-- A majority of the votes of a term cannot go to two nodes that won it. -/
theorem elected_unique (h : ElectionInv s L) (hp : L.elected p t) (hq : L.elected q t) :
    p = q := by
  obtain ⟨hgrantp, -, -, hwinp⟩ := h.elected p t hp
  obtain ⟨hgrantq, -, -, hwinq⟩ := h.elected q t hq
  rcases hwinp with h1 | ⟨Q, hQ, hQp⟩
  · subst h1
    exact Subsingleton.elim p q
  rcases hwinq with h1 | ⟨R, hR, hRq⟩
  · subst h1
    exact Subsingleton.elim p q
  -- two majorities have a voter in common
  have hinter : (Q ∩ R).Nonempty := by
    refine Finset.inter_nonempty_of_card_lt_card_add_card (s := Finset.univ)
      (Finset.subset_univ _) (Finset.subset_univ _) ?_
    rw [Finset.card_univ, Fintype.card_fin]
    omega
  obtain ⟨v, hv⟩ := hinter
  have hvp := hQp v (Finset.mem_inter.mp hv).1
  have hvq := hRq v (Finset.mem_inter.mp hv).2
  rcases h.shape v t with hnil | ⟨c, hone⟩ | ⟨c, htwo, hlost⟩
  · simp [hnil] at hvp
  · rw [hone, List.mem_singleton] at hvp hvq
    rw [hvp, hvq]
  · -- the voter voted for itself first, so it is neither of the winners
    have hvp' : v ≠ p := fun heq => hlost (heq ▸ hp)
    have hvq' : v ≠ q := fun heq => hlost (heq ▸ hq)
    simp only [htwo, List.mem_cons, List.not_mem_nil, or_false] at hvp hvq
    rcases hvp with hvp | hvp
    · exact absurd hvp.symm hvp'
    · rcases hvq with hvq | hvq
      · exact absurd hvq.symm hvq'
      · rw [hvp, hvq]

theorem electionSafe (h : ElectionInv s L) : ElectionSafe s := by
  intro p q hp hq hterm
  have hq' := h.leads q hq
  rw [← hterm] at hq'
  exact h.elected_unique (h.leads p hp) hq'

/-! ### Steps that do not matter to elections -/

/-- Nodes that only gave up a role, and no more votes under way. -/
theorem frame (h : ElectionInv s L) (hnodes : ∀ q, VoteFrame (s.nodes q) (s'.nodes q))
    (hvotes : ∀ v c t, s'.votes v c t ≤ s.votes v c t) : ElectionInv s' L where
  myId p := by rw [(hnodes p).myId, h.myId]
  future p t := by rw [(hnodes p).currentTerm]; exact h.future p t
  shape := h.shape
  free p hv := by
    rw [(hnodes p).currentTerm]
    exact h.free p ((hnodes p).votedFor hv)
  running p k m hloop := by
    obtain ⟨m', hloop'⟩ := (hnodes p).loop k m hloop
    obtain ⟨hvoted, hgrant, hlost, hcard, hcount⟩ := h.running p k m' hloop'
    rw [(hnodes p).currentTerm]
    refine ⟨fun hv => hvoted ((hnodes p).votedFor hv), hgrant, hlost, hcard, fun v => ?_⟩
    exact (Nat.add_le_add_right (hvotes _ _ _) _).trans (hcount v)
  votes v c t := (hvotes v c t).trans (h.votes v c t)
  elected p t hp := by
    obtain ⟨hgrant, hle, hvoted, hwin⟩ := h.elected p t hp
    rw [(hnodes p).currentTerm]
    -- who has won stays on the ledger, whatever role it has now
    exact ⟨hgrant, hle, fun ht hv => hvoted ht ((hnodes p).votedFor hv), hwin⟩
  leads p hr := by
    rw [(hnodes p).currentTerm]
    exact h.leads p ((hnodes p).currentRole hr)

theorem fewer (h : ElectionInv s L) (hs : s'.Fewer s) : ElectionInv s' L :=
  h.frame (fun _ => by rw [hs.nodes]; exact .refl) fun _ _ _ => hs.votes_le

theorem setNode_frame (h : ElectionInv s L) (hf : VoteFrame (s.nodes p) nd)
    (hsent : SentNoVotes (s.nodes p) nd) : ElectionInv (s.setNode p nd) L := by
  refine h.frame (fun q => ?_) fun v c t => (votes_setNode_of_sentNoVotes hsent).le
  exact Cluster.forall_setNode (Q := fun q x => VoteFrame (s.nodes q) x) hf (fun _ => .refl) q

theorem publish (h : ElectionInv s L) : ElectionInv (s.publish p) L := by
  refine h.frame (fun q => ?_) fun v c t => votes_publish.le
  by_cases hq : q = p
  · subst hq
    rw [Cluster.publish_nodes_self]
    exact ⟨rfl, rfl, id, id, fun _ m h => ⟨m, h⟩⟩
  · rw [Cluster.publish_nodes_of_ne hq]
    exact .refl

/-! ### Steps that matter -/

/-- A node that may vote in the term it moves to, or is in, votes for one node or for
nobody: an election or a leader it hears of, or an election it starts. -/
theorem castVote (h : ElectionInv s L) (cs : List (Fin n))
    (out : List (Option (Fin n) × Packet n V))
    (hid : nd.myId = p) (hle : (s.nodes p).currentTerm ≤ nd.currentTerm)
    (hfree : L.granted p nd.currentTerm = [] ∨
      (L.granted p nd.currentTerm = [p] ∧ ¬ L.elected p nd.currentTerm))
    (hrole : nd.currentRole ≠ .leader) (hcs : cs = [] ∨ ∃ c, cs = [c])
    (hvoted : nd.votedFor = none → cs = [])
    (hloop : ∀ k m, nd.loop = .candidate k m →
      k = 0 ∧ nd.votedFor ≠ none ∧ L.granted p nd.currentTerm ++ cs = [p])
    (htalker : nd.talker = (s.nodes p).talker ++ out)
    (hout : ∀ c t, (addressedTo c out).countP (Packet.grantsIn t) ≤
      if t = nd.currentTerm then cs.count c else 0) :
    ElectionInv (s.setNode p nd) (L.castVotes p nd.currentTerm cs) := by
  have hlost : ¬ L.elected p nd.currentTerm := fun he => by
    rcases hfree with hnil | hself
    · have hgrant := (h.elected p _ he).1
      simp [hnil] at hgrant
    · exact hself.2 he
  constructor
  case myId =>
    intro q
    exact Cluster.forall_setNode (Q := fun q x => x.myId = q) hid h.myId q
  case future =>
    intro q t ht
    rw [Cluster.setNode_nodes] at ht
    split at ht
    · rename_i hq
      rw [Ledger.castVotes_granted_of_ne fun hqt => by omega, hq]
      exact h.future p t (by omega)
    · rename_i hq
      rw [Ledger.castVotes_granted_of_ne fun hqt => hq hqt.1]
      exact h.future q t ht
  case shape =>
    intro q t
    by_cases hqt : q = p ∧ t = nd.currentTerm
    · rw [hqt.1, hqt.2, Ledger.castVotes_granted_self]
      rcases hfree with hnil | ⟨hself, -⟩ <;> rcases hcs with rfl | ⟨c, rfl⟩
      · exact .inl (by simp [hnil])
      · exact .inr (.inl ⟨c, by simp [hnil]⟩)
      · exact .inr (.inl ⟨p, by simp [hself]⟩)
      · exact .inr (.inr ⟨c, by simp [hself], hlost⟩)
    · rw [Ledger.castVotes_granted_of_ne hqt]
      exact h.shape q t
  case free =>
    intro q hq
    by_cases hqp : q = p
    · subst hqp
      rw [Cluster.setNode_nodes_self] at hq ⊢
      rw [Ledger.castVotes_granted_self, hvoted hq, List.append_nil]
      exact hfree
    · rw [Cluster.setNode_nodes_of_ne hqp] at hq ⊢
      rw [Ledger.castVotes_granted_of_ne fun hqt => hqp hqt.1]
      exact h.free q hq
  case running =>
    intro q k m hq
    by_cases hqp : q = p
    · -- a candidacy that has just begun has counted no votes
      subst hqp
      rw [Cluster.setNode_nodes_self] at hq ⊢
      obtain ⟨rfl, hvoted', hself⟩ := hloop k m hq
      rw [Ledger.castVotes_counted_self, Ledger.castVotes_granted_self]
      refine ⟨hvoted', hself, hlost, rfl, fun v => ?_⟩
      rw [if_neg (Finset.notMem_empty v)]
      exact votes_castVotes htalker hout (h.votes v q _)
    · rw [Cluster.setNode_nodes_of_ne hqp] at hq ⊢
      obtain ⟨hvoted', hgrant, hlost', hcard, hcount⟩ := h.running q k m hq
      rw [Ledger.castVotes_counted_of_ne hqp,
        Ledger.castVotes_granted_of_ne fun hqt => hqp hqt.1]
      exact ⟨hvoted', hgrant, hlost', hcard, fun v => votes_castVotes htalker hout (hcount v)⟩
  case votes => exact fun v c t => votes_castVotes (k := 0) htalker hout (h.votes v c t)
  case elected =>
    intro q t hq
    obtain ⟨hgrant, hbefore, hvoted', hwin⟩ := h.elected q t hq
    have hqt : ¬ (q = p ∧ t = nd.currentTerm) := by
      rintro ⟨rfl, rfl⟩
      exact hlost hq
    rw [Ledger.castVotes_granted_of_ne hqt, Cluster.setNode_nodes]
    refine ⟨hgrant, ?_, ?_, ?_⟩
    · split
      · rename_i hqp
        rw [hqp] at hbefore
        omega
      · exact hbefore
    · split
      · rename_i hqp
        exact fun ht => absurd ⟨hqp, ht⟩ hqt
      · exact hvoted'
    · refine hwin.imp id fun hquorum => ?_
      obtain ⟨Q, hQ, hQv⟩ := hquorum
      exact ⟨Q, hQ, fun v hv => Ledger.granted_subset_castVotes (hQv v hv)⟩
  case leads =>
    intro q hq
    rw [Cluster.setNode_nodes] at hq ⊢
    split at hq
    · exact absurd hq hrole
    · rename_i hqp
      rw [if_neg hqp]
      exact h.leads q hq

/-- Nobody has voted twice for a running candidate. -/
theorem count_le_one (h : ElectionInv s L) {k m : ℕ}
    (hloop : (s.nodes p).loop = .candidate k m) (v : Fin n) :
    (L.granted v (s.nodes p).currentTerm).count p ≤ 1 := by
  obtain ⟨-, hself, -, -, -⟩ := h.running p k m hloop
  by_cases hv : v = p
  · rw [hv, hself]
    exact List.count_le_length
  rcases h.shape v (s.nodes p).currentTerm with hnil | ⟨c, hone⟩ | ⟨c, htwo, -⟩
  · simp [hnil]
  · rw [hone]
    exact List.count_le_length
  · rw [htwo, List.count_cons_of_ne hv]
    exact List.count_le_length

/-- When a running candidate takes a granted vote of its own term off the network, it
has not counted that voter before. -/
theorem tally (h : ElectionInv s L) (hs : s'.Fewer s) {k m : ℕ}
    (hloop : (s.nodes p).loop = .candidate k m)
    (htaken : s'.votes v p (s.nodes p).currentTerm < s.votes v p (s.nodes p).currentTerm) :
    (insert v (L.counted p)).card = k + 1 ∧
      ∀ w, s'.votes w p (s.nodes p).currentTerm +
          (if w ∈ insert v (L.counted p) then 1 else 0) ≤
        (L.granted w (s.nodes p).currentTerm).count p := by
  obtain ⟨-, -, -, hcard, hcount⟩ := h.running p k m hloop
  -- otherwise it would have voted twice, once counted and once under way
  have hnew : v ∉ L.counted p := by
    intro hmem
    have hv := hcount v
    have hone := h.count_le_one hloop v
    rw [if_pos hmem] at hv
    omega
  refine ⟨by rw [Finset.card_insert_of_notMem hnew, hcard], fun w => ?_⟩
  have hw := hcount w
  by_cases hwv : w = v
  · subst hwv
    rw [if_pos (Finset.mem_insert_self _ _)]
    omega
  · have hle : s'.votes w p (s.nodes p).currentTerm ≤ s.votes w p (s.nodes p).currentTerm :=
      hs.votes_le
    simp only [Finset.mem_insert, hwv, false_or]
    omega

/-- A candidate that does not win keeps its tally. -/
theorem keepTally (h : ElectionInv s L) {k m : ℕ} {Q : Finset (Fin n)}
    (hrunning : ∃ k m, (s.nodes p).loop = .candidate k m) (hcard : Q.card = k)
    (hcount : ∀ v, s.votes v p (s.nodes p).currentTerm + (if v ∈ Q then 1 else 0) ≤
      (L.granted v (s.nodes p).currentTerm).count p) :
    ElectionInv (s.setNode p { s.nodes p with loop := .candidate k m }) (L.setCounted p Q) := by
  obtain ⟨k₀, m₀, hloop⟩ := hrunning
  have hvotes : ∀ v c t, (s.setNode p { s.nodes p with loop := .candidate k m }).votes v c t =
      s.votes v c t := fun v c t => votes_setNode_of_sentNoVotes .refl
  have hsame : ∀ q, (s.nodes q).myId =
        ((s.setNode p { s.nodes p with loop := .candidate k m }).nodes q).myId ∧
      (s.nodes q).currentTerm =
        ((s.setNode p { s.nodes p with loop := .candidate k m }).nodes q).currentTerm ∧
      (s.nodes q).votedFor =
        ((s.setNode p { s.nodes p with loop := .candidate k m }).nodes q).votedFor ∧
      (s.nodes q).currentRole =
        ((s.setNode p { s.nodes p with loop := .candidate k m }).nodes q).currentRole := by
    intro q
    rw [Cluster.setNode_nodes]
    split
    · rename_i hq
      rw [hq]
      exact ⟨rfl, rfl, rfl, rfl⟩
    · exact ⟨rfl, rfl, rfl, rfl⟩
  constructor
  case myId =>
    intro q
    rw [← (hsame q).1]
    exact h.myId q
  case future =>
    intro q t ht
    rw [← (hsame q).2.1] at ht
    exact h.future q t ht
  case shape => exact h.shape
  case free =>
    intro q hq
    rw [← (hsame q).2.2.1] at hq
    rw [← (hsame q).2.1]
    exact h.free q hq
  case running =>
    intro q k' m' hq
    rw [← (hsame q).2.1, ← (hsame q).2.2.1]
    by_cases hqp : q = p
    · subst hqp
      rw [Cluster.setNode_nodes_self] at hq
      simp only [Loop.candidate.injEq] at hq
      obtain ⟨rfl, rfl⟩ := hq
      obtain ⟨hvoted, hgrant, hlost, -, -⟩ := h.running q k₀ m₀ hloop
      -- only the tally is new, and `Q` is that tally
      refine ⟨hvoted, hgrant, hlost, by simp [Ledger.setCounted, hcard], fun v => ?_⟩
      rw [hvotes]
      simpa [Ledger.setCounted] using hcount v
    · rw [Cluster.setNode_nodes_of_ne hqp] at hq
      have hcounted : (L.setCounted p Q).counted q = L.counted q := by
        simp [Ledger.setCounted, hqp]
      rw [hcounted]
      simp only [hvotes]
      exact h.running q k' m' hq
  case votes =>
    intro v c t
    rw [hvotes]
    exact h.votes v c t
  case elected =>
    intro q t hq
    rw [← (hsame q).2.1, ← (hsame q).2.2.1]
    exact h.elected q t hq
  case leads =>
    intro q hq
    rw [← (hsame q).2.2.2] at hq
    rw [← (hsame q).2.1]
    exact h.leads q hq

/-- A candidate with a majority becomes leader. -/
theorem win (h : ElectionInv s L) {k m : ℕ} (hloop : (s.nodes p).loop = .candidate k m)
    (hwins : L.Wins p (s.nodes p).currentTerm) :
    ElectionInv (s.setNode p { s.nodes p with currentRole := .leader, loop := .run })
      (L.setElected p (s.nodes p).currentTerm) := by
  obtain ⟨hvoted, hgrant, -, -, -⟩ := h.running p k m hloop
  have hvotes : ∀ v c t,
      (s.setNode p { s.nodes p with currentRole := .leader, loop := .run }).votes v c t =
        s.votes v c t := fun v c t => votes_setNode_of_sentNoVotes .refl
  have hlost : ∀ q t, ¬ (q = p ∧ t = (s.nodes p).currentTerm) → ¬ L.elected q t →
      ¬ (L.setElected p (s.nodes p).currentTerm).elected q t := by
    rintro q t hqt hlost (hqt' | he)
    · exact hqt hqt'
    · exact hlost he
  constructor
  case myId =>
    intro q
    refine Cluster.forall_setNode (Q := fun q x => x.myId = q) ?_ h.myId q
    exact h.myId p
  case future =>
    intro q t ht
    rw [Cluster.setNode_nodes] at ht
    split at ht
    · rename_i hq
      rw [hq]
      exact h.future p t ht
    · exact h.future q t ht
  case shape =>
    intro q t
    rcases h.shape q t with hnil | hone | ⟨c, htwo, hne⟩
    · exact .inl hnil
    · exact .inr (.inl hone)
    · -- two votes are those of a node that has not won, and the winner has cast one
      by_cases hqt : q = p ∧ t = (s.nodes p).currentTerm
      · obtain ⟨rfl, rfl⟩ := hqt
        exact .inr (.inl ⟨q, hgrant⟩)
      · exact .inr (.inr ⟨c, htwo, hlost q t hqt hne⟩)
  case free =>
    intro q hq
    rw [Cluster.setNode_nodes] at hq ⊢
    split at hq
    · exact absurd hq hvoted
    · rename_i hqp
      rw [if_neg hqp]
      exact (h.free q hq).imp id fun hself =>
        ⟨hself.1, hlost q _ (fun hqt => hqp hqt.1) hself.2⟩
  case running =>
    intro q k' m' hq
    by_cases hqp : q = p
    · subst hqp
      simp at hq
    · simp only [hvotes]
      rw [Cluster.setNode_nodes_of_ne hqp] at hq ⊢
      obtain ⟨hvoted', hgrant', hne, hcard, hcount⟩ := h.running q k' m' hq
      exact ⟨hvoted', hgrant', hlost q _ (fun hqt => hqp hqt.1) hne, hcard, hcount⟩
  case votes =>
    intro v c t
    rw [hvotes]
    exact h.votes v c t
  case elected =>
    intro q t hq
    rcases hq with ⟨rfl, rfl⟩ | hq
    · refine ⟨hgrant, ?_, ?_, hwins⟩
      · simp
      · simpa using hvoted
    · obtain ⟨hgrant', hle, hvoted', hwins'⟩ := h.elected q t hq
      refine ⟨hgrant', ?_, ?_, hwins'⟩
      · rw [Cluster.setNode_nodes]
        split
        · rename_i hqp
          rwa [hqp] at hle
        · exact hle
      · rw [Cluster.setNode_nodes]
        split
        · rename_i hqp
          rwa [hqp] at hvoted'
        · exact hvoted'
  case leads =>
    intro q hq
    rw [Cluster.setNode_nodes] at hq ⊢
    split at hq
    · rename_i hqp
      rw [if_pos hqp]
      exact .inl ⟨hqp, rfl⟩
    · rename_i hqp
      rw [if_neg hqp]
      exact .inr (h.leads q hq)

end ElectionInv

end DreamboatRpc.Raft
