import DreamboatRpc.CS.Matching
import DreamboatRpc.Raft.Election
import DreamboatRpc.Raft.Quiet

/-!
# Replication

What a node has stored for the leader of a term, and why that lasts. The `Archive`
keeps the log of the leader of every term, also after it lost the lead, and up to
which index every node has ever stored that log. A node that is in a later term will
store no more of an earlier one; where it has stored less than an index, no leader of
the earlier term will ever have that index acknowledged by all nodes.

## Main definitions

* `Archive` — the leaders of all terms, their logs, and what is stored of them
* `Archive.Vouches` — a message under way says nothing wrong about the archive
* `ReplicationInv` — the invariant about logs, acknowledges and match indices

## Main results

* `ReplicationInv.setNode_frame` — steps that leave the log alone
* `ReplicationInv.append`, `ReplicationInv.store`, `ReplicationInv.elect` — a leader
  appends, a follower accepts an entry, a candidate wins
-/

namespace DreamboatRpc.Raft

open CS FifoNetwork

variable {n : ℕ} {V : Type*}

/-- The history of replication: who has won which term, the log of the leader of
every term, and the last index of that log that every node has ever stored. -/
structure Archive (n : ℕ) (V : Type*) where
  elected : Fin n → ℕ → Prop
  leaderLog : ℕ → List (Entry V)
  stored : Fin n → ℕ → ℕ

namespace Archive

variable {A A' A'' : Archive n V} {p q : Fin n} {t m : ℕ}

/-- `A'` is a later state of the archive `A`. -/
structure Extends (A A' : Archive n V) : Prop where
  elected : A.elected ≤ A'.elected
  leaderLog : ∀ t, A.leaderLog t <+: A'.leaderLog t
  stored : ∀ q t, A.stored q t ≤ A'.stored q t

theorem Extends.refl : A.Extends A := ⟨le_rfl, fun _ => List.prefix_rfl, fun _ _ => le_rfl⟩

theorem Extends.trans (h : A.Extends A') (h' : A'.Extends A'') : A.Extends A'' :=
  ⟨h.elected.trans h'.elected, fun t => (h.leaderLog t).trans (h'.leaderLog t),
    fun q t => (h.stored q t).trans (h'.stored q t)⟩

/-- An `AppendEntries` of term `t` offers an entry of the leader of `t` with its
predecessor; a positive acknowledge of one means that the sender has stored it. -/
def Vouches (A : Archive n V) (sender : Fin n) (packet : Packet n V) : Prop :=
  match packet.message with
  | .appendEntries t _ k u e _ =>
    ((A.leaderLog t)[k]?).map Entry.term = some u ∧ (A.leaderLog t)[k + 1]? = some e
  | .acknowledge _ true =>
    ∀ t l k u e c, packet.cause = some (.appendEntries t l k u e c) → k + 1 ≤ A.stored sender t
  | _ => True

theorem vouches_of_isPlain (A : Archive n V) {packet : Packet n V}
    (h : packet.message.isPlain = true) : A.Vouches p packet := by
  unfold Vouches
  split
  · rename_i hmessage
    simp [hmessage, Message.isPlain] at h
  · rename_i hmessage
    simp [hmessage, Message.isPlain] at h
  · trivial

theorem getElem?_of_extended {α : Type*} {l l' : List α} {i : ℕ} {a : α} (hp : l <+: l')
    (ha : l[i]? = some a) : l'[i]? = some a := by
  obtain ⟨x, rfl⟩ := hp
  rw [List.getElem?_append_left (List.getElem?_eq_some_iff.mp ha).1, ha]

theorem Extends.vouches (h : A.Extends A') {packet : Packet n V} (hv : A.Vouches p packet) :
    A'.Vouches p packet := by
  unfold Vouches at *
  split
  · rename_i t l k u e c hmessage
    rw [hmessage] at hv
    obtain ⟨hprev, hentry⟩ := hv
    obtain ⟨prev, hprev', rfl⟩ := Option.map_eq_some_iff.mp hprev
    rw [getElem?_of_extended (h.leaderLog t) hprev']
    exact ⟨rfl, getElem?_of_extended (h.leaderLog t) hentry⟩
  · rename_i t hmessage
    rw [hmessage] at hv
    intro t l k u e c hcause
    exact (hv t l k u e c hcause).trans (h.stored p t)
  · trivial

/-- The match indices of a leader are covered by its own commit index or by what the
nodes have stored of its log. -/
def Backs (A : Archive n V) (nd : Node n V) : Prop :=
  ∀ q, nd.matchIndex q ≤ nd.commitIndex ∨ nd.matchIndex q ≤ A.stored q nd.currentTerm

theorem Extends.backs (h : A.Extends A') {nd : Node n V} (hb : A.Backs nd) : A'.Backs nd :=
  fun q => (hb q).imp id fun hq => hq.trans (h.stored q _)

/-- The archive after `p` as the leader of term `t` has got the log `log`. -/
def record (A : Archive n V) (p : Fin n) (t : ℕ) (log : List (Entry V)) : Archive n V where
  elected q u := (q = p ∧ u = t) ∨ A.elected q u
  leaderLog := Function.update A.leaderLog t log
  stored q u := if q = p ∧ u = t then log.length - 1 else A.stored q u

variable {log : List (Entry V)}

@[simp] theorem record_leaderLog_self : (A.record p t log).leaderLog t = log := by
  simp [record]

theorem record_leaderLog_of_ne {u : ℕ} (h : u ≠ t) :
    (A.record p t log).leaderLog u = A.leaderLog u := by
  simp [record, h]

@[simp] theorem record_stored_self : (A.record p t log).stored p t = log.length - 1 := by
  simp [record]

theorem record_stored_of_ne {u : ℕ} (h : ¬ (q = p ∧ u = t)) :
    (A.record p t log).stored q u = A.stored q u := by
  simp only [record, if_neg h]

theorem record_extends (hlog : A.leaderLog t <+: log) (hstored : A.stored p t ≤ log.length - 1) :
    A.Extends (A.record p t log) := by
  refine ⟨fun q u hq => .inr hq, fun u => ?_, fun q u => ?_⟩
  · by_cases hu : u = t
    · rw [hu, record_leaderLog_self]
      exact hlog
    · rw [record_leaderLog_of_ne hu]
  · by_cases hqu : q = p ∧ u = t
    · rw [hqu.1, hqu.2, record_stored_self]
      exact hstored
    · rw [record_stored_of_ne hqu]

/-- The archive after `p` has stored the log of the leader of term `t` up to index `k`. -/
def raise (A : Archive n V) (p : Fin n) (t k : ℕ) : Archive n V :=
  { A with stored := fun q u => if q = p ∧ u = t then max (A.stored p t) k else A.stored q u }

@[simp] theorem raise_stored_self : (A.raise p t m).stored p t = max (A.stored p t) m := by
  simp [raise]

theorem raise_stored_of_ne {u : ℕ} (h : ¬ (q = p ∧ u = t)) :
    (A.raise p t m).stored q u = A.stored q u := by
  simp only [raise, if_neg h]

theorem extends_raise : A.Extends (A.raise p t m) := by
  refine ⟨le_rfl, fun _ => List.prefix_rfl, fun q u => ?_⟩
  by_cases hqu : q = p ∧ u = t
  · rw [hqu.1, hqu.2, raise_stored_self]
    exact le_max_left _ _
  · rw [raise_stored_of_ne hqu]

/-- Some node has left term `t` behind without having stored index `m` of its leader. -/
def Overtaken (A : Archive n V) (s : Cluster n V) (t m : ℕ) : Prop :=
  ∃ r, t < (s.nodes r).currentTerm ∧ A.stored r t < m

theorem Overtaken.mono {s s' : Cluster n V} (h : A.Overtaken s t m)
    (hterm : ∀ r, (s.nodes r).currentTerm ≤ (s'.nodes r).currentTerm)
    (hstored : ∀ r, t < (s.nodes r).currentTerm → A'.stored r t ≤ A.stored r t) :
    A'.Overtaken s' t m := by
  obtain ⟨r, hr, hm⟩ := h
  exact ⟨r, hr.trans_le (hterm r), (hstored r hr).trans_lt hm⟩

/-- A step of `p` stores entries of its present term only, and a term left behind is an
earlier one. -/
theorem Overtaken.setNode {s : Cluster n V} {nd : Node n V} (h : A.Overtaken s t m)
    (hterm : (s.nodes p).currentTerm ≤ nd.currentTerm)
    (hstored : ∀ {q u}, ¬ (q = p ∧ u = nd.currentTerm) → A'.stored q u = A.stored q u) :
    A'.Overtaken (s.setNode p nd) t m := by
  refine h.mono (fun r => ?_) fun r hr => ?_
  · exact Cluster.forall_setNode (Q := fun q x => (s.nodes q).currentTerm ≤ x.currentTerm) hterm
      (fun _ => le_rfl) r
  · rw [hstored]
    rintro ⟨rfl, rfl⟩
    omega

end Archive

/-- The loops in which a leader has set up its match indices. -/
def Node.InOffice (nd : Node n V) : Prop :=
  nd.currentRole = .leader ∧ (nd.loop = .leader ∨ nd.loop = .crashed)

section Invariant

variable [EmptyCollection V]

/-- A term has one leader, and an entry of its log, with all before it, is an entry of
the log of the leader of the term it is stamped with. -/
structure Archive.Coherent (A : Archive n V) : Prop where
  unique : ∀ p q t, A.elected p t → A.elected q t → p = q
  noLeader : ∀ t, (∀ p, ¬ A.elected p t) → A.leaderLog t = []
  head : ∀ p t, A.elected p t → (A.leaderLog t)[0]? = some Node.initialEntry
  terms : ∀ t (i : ℕ) (e : Entry V), (A.leaderLog t)[i]? = some e → e.term ≤ t
  matching : ∀ t (i : ℕ) (e : Entry V), 1 ≤ i → (A.leaderLog t)[i]? = some e →
    AgreeTo i (A.leaderLog e.term) (A.leaderLog t)

/-- What the archive says about node `p`. -/
structure Archive.Describes (A : Archive n V) (p : Fin n) (nd : Node n V) : Prop where
  myId : nd.myId = p
  reached : ∀ t, A.elected p t → t ≤ nd.currentTerm
  leads : nd.currentRole = .leader → A.elected p nd.currentTerm
  /-- The log of a leader is the one on record. -/
  leading : nd.currentRole = .leader → A.leaderLog nd.currentTerm = nd.log
  head : nd.log[0]? = some Node.initialEntry
  terms : ∀ (i : ℕ) (e : Entry V), nd.log[i]? = some e → e.term ≤ nd.currentTerm
  /-- An entry and all before it are those of the leader of its term. -/
  matching : ∀ (i : ℕ) (e : Entry V), 1 ≤ i → nd.log[i]? = some e →
    AgreeTo i (A.leaderLog e.term) nd.log
  stored : ∀ t, 1 ≤ A.stored p t → A.stored p t < (A.leaderLog t).length ∧ t ≤ nd.currentTerm
  storedLeading : nd.currentRole = .leader → A.stored p nd.currentTerm = nd.logMaxIndex
  /-- A node keeps what it has stored in its present term. -/
  storedCurrent : ∀ m, 1 ≤ m → m ≤ A.stored p nd.currentTerm →
    AgreeTo m nd.log (A.leaderLog nd.currentTerm)
  backed : nd.InOffice → A.Backs nd

/-- What the archive says about a cluster. -/
structure ReplicationInv (s : Cluster n V) (A : Archive n V) : Prop where
  archive : A.Coherent
  nodes : ∀ p, A.Describes p (s.nodes p)
  /-- A node loses what it has stored in an earlier term only where all nodes never will. -/
  storedBefore : ∀ p t m, 1 ≤ m → m ≤ A.stored p t →
    AgreeTo m (s.nodes p).log (A.leaderLog t) ∨ A.Overtaken s t m
  /-- The log of a later leader contains that of an earlier one, except where all nodes
  never will. -/
  carries : ∀ p t' t m, A.elected p t' → t < t' → 1 ≤ m → m < (A.leaderLog t).length →
    AgreeTo m (A.leaderLog t') (A.leaderLog t) ∨ A.Overtaken s t m
  vouched : ∀ p q, ∀ packet ∈ s.inflight p q, A.Vouches p packet

end Invariant

section Describes

variable [EmptyCollection V] {A A' : Archive n V} {p : Fin n} {nd nd' : Node n V}

theorem Archive.Describes.log_ne_nil (h : A.Describes p nd) : nd.log ≠ [] := by
  intro hnil
  have hhead := h.head
  simp [hnil] at hhead

/-- Nothing is stored of the leaders of terms to come. -/
theorem Archive.Describes.stored_eq_zero {t : ℕ} (h : A.Describes p nd)
    (ht : nd.currentTerm < t) : A.stored p t = 0 := by
  by_contra hne
  have hle := (h.stored t (Nat.one_le_iff_ne_zero.mpr hne)).2
  omega

/-- The archive moves on, but not in what it says about `p`. -/
theorem Archive.Describes.extend (h : A.Describes p nd) (hext : A.Extends A')
    (helected : ∀ t, A'.elected p t → A.elected p t)
    (hstored : ∀ t, A'.stored p t = A.stored p t)
    (hleading : nd.currentRole = .leader →
      A'.leaderLog nd.currentTerm = A.leaderLog nd.currentTerm) : A'.Describes p nd where
  myId := h.myId
  reached t ht := h.reached t (helected t ht)
  leads hrole := hext.elected _ _ (h.leads hrole)
  leading hrole := (hleading hrole).trans (h.leading hrole)
  head := h.head
  terms := h.terms
  matching i e hi he := (h.matching i e hi he).of_extended_left (hext.leaderLog _)
  stored t ht := by
    rw [hstored] at ht ⊢
    obtain ⟨hlt, hle⟩ := h.stored t ht
    exact ⟨hlt.trans_le (hext.leaderLog t).length_le, hle⟩
  storedLeading hrole := by rw [hstored, h.storedLeading hrole]
  storedCurrent m hm hle := by
    rw [hstored] at hle
    exact (h.storedCurrent m hm hle).of_extended (hext.leaderLog _)
  backed hoffice := hext.backs (h.backed hoffice)

/-- The node keeps its log, and its term and its lead unless it gives them up. -/
theorem Archive.Describes.frame (h : A.Describes p nd) (hid : nd'.myId = nd.myId)
    (hlog : nd'.log = nd.log) (hterm : nd.currentTerm ≤ nd'.currentTerm)
    (hrole : nd'.currentRole = .leader →
      nd.currentRole = .leader ∧ nd'.currentTerm = nd.currentTerm)
    (hbacked : nd'.InOffice → A.Backs nd') : A.Describes p nd' where
  myId := hid.trans h.myId
  reached t ht := (h.reached t ht).trans hterm
  leads hlead := by
    rw [(hrole hlead).2]
    exact h.leads (hrole hlead).1
  leading hlead := by
    rw [(hrole hlead).2, hlog]
    exact h.leading (hrole hlead).1
  head := by rw [hlog, h.head]
  terms i e he := by
    rw [hlog] at he
    exact (h.terms i e he).trans hterm
  matching := by
    rw [hlog]
    exact h.matching
  stored t ht := ⟨(h.stored t ht).1, (h.stored t ht).2.trans hterm⟩
  storedLeading hlead := by
    rw [(hrole hlead).2, h.storedLeading (hrole hlead).1, Node.logMaxIndex, Node.logMaxIndex, hlog]
  storedCurrent m hm hle := by
    rcases hterm.lt_or_eq with hlt | heq
    · rw [h.stored_eq_zero hlt] at hle
      omega
    · rw [← heq] at hle ⊢
      rw [hlog]
      exact h.storedCurrent m hm hle
  backed := hbacked

/-- An archive that takes down a longer log of the leader of a term stays coherent. -/
theorem Archive.Coherent.record (h : A.Coherent) {t : ℕ} {log : List (Entry V)}
    (hext : A.Extends (A.record p t log)) (hothers : ∀ q, A.elected q t → q = p)
    (hhead : log[0]? = some Node.initialEntry)
    (hterms : ∀ (i : ℕ) (e : Entry V), log[i]? = some e → e.term ≤ t)
    (hmatching : Matching Entry.term (A.record p t log).leaderLog log) :
    (A.record p t log).Coherent where
  unique q r u hq hr := by
    rcases hq with ⟨rfl, rfl⟩ | hq <;> rcases hr with ⟨rfl, hu⟩ | hr
    · rfl
    · exact (hothers r hr).symm
    · rw [hu] at hq
      exact hothers q hq
    · exact h.unique q r u hq hr
  noLeader u hu := by
    have hne : u ≠ t := fun heq => hu p (.inl ⟨rfl, heq⟩)
    rw [A.record_leaderLog_of_ne hne]
    exact h.noLeader u fun q hq => hu q (.inr hq)
  head q u hu := by
    by_cases hut : u = t
    · rw [hut, A.record_leaderLog_self, hhead]
    · rw [A.record_leaderLog_of_ne hut]
      exact h.head q u (hu.resolve_left fun hqt => hut hqt.2)
  terms u i e he := by
    by_cases hut : u = t
    · rw [hut, A.record_leaderLog_self] at he
      rw [hut]
      exact hterms i e he
    · rw [A.record_leaderLog_of_ne hut] at he
      exact h.terms u i e he
  matching u i e hi he := by
    by_cases hut : u = t
    · rw [hut, A.record_leaderLog_self] at he ⊢
      exact hmatching i e hi he
    · rw [A.record_leaderLog_of_ne hut] at he ⊢
      exact (h.matching u i e hi he).of_extended_left (hext.leaderLog _)

/-- The archive takes down the log of `p`, which extends the one on record and its own. -/
theorem Archive.Describes.extends_record (h : A.Describes p nd)
    (hrecord : A.leaderLog nd'.currentTerm <+: nd'.log) :
    A.Extends (A.record p nd'.currentTerm nd'.log) := by
  apply A.record_extends hrecord
  by_cases hzero : A.stored p nd'.currentTerm = 0
  · omega
  · have hlt := (h.stored _ (Nat.one_le_iff_ne_zero.mpr hzero)).1
    have hle := hrecord.length_le
    omega

/-- The node extends its log by entries of its own term. -/
theorem Archive.Describes.matching_record (h : A.Describes p nd)
    (hrecord : A.leaderLog nd'.currentTerm <+: nd'.log) (hlog : nd.log <+: nd'.log)
    (hentries : ∀ (i : ℕ) (e : Entry V), nd'.log[i]? = some e →
      nd.log[i]? = some e ∨ e.term = nd'.currentTerm) :
    Matching Entry.term (A.record p nd'.currentTerm nd'.log).leaderLog nd'.log := by
  intro i e hi he
  by_cases het : e.term = nd'.currentTerm
  · rw [het, A.record_leaderLog_self]
    exact .refl (List.getElem?_eq_some_iff.mp he).1
  · have hold := (hentries i e he).resolve_right het
    have hext := (h.extends_record hrecord).leaderLog e.term
    exact ((h.matching i e hi hold).of_extended hlog).of_extended_left hext

/-- What the archive then says about the node. -/
theorem Archive.Describes.record (h : A.Describes p nd) (hid : nd'.myId = nd.myId)
    (hterm : nd'.currentTerm = nd.currentTerm)
    (hrecord : A.leaderLog nd'.currentTerm <+: nd'.log) (hlog : nd.log <+: nd'.log)
    (hentries : ∀ (i : ℕ) (e : Entry V), nd'.log[i]? = some e →
      nd.log[i]? = some e ∨ e.term = nd'.currentTerm)
    (hbacked : nd'.InOffice → (A.record p nd'.currentTerm nd'.log).Backs nd') :
    (A.record p nd'.currentTerm nd'.log).Describes p nd' where
  myId := hid.trans h.myId
  reached t ht := by
    rcases ht with ⟨-, rfl⟩ | ht
    · exact le_rfl
    · rw [hterm]
      exact h.reached t ht
  leads _ := .inl ⟨rfl, rfl⟩
  leading _ := A.record_leaderLog_self
  head := Archive.getElem?_of_extended hlog h.head
  terms i e he := by
    rcases hentries i e he with hold | het
    · rw [hterm]
      exact h.terms i e hold
    · exact het.le
  matching := h.matching_record hrecord hlog hentries
  stored t ht := by
    by_cases htT : t = nd'.currentTerm
    · subst htT
      have hhead := Archive.getElem?_of_extended hlog h.head
      have hpos : 0 < nd'.log.length := (List.getElem?_eq_some_iff.mp hhead).1
      simp
      omega
    · rw [A.record_stored_of_ne (fun h => htT h.2)] at ht ⊢
      rw [A.record_leaderLog_of_ne htT, hterm]
      exact h.stored t ht
  storedLeading _ := by simp [Node.logMaxIndex]
  storedCurrent m hm hle := by
    rw [A.record_leaderLog_self]
    simp only [A.record_stored_self] at hle
    exact .refl (by omega)
  backed := hbacked

/-- A follower whose log up to index `k + 1` is that of the leader of its term, and ends
there unless nothing has changed, has stored it so far. -/
theorem Archive.Describes.raise (h : A.Describes p nd) (hA : A.Coherent) {k : ℕ}
    (hid : nd'.myId = nd.myId) (hterm : nd'.currentTerm = nd.currentTerm)
    (hrole : nd'.currentRole ≠ .leader)
    (hcut : AgreeTo (k + 1) nd'.log (A.leaderLog nd'.currentTerm))
    (hlength : nd'.log.length = k + 2)
    (hsame : nd.log[k + 1]? = nd'.log[k + 1]? → nd'.log = nd.log) :
    (A.raise p nd'.currentTerm (k + 1)).Describes p nd' := by
  have hnewlog : ∀ (i : ℕ) (a : Entry V), nd'.log[i]? = some a →
      i ≤ k + 1 ∧ (A.leaderLog nd'.currentTerm)[i]? = some a := by
    intro i a ha
    have hi := (List.getElem?_eq_some_iff.mp ha).1
    refine ⟨by omega, ?_⟩
    rw [← hcut.getElem? (by omega), ha]
  have helected : ∃ q, A.elected q nd'.currentTerm := by
    by_contra hnone
    have hlt := hcut.length_right
    simp [hA.noLeader _ (by simpa using hnone)] at hlt
  refine ⟨hid.trans h.myId, fun t ht => hterm ▸ h.reached t ht, fun hlead => absurd hlead hrole,
    fun hlead => absurd hlead hrole, ?_, fun i a ha => ?_, fun i a hi ha => ?_, fun t ht => ?_,
    fun hlead => absurd hlead hrole, fun m hm hle => ?_, fun hoffice => absurd hoffice.1 hrole⟩
  · obtain ⟨q, hq⟩ := helected
    rw [hcut.getElem? (Nat.zero_le _)]
    exact hA.head q _ hq
  · exact hA.terms _ i a (hnewlog i a ha).2
  · obtain ⟨hle, ha'⟩ := hnewlog i a ha
    exact (hA.matching _ i a hi ha').trans (hcut.mono hle).symm
  · by_cases htT : t = nd'.currentTerm
    · rw [htT, raise_stored_self]
      refine ⟨max_lt ?_ hcut.length_right, le_rfl⟩
      by_cases hzero : A.stored p nd'.currentTerm = 0
      · rw [hzero]
        exact (Nat.zero_le _).trans_lt hcut.length_right
      · exact (h.stored _ (Nat.one_le_iff_ne_zero.mpr hzero)).1
    · rw [raise_stored_of_ne fun hqt => htT hqt.2] at ht ⊢
      rw [hterm]
      exact h.stored t ht
  · by_cases hmk : m ≤ k + 1
    · exact hcut.mono hmk
    · -- what was stored beyond the offered entry stays, since the log has not changed
      rw [raise_stored_self] at hle
      have hle' := (le_max_iff.mp hle).resolve_right hmk
      have hold := h.storedCurrent m hm (hterm ▸ hle')
      rw [← hterm] at hold
      have hkm : k + 1 ≤ m := by omega
      rw [hsame (by rw [hold.getElem? hkm, hcut.getElem? le_rfl])]
      exact hold

end Describes

namespace ReplicationInv

variable [EmptyCollection V] {s s' : Cluster n V} {A A' : Archive n V} {p q r : Fin n}
  {t m : ℕ} {nd : Node n V}

/-- The archive before the first election. -/
theorem init : ReplicationInv (Cluster.init : Cluster n V)
    ⟨fun _ _ => False, fun _ => [], fun _ _ => 0⟩ where
  archive := ⟨fun _ _ _ h => h.elim, fun _ _ => rfl, fun _ _ h => h.elim,
    fun t i e h => by simp at h, fun t i e _ h => by simp at h⟩
  nodes p := by
    have hlog : ∀ (i : ℕ) (e : Entry V), [(Node.initialEntry : Entry V)][i]? = some e →
        i = 0 ∧ e = Node.initialEntry := by
      intro i e he
      obtain ⟨hlt, rfl⟩ := List.getElem?_eq_some_iff.mp he
      have hi : i = 0 := by simpa using hlt
      subst hi
      exact ⟨rfl, rfl⟩
    refine ⟨rfl, fun _ h => h.elim, fun h => by simp [Cluster.init, Node.init] at h,
      fun h => by simp [Cluster.init, Node.init] at h, rfl, fun i e h => ?_,
      fun i e hi h => ?_, fun t h => by simp at h,
      fun h => by simp [Cluster.init, Node.init] at h, fun m hm h => ?_,
      fun h => by simp [Node.InOffice, Cluster.init, Node.init] at h⟩
    · rw [(hlog i e h).2]
      exact le_rfl
    · have := (hlog i e h).1
      omega
    · have : m ≤ 0 := h
      omega
  storedBefore p t m hm h := by
    have : m ≤ 0 := h
    omega
  carries _ _ _ _ h := h.elim
  vouched p q packet h := by
    simp [Cluster.inflight, Cluster.init, Node.init, FifoNetwork.empty] at h

/-! ### Steps that leave the log alone -/

theorem fewer (h : ReplicationInv s A) (hs : s'.Fewer s) : ReplicationInv s' A := by
  have hover : ∀ {t m}, A.Overtaken s t m → A.Overtaken s' t m := fun ho =>
    ho.mono (fun r => by rw [hs.nodes]) fun _ _ => le_rfl
  refine ⟨h.archive, fun p => ?_, fun p t m hm hle => ?_, fun p t' t m he ht hm hlen => ?_,
    fun p q packet hmem => ?_⟩
  · rw [hs.nodes]
    exact h.nodes p
  · rw [hs.nodes]
    exact (h.storedBefore p t m hm hle).imp id hover
  · exact (h.carries p t' t m he ht hm hlen).imp id hover
  · exact h.vouched p q packet ((hs.inflight p q).subset hmem)

/-- A node keeps its log; it may move to a higher term, give up the lead, and send what
the archive vouches for. -/
theorem setNode_frame (h : ReplicationInv s A) (out : List (Option (Fin n) × Packet n V))
    (hid : nd.myId = (s.nodes p).myId) (hlog : nd.log = (s.nodes p).log)
    (hterm : (s.nodes p).currentTerm ≤ nd.currentTerm)
    (hrole : nd.currentRole = .leader →
      (s.nodes p).currentRole = .leader ∧ nd.currentTerm = (s.nodes p).currentTerm)
    (hbacked : nd.InOffice → A.Backs nd)
    (htalker : nd.talker = (s.nodes p).talker ++ out) (hout : ∀ m ∈ out, A.Vouches p m.2) :
    ReplicationInv (s.setNode p nd) A := by
  have hover : ∀ {t m}, A.Overtaken s t m → A.Overtaken (s.setNode p nd) t m :=
    fun ho => ho.setNode hterm fun _ => rfl
  refine ⟨h.archive, fun q => ?_, fun q t m hm hle => ?_, fun q t' t m he ht hm hlen => ?_,
    fun q r packet hmem => ?_⟩
  · rw [Cluster.setNode_nodes]
    split
    · rename_i hq
      rw [hq]
      exact (h.nodes p).frame hid hlog hterm hrole hbacked
    · exact h.nodes q
  · have hq : ((s.setNode p nd).nodes q).log = (s.nodes q).log :=
      Cluster.forall_setNode (Q := fun q x => x.log = (s.nodes q).log) hlog (fun _ => rfl) q
    rw [hq]
    exact (h.storedBefore q t m hm hle).imp id hover
  · exact (h.carries q t' t m he ht hm hlen).imp id hover
  · obtain hmem | ⟨rfl, receiver, -, hmem⟩ := Cluster.mem_inflight_setNode out htalker hmem
    · exact h.vouched q r packet hmem
    · exact hout _ hmem

theorem publish (h : ReplicationInv s A) : ReplicationInv (s.publish p) A := by
  have hnode : ∀ q, ((s.publish p).nodes q).log = (s.nodes q).log ∧
      ((s.publish p).nodes q).currentTerm = (s.nodes q).currentTerm := by
    intro q
    by_cases hq : q = p
    · subst hq
      rw [Cluster.publish_nodes_self]
      exact ⟨rfl, rfl⟩
    · rw [Cluster.publish_nodes_of_ne hq]
      exact ⟨rfl, rfl⟩
  have hover : ∀ {t m}, A.Overtaken s t m → A.Overtaken (s.publish p) t m := fun ho =>
    ho.mono (fun r => (hnode r).2.ge) fun _ _ => le_rfl
  refine ⟨h.archive, fun q => ?_, fun q t m hm hle => ?_, fun q t' t m he ht hm hlen => ?_,
    fun q r packet hmem => ?_⟩
  · by_cases hq : q = p
    · subst hq
      rw [Cluster.publish_nodes_self]
      exact (h.nodes q).frame rfl rfl le_rfl (fun hlead => ⟨hlead, rfl⟩) (h.nodes q).backed
    · rw [Cluster.publish_nodes_of_ne hq]
      exact h.nodes q
  · rw [(hnode q).1]
    exact (h.storedBefore q t m hm hle).imp id hover
  · exact (h.carries q t' t m he ht hm hlen).imp id hover
  · rw [Cluster.inflight_publish] at hmem
    exact h.vouched q r packet hmem

/-! ### The log of a leader grows -/

/-- A node that leads, or has just won, has a log that extends the one on record and its
own; the archive takes it down. -/
theorem record (h : ReplicationInv s A) (hid : nd.myId = (s.nodes p).myId)
    (hterm : nd.currentTerm = (s.nodes p).currentTerm)
    (hothers : ∀ q, A.elected q nd.currentTerm → q = p)
    (hrecord : A.leaderLog nd.currentTerm <+: nd.log) (hlog : (s.nodes p).log <+: nd.log)
    (hentries : ∀ (i : ℕ) (e : Entry V), nd.log[i]? = some e →
      (s.nodes p).log[i]? = some e ∨ e.term = nd.currentTerm)
    (hcarries : ∀ t m, t < nd.currentTerm → 1 ≤ m → m < (A.leaderLog t).length →
      AgreeTo m nd.log (A.leaderLog t) ∨ A.Overtaken s t m)
    (hbacked : nd.InOffice → (A.record p nd.currentTerm nd.log).Backs nd)
    (htalker : nd.talker = (s.nodes p).talker) :
    ReplicationInv (s.setNode p nd) (A.record p nd.currentTerm nd.log) := by
  have hp := h.nodes p
  have hext := hp.extends_record hrecord
  have hself := hp.record hid hterm hrecord hlog hentries hbacked
  have hcoherent := h.archive.record hext hothers hself.head hself.terms hself.matching
  have hover : ∀ {t m}, A.Overtaken s t m →
      (A.record p nd.currentTerm nd.log).Overtaken (s.setNode p nd) t m :=
    fun ho => ho.setNode hterm.ge A.record_stored_of_ne
  constructor
  case archive => exact hcoherent
  case nodes =>
    intro q
    by_cases hq : q = p
    · rw [hq, Cluster.setNode_nodes_self]
      exact hself
    · rw [Cluster.setNode_nodes_of_ne hq]
      refine (h.nodes q).extend hext (fun t ht => ht.resolve_left fun hqt => hq hqt.1)
        (fun t => A.record_stored_of_ne fun hqt => hq hqt.1) fun hlead => ?_
      apply A.record_leaderLog_of_ne
      intro heq
      have he := (h.nodes q).leads hlead
      rw [heq] at he
      exact hq (hothers q he)
  case storedBefore =>
    intro q t m hm hle
    by_cases hqt : q = p ∧ t = nd.currentTerm
    · rw [hqt.1, hqt.2] at hle ⊢
      exact .inl (by simpa using hself.storedCurrent m hm hle)
    · rw [A.record_stored_of_ne hqt] at hle
      refine (h.storedBefore q t m hm hle).imp (fun hagree => ?_) hover
      have hold := hagree.of_extended (hext.leaderLog t)
      rw [Cluster.setNode_nodes]
      split
      · rename_i hq
        rw [hq] at hold
        exact hold.of_extended_left hlog
      · exact hold
  case carries =>
    intro q t' t m he ht hm hlen
    by_cases htT : t = nd.currentTerm
    · -- a node that is beyond term `T` has not stored what is new in the log of its leader
      subst htT
      have hq : q ≠ p ∧ A.elected q t' := by
        rcases he with ⟨-, rfl⟩ | he
        · exact absurd ht (lt_irrefl _)
        · refine ⟨?_, he⟩
          rintro rfl
          have := hp.reached t' he
          omega
      by_cases hold : m < (A.leaderLog nd.currentTerm).length
      · refine (h.carries q t' _ m hq.2 ht hm hold).imp (fun hagree => ?_) hover
        exact (hagree.of_extended_left (hext.leaderLog t')).of_extended (hext.leaderLog _)
      · refine .inr ⟨q, ?_, ?_⟩
        · rw [Cluster.setNode_nodes_of_ne hq.1]
          exact ht.trans_le ((h.nodes q).reached t' hq.2)
        · rw [A.record_stored_of_ne fun hqt => hq.1 hqt.1]
          by_contra hge
          have hlt := ((h.nodes q).stored nd.currentTerm (by omega)).1
          omega
    · rw [A.record_leaderLog_of_ne htT] at hlen ⊢
      by_cases ht'T : t' = nd.currentTerm
      · subst ht'T
        rw [A.record_leaderLog_self]
        exact (hcarries t m ht hm hlen).imp id hover
      · rw [A.record_leaderLog_of_ne ht'T]
        exact (h.carries q t' t m (he.resolve_left fun hqt => ht'T hqt.2) ht hm hlen).imp id hover
  case vouched =>
    intro q r packet hmem
    obtain hmem | ⟨-, receiver, -, hmem⟩ :=
      Cluster.mem_inflight_setNode [] (by simpa using htalker) hmem
    · exact hext.vouches (h.vouched q r packet hmem)
    · simp at hmem

/-- A leader appends an entry of its own term. -/
theorem append (h : ReplicationInv s A) (hrole : (s.nodes p).currentRole = .leader)
    (entry : Entry V) (hentry : entry.term = (s.nodes p).currentTerm)
    (hid : nd.myId = (s.nodes p).myId) (hlog : nd.log = (s.nodes p).log ++ [entry])
    (hterm : nd.currentTerm = (s.nodes p).currentTerm) (hbacked : A.Backs nd)
    (htalker : nd.talker = (s.nodes p).talker) :
    ∃ A', ReplicationInv (s.setNode p nd) A' ∧ A.Extends A' ∧ A'.elected ≤ A.elected := by
  have hp := h.nodes p
  have hrecord : A.leaderLog nd.currentTerm = (s.nodes p).log := by
    rw [hterm, hp.leading hrole]
  have hprefix : (s.nodes p).log <+: nd.log := by
    rw [hlog]
    exact List.prefix_append _ _
  have hstored : A.stored p nd.currentTerm ≤ nd.log.length - 1 := by
    rw [hterm, hp.storedLeading hrole, Node.logMaxIndex]
    have := hprefix.length_le
    omega
  have hext : A.Extends (A.record p nd.currentTerm nd.log) :=
    A.record_extends (by rwa [hrecord]) hstored
  refine ⟨_, h.record hid hterm (fun q hq => ?_) (by rwa [hrecord]) hprefix (fun i e he => ?_)
    (fun t m ht hm hlen => ?_) (fun _ => hext.backs hbacked) htalker, hext, ?_⟩
  · rw [hterm] at hq
    exact h.archive.unique q p _ hq (hp.leads hrole)
  · rw [hlog] at he
    by_cases hi : i < (s.nodes p).log.length
    · rw [List.getElem?_append_left hi] at he
      exact .inl he
    · rw [List.getElem?_append_right (by omega)] at he
      rw [List.mem_singleton.mp (List.mem_of_getElem? he), hentry, hterm]
      exact .inr rfl
  · rw [hterm] at ht
    refine (h.carries p _ t m (hp.leads hrole) ht hm hlen).imp (fun hagree => ?_) id
    rw [hp.leading hrole] at hagree
    exact hagree.of_extended_left hprefix
  · rintro q t (⟨rfl, rfl⟩ | hq)
    · rw [hterm]
      exact hp.leads hrole
    · exact hq

/-- A candidate wins a term that had no leader. -/
theorem elect (h : ReplicationInv s A) (hnew : ∀ q, ¬ A.elected q (s.nodes p).currentTerm)
    (hid : nd.myId = (s.nodes p).myId) (hlog : nd.log = (s.nodes p).log)
    (hterm : nd.currentTerm = (s.nodes p).currentTerm) (hoffice : ¬ nd.InOffice)
    (htalker : nd.talker = (s.nodes p).talker) :
    ReplicationInv (s.setNode p nd) (A.record p nd.currentTerm nd.log) := by
  rw [← hterm] at hnew
  refine h.record hid hterm (fun q hq => absurd hq (hnew q)) ?_ (by rw [hlog])
    (fun i e he => .inl (by rwa [hlog] at he)) (fun t m ht hm hlen => ?_)
    (fun hnd => absurd hnd hoffice) htalker
  · rw [h.archive.noLeader _ hnew]
    exact List.nil_prefix
  · by_cases hle : m ≤ A.stored p t
    · rw [hlog]
      exact h.storedBefore p t m hm hle
    · rw [hterm] at ht
      exact .inr ⟨p, ht, by omega⟩

/-! ### A follower accepts an entry -/

/-- A follower that finds the predecessor of an offered entry in its log agrees with the
leader up to there. -/
theorem agreeTo_of_verified (h : ReplicationInv s A) {k u : ℕ}
    (hverify : ((s.nodes p).log[k]?).map Entry.term = some u)
    (hoffer : ((A.leaderLog t)[k]?).map Entry.term = some u) :
    AgreeTo k (s.nodes p).log (A.leaderLog t) := by
  have helected : ∃ q, A.elected q t := by
    by_contra hnone
    rw [h.archive.noLeader t (by simpa using hnone)] at hoffer
    simp at hoffer
  obtain ⟨q, hq⟩ := helected
  have hheads : (s.nodes p).log[0]? = (A.leaderLog t)[0]? := by
    rw [(h.nodes p).head, h.archive.head q t hq]
  have hlog : Matching Entry.term A.leaderLog (s.nodes p).log := (h.nodes p).matching
  exact hlog.agreeTo (h.archive.matching t) hheads hverify hoffer

/-- What is stored of an earlier term outlives a cut after index `k`, except where all
nodes never will store it. -/
theorem kept_of_cut (h : ReplicationInv s A) {k : ℕ} {e : Entry V} {log : List (Entry V)}
    (hentry : (A.leaderLog (s.nodes p).currentTerm)[k + 1]? = some e)
    (hlog : log = (s.nodes p).log.take (k + 1) ++ [e])
    (hsame : (s.nodes p).log[k + 1]? = some e → log = (s.nodes p).log)
    (ht : t < (s.nodes p).currentTerm) (hm : 1 ≤ m)
    (hagree : AgreeTo m (s.nodes p).log (A.leaderLog t)) :
    AgreeTo m log (A.leaderLog t) ∨ A.Overtaken s t m := by
  by_cases hmk : m < k + 1
  · rw [hlog]
    exact .inl (hagree.of_cut hmk)
  · have helected : ∃ r, A.elected r (s.nodes p).currentTerm := by
      by_contra hnone
      rw [h.archive.noLeader _ (by simpa using hnone)] at hentry
      simp at hentry
    obtain ⟨r, hr⟩ := helected
    -- where the leader has it too, the entry on offer is the one the follower has
    refine (h.carries r _ t m hr ht hm hagree.length_right).imp (fun hcarry => ?_) id
    rw [hsame]
    · exact hagree
    · rw [hagree.getElem? (by omega), ← hcarry.getElem? (by omega), hentry]

/-- A follower accepts an entry of the leader of its own term, and thereby removes no
entries that agree with those of the leader. -/
theorem store (h : ReplicationInv s A) {k u : ℕ} {e : Entry V}
    (hverify : ((s.nodes p).log[k]?).map Entry.term = some u)
    (hoffer : ((A.leaderLog (s.nodes p).currentTerm)[k]?).map Entry.term = some u)
    (hentry : (A.leaderLog (s.nodes p).currentTerm)[k + 1]? = some e)
    (hkeep : (s.nodes p).log.length ≤ k + 2 ∨
      ((s.nodes p).log[k + 1]?).map Entry.term ≠ some e.term)
    (hid : nd.myId = (s.nodes p).myId) (hlog : nd.log = (s.nodes p).log.take (k + 1) ++ [e])
    (hterm : nd.currentTerm = (s.nodes p).currentTerm) (hrole : nd.currentRole ≠ .leader)
    (htalker : nd.talker = (s.nodes p).talker) :
    ∃ A', ReplicationInv (s.setNode p nd) A' ∧ A.Extends A' ∧ A'.elected ≤ A.elected ∧
      k + 1 ≤ A'.stored p nd.currentTerm := by
  have hp := h.nodes p
  have hverified := h.agreeTo_of_verified hverify hoffer
  have hcut : AgreeTo (k + 1) nd.log (A.leaderLog nd.currentTerm) := by
    rw [hlog, hterm]
    exact hverified.cut_append hentry
  -- where the follower had the entry already, its log does not change
  have hsame : (s.nodes p).log[k + 1]? = some e → nd.log = (s.nodes p).log := by
    intro he
    rw [hlog]
    refine cut_append_eq_self (hkeep.resolve_right ?_) he
    simp [he]
  have hlength : nd.log.length = k + 2 := by
    have hk := hverified.length_left
    rw [hlog, List.length_append, List.length_take, List.length_singleton]
    omega
  have hsame' : (s.nodes p).log[k + 1]? = nd.log[k + 1]? → nd.log = (s.nodes p).log := by
    intro he
    rw [hcut.getElem? le_rfl, hterm, hentry] at he
    exact hsame he
  have hself := hp.raise h.archive hid hterm hrole hcut hlength hsame'
  have hover : ∀ {t m}, A.Overtaken s t m →
      (A.raise p nd.currentTerm (k + 1)).Overtaken (s.setNode p nd) t m :=
    fun ho => ho.setNode hterm.ge Archive.raise_stored_of_ne
  have hinv : ReplicationInv (s.setNode p nd) (A.raise p nd.currentTerm (k + 1)) := by
    constructor
    case archive =>
      exact ⟨h.archive.unique, h.archive.noLeader, h.archive.head, h.archive.terms,
        h.archive.matching⟩
    case nodes =>
      intro q
      by_cases hq : q = p
      · rw [hq, Cluster.setNode_nodes_self]
        exact hself
      · rw [Cluster.setNode_nodes_of_ne hq]
        exact (h.nodes q).extend Archive.extends_raise (fun _ ht => ht)
          (fun t => Archive.raise_stored_of_ne fun hqt => hq hqt.1) fun _ => rfl
    case storedBefore =>
      intro q t m hm hle
      by_cases hqt : q = p ∧ t = nd.currentTerm
      · rw [hqt.1, hqt.2] at hle ⊢
        rw [Cluster.setNode_nodes_self]
        exact .inl (hself.storedCurrent m hm hle)
      · rw [Archive.raise_stored_of_ne hqt] at hle
        rcases h.storedBefore q t m hm hle with hagree | ho
        · by_cases hq : q = p
          · subst hq
            rw [Cluster.setNode_nodes_self]
            have hreached := (hp.stored t (by omega)).2
            have hne : t ≠ (s.nodes q).currentTerm := fun heq => hqt ⟨rfl, heq.trans hterm.symm⟩
            exact (h.kept_of_cut hentry hlog hsame (lt_of_le_of_ne hreached hne) hm hagree).imp
              id hover
          · rw [Cluster.setNode_nodes_of_ne hq]
            exact .inl hagree
        · exact .inr (hover ho)
    case carries =>
      intro q t' t m he ht hm hlen
      exact (h.carries q t' t m he ht hm hlen).imp id hover
    case vouched =>
      intro q r packet hmem
      obtain hmem | ⟨-, receiver, -, hmem⟩ :=
        Cluster.mem_inflight_setNode [] (by simpa using htalker) hmem
      · exact Archive.extends_raise.vouches (h.vouched q r packet hmem)
      · simp at hmem
  refine ⟨_, hinv, Archive.extends_raise, le_rfl, ?_⟩
  rw [Archive.raise_stored_self]
  exact le_max_right _ _

end ReplicationInv

end DreamboatRpc.Raft
