import DreamboatRpc.CS.Matching
import DreamboatRpc.Raft.LogSteps
import DreamboatRpc.Raft.VoteUniqueness

/-!
# Log matching

If a term has one leader, and leaders append entries of their own term only, the log of a
leader is on record under its term, and every log matches that record: an entry, with all
before it, is as in the log of the leader of the term it is stamped with. An entry that a
client requested in an earlier term is stamped with that term; two leaders may then append
such entries at the same index.

## Main definitions

* `SoleLeaders` — no two nodes ever led in the same term
* `LogsMatch` — logs that agree on the term at an index agree up to it
* `Tenure`, `OnRecord` — the invariants about leaders and about logs

## Main results

* `log_matching` — in all runs with one leader a term, if leaders append entries of their
  own term only
* `logs_diverge` — two logs that differ before an index at which their entries have one term
-/

namespace DreamboatRpc.Raft

open CS FifoNetwork

variable {n : ℕ} {V : Type*}

/-- Node `p` is the leader of term `t`. -/
def Cluster.Leads (s : Cluster n V) (p : Fin n) (t : ℕ) : Prop :=
  (s.nodes p).currentRole = .leader ∧ (s.nodes p).currentTerm = t

/-- Node `p` has been the leader of term `t` in a run that is now in state `s`. -/
def Led (history : List (Step n V)) (s : Cluster n V) (p : Fin n) (t : ℕ) : Prop :=
  s.Leads p t ∨ ∃ x ∈ history, x.source.Leads p t

/-- No two nodes were ever leader in the same term. -/
def SoleLeaders (history : List (Step n V)) (s : Cluster n V) : Prop :=
  ∀ p q t, Led history s p t → Led history s q t → p = q

/-- Logs that have entries of one term at an index are equal up to there. -/
def LogsMatch (s : Cluster n V) : Prop :=
  ∀ p q (i : ℕ) (a b : Entry V), (s.nodes p).log[i]? = some a → (s.nodes q).log[i]? = some b →
    a.term = b.term → ∀ j ≤ i, (s.nodes p).log[j]? = (s.nodes q).log[j]?

theorem led_cons {history : List (Step n V)} {s s' : Cluster n V} {e : Event n V} {p : Fin n}
    {t : ℕ} : Led (⟨s, e, s'⟩ :: history) s' p t ↔ Led history s p t ∨ s'.Leads p t := by
  simp only [Led, List.mem_cons, exists_eq_or_imp]
  exact or_comm

variable [EmptyCollection V]

/-! ## Leaders -/

/-- What is known of a node that has led a term. -/
structure Tenure (led : Fin n → ℕ → Prop) (s : Cluster n V) : Prop where
  leads : ∀ p t, s.Leads p t → led p t
  reached : ∀ p t, led p t → t ≤ (s.nodes p).currentTerm
  /-- A candidate has not led its term yet. -/
  fresh : ∀ p k m, (s.nodes p).loop = .candidate k m → ¬ led p (s.nodes p).currentTerm

section Tenure

variable {led : Fin n → ℕ → Prop} {s s' : Cluster n V} {e : Event n V} {p : Fin n} {t : ℕ}

/-- A node that leads after a step led before it, or was a candidate of the same term. -/
theorem leads_cases (hready : s.Ready) (hs : s.exec e = some s') (h : s'.Leads p t) :
    s.Leads p t ∨ ((s.nodes p).currentTerm = t ∧ ∃ k m, (s.nodes p).loop = .candidate k m) := by
  obtain ⟨hlead, rfl⟩ := h
  obtain ⟨nd, hiteration, heq⟩ | ⟨-, queue, role, heq, hrole⟩ := Cluster.exec_node hs p
  · rw [heq] at hlead ⊢
    cases iteration_voteStep hready hs hiteration with
    | frame hf _ => exact .inl ⟨hf.currentRole hlead, hf.currentTerm.symm⟩
    | raise _ _ _ hby => exact absurd hlead hby.1
    | giveUp _ _ _ _ _ hby => exact absurd hlead hby.1
    | grant _ _ _ _ _ _ hby => exact absurd hlead hby.1
    | call _ _ _ _ hnot _ => exact absurd hlead hnot
    | count _ hloop _ hterm _ _ _ _ => exact .inr ⟨hterm.symm, _, _, hloop⟩
  · rw [heq] at hlead ⊢
    exact .inl ⟨hrole hlead, rfl⟩

/-- A candidate after a step was one of the same term, or is in a new term; it does not
lead. -/
theorem candidate_of_exec (hready : s.Ready) (hs : s.exec e = some s') {k m : ℕ}
    (hloop : (s'.nodes p).loop = .candidate k m) :
    (s.nodes p).currentTerm < (s'.nodes p).currentTerm ∧ (s'.nodes p).currentRole ≠ .leader ∨
    (∃ k' m', (s.nodes p).loop = .candidate k' m') ∧
      (s'.nodes p).currentTerm = (s.nodes p).currentTerm ∧
      ((s'.nodes p).currentRole = .leader → (s.nodes p).currentRole = .leader) := by
  obtain ⟨nd, hiteration, heq⟩ | ⟨-, queue, role, heq, hrole⟩ := Cluster.exec_node hs p
  · rw [heq] at hloop ⊢
    -- by kinds of iterations: what leaves a bystander leaves no candidate
    cases iteration_voteStep hready hs hiteration with
    | frame hf _ =>
      obtain ⟨m', hloop'⟩ := hf.loop k m hloop
      exact .inr ⟨⟨k, m', hloop'⟩, hf.currentTerm, hf.currentRole⟩
    | raise _ _ _ hby => exact absurd hloop (hby.2 k m)
    | giveUp _ _ _ _ _ hby => exact absurd hloop (hby.2 k m)
    | grant _ _ _ _ _ _ hby => exact absurd hloop (hby.2 k m)
    | call _ hterm _ _ hnot _ => exact .inl ⟨by simp only; omega, hnot⟩
    | count _ hloop' _ hterm _ _ hcount _ =>
      exact .inr ⟨⟨_, _, hloop'⟩, hterm, fun hlead => absurd hlead (hcount k m hloop).2⟩
  · rw [heq] at hloop ⊢
    exact .inr ⟨⟨k, m, hloop⟩, rfl, hrole⟩

theorem Tenure.exec (h : Tenure led s) (hready : s.Ready) (hs : s.exec e = some s') :
    Tenure (fun p t => led p t ∨ s'.Leads p t) s' where
  leads _ _ hlead := .inr hlead
  reached p t hled := by
    rcases hled with hled | ⟨-, rfl⟩
    · exact (h.reached p t hled).trans (currentTerm_le_of_exec hready hs p)
    · exact le_rfl
  fresh p k m hloop hled := by
    obtain ⟨hlt, hnot⟩ | ⟨⟨k', m', hloop'⟩, hterm, hrole⟩ := candidate_of_exec hready hs hloop
    · rcases hled with hled | hlead
      · exact absurd (h.reached p _ hled) (by omega)
      · exact hnot hlead.1
    · -- it has not led its term before, and does not begin to
      rw [hterm] at hled
      rcases hled with hled | hlead
      · exact h.fresh p k' m' hloop' hled
      · exact h.fresh p k' m' hloop' (h.leads p _ ⟨hrole hlead.1, rfl⟩)

/-- A node that leads a term after a step, and had led it before, led it right before. -/
theorem Tenure.leads_before (h : Tenure led s) (hready : s.Ready) (hs : s.exec e = some s')
    (hlead : s'.Leads p t) (hled : led p t) : s.Leads p t := by
  obtain hbefore | ⟨rfl, k, m, hloop⟩ := leads_cases hready hs hlead
  · exact hbefore
  · -- a candidate of that term, which has not led it
    exact absurd hled (h.fresh p k m hloop)

/-- A node whose thread does not run does not begin to lead. -/
theorem leads_of_idle (hs : s.exec e = some s') (hidle : ∀ nd, s.iteration e ≠ some (p, nd))
    (h : s'.Leads p t) : s.Leads p t := by
  obtain ⟨nd, hiteration, -⟩ | ⟨-, queue, role, heq, hrole⟩ := Cluster.exec_node hs p
  · exact absurd hiteration (hidle nd)
  · obtain ⟨hlead, rfl⟩ := h
    rw [heq] at hlead ⊢
    exact ⟨hrole hlead, rfl⟩

end Tenure

/-! ## Logs -/

/-- The logs of the leaders of all terms are on record, and all logs match the record. -/
structure OnRecord (led : Fin n → ℕ → Prop) (s : Cluster n V) (R : ℕ → List (Entry V)) : Prop where
  unled : ∀ t, (∀ p, ¬ led p t) → R t = []
  head : ∀ p t, led p t → (R t)[0]? = some Node.initialEntry
  record : ∀ t, Matching Entry.term R (R t)
  leading : ∀ p t, s.Leads p t → R t = (s.nodes p).log
  logHead : ∀ p, (s.nodes p).log[0]? = some Node.initialEntry
  logs : ∀ p, Matching Entry.term R (s.nodes p).log
  offers : ∀ p q, ∀ packet ∈ s.inflight p q, ∃ t, packet.message.OffersFrom (R t) t

namespace OnRecord

variable {led led' : Fin n → ℕ → Prop} {s s' taken : Cluster n V} {R R' : ℕ → List (Entry V)}
  {e : Event n V} {p q : Fin n} {t : ℕ} {nd : Node n V}
  {incoming : Option (Fin n × Message n V)}

theorem init : OnRecord (fun _ _ => False) (Cluster.init : Cluster n V) fun _ => [] where
  unled _ _ := rfl
  head _ _ h := h.elim
  record _ := .nil
  leading p t h := by simp [Cluster.Leads, Cluster.init, Node.init] at h
  logHead _ := rfl
  logs _ := .singleton
  offers p q packet h := by
    simp [Cluster.inflight, Cluster.init, Node.init, FifoNetwork.empty] at h

/-- Logs that are on record match. -/
theorem logsMatch (h : OnRecord led s R) : LogsMatch s := by
  intro p q i a b ha hb hterm j hj
  have hhead : (s.nodes p).log[0]? = (s.nodes q).log[0]? := by rw [h.logHead p, h.logHead q]
  have hagree := (h.logs p).agreeTo (h.logs q) (i := i) (u := b.term) hhead
    (by rw [ha, Option.map_some, hterm]) (by rw [hb, Option.map_some])
  exact hagree.getElem? hj

/-- No log changes, nobody is offered an entry, and nobody begins to lead. -/
theorem keep (h : OnRecord led s R) (hlog : ∀ q, (s'.nodes q).log = (s.nodes q).log)
    (hleads : ∀ q t, s'.Leads q t → s.Leads q t) (hled : ∀ q t, led' q t ↔ led q t)
    (hinflight : ∀ q r, ∀ packet ∈ s'.inflight q r,
      packet ∈ s.inflight q r ∨ packet.message.OffersNothing) : OnRecord led' s' R where
  unled t ht := h.unled t fun q hq => ht q ((hled q t).mpr hq)
  head q t hq := h.head q t ((hled q t).mp hq)
  record := h.record
  leading q t hq := by rw [hlog, h.leading q t (hleads q t hq)]
  logHead q := by rw [hlog, h.logHead q]
  logs q := by rw [hlog]; exact h.logs q
  offers q r packet hmem := by
    rcases hinflight q r packet hmem with hbefore | hnothing
    · exact h.offers q r packet hbefore
    · exact ⟨0, hnothing _ _⟩

/-- A node changes its log, and the record may grow. -/
theorem iteration (h : OnRecord led s R) (htaken : taken.Fewer s) (hext : ∀ u, R u <+: R' u)
    (hunled : ∀ t, (∀ q, ¬ led' q t) → R' t = [])
    (hhead : ∀ q t, led' q t → (R' t)[0]? = some Node.initialEntry)
    (hrecord : ∀ t, Matching Entry.term R' (R' t))
    (hothers : ∀ q t, q ≠ p → s.Leads q t → R' t = R t)
    (hleading : nd.currentRole = .leader → R' nd.currentTerm = nd.log)
    (hlogHead : nd.log[0]? = some Node.initialEntry) (hlog : Matching Entry.term R' nd.log)
    (hsent : Sent (fun message => ∃ t, message.OffersFrom (R' t) t) (s.nodes p) nd) :
    OnRecord led' ((taken.setNode p nd).publish p) R' := by
  have hself : ((taken.setNode p nd).publish p).nodes p =
      { nd with talker := [], incomingMessage := none } := by
    rw [Cluster.publish_nodes_self, Cluster.setNode_nodes_self]
  have hother : ∀ q, q ≠ p → ((taken.setNode p nd).publish p).nodes q = s.nodes q := by
    intro q hq
    rw [Cluster.publish_nodes_of_ne hq, Cluster.setNode_nodes_of_ne hq, htaken.nodes]
  refine ⟨hunled, hhead, hrecord, fun q t hq => ?_, fun q => ?_, fun q => ?_,
    fun q r packet hmem => ?_⟩
  · by_cases hqp : q = p
    · subst hqp
      obtain ⟨hlead, rfl⟩ := hq
      rw [hself] at hlead ⊢
      exact hleading hlead
    · rw [Cluster.Leads, hother q hqp] at hq
      rw [hother q hqp, hothers q t hqp hq, h.leading q t hq]
  · by_cases hqp : q = p
    · rw [hqp, hself]
      exact hlogHead
    · rw [hother q hqp, h.logHead q]
  · by_cases hqp : q = p
    · rw [hqp, hself]
      exact hlog
    · rw [hother q hqp]
      exact (h.logs q).extend hext
  · obtain ⟨out, hout, hoffers⟩ := hsent
    rw [← htaken.nodes] at hout
    rw [Cluster.inflight_publish] at hmem
    obtain hmem | ⟨-, receiver, -, hmem⟩ := Cluster.mem_inflight_setNode out hout hmem
    · -- the offer was under way before; its record has grown at most
      obtain ⟨t, ht⟩ := h.offers q r packet ((htaken.inflight q r).subset hmem)
      exact ⟨t, ht.extend (hext t)⟩
    · exact hoffers _ hmem

/-- The leader of a term has a longer log, or a new one has the log it was elected with: the
record of the term is that log. -/
theorem grow (h : OnRecord led s R) (htaken : taken.Fewer s) {new : List (Entry V)}
    (hsole : ∀ q r u, led' q u → led' r u → q = r) (hp : led' p t)
    (hmono : ∀ q u, led q u → led' q u) (hnew : ∀ q u, led' q u → led q u ∨ u = t)
    (hlead : ∀ q u, s.Leads q u → led q u) (hold : R t <+: nd.log)
    (hlog : nd.log = (s.nodes p).log ++ new) (hterm : ∀ e ∈ new, e.term = t)
    (hrole : nd.currentRole = .leader → nd.currentTerm = t)
    (hsent : Sent (Message.OffersFrom nd.log t) (s.nodes p) nd) :
    OnRecord led' ((taken.setNode p nd).publish p) (Function.update R t nd.log) := by
  have hself : Function.update R t nd.log t = nd.log := Function.update_self ..
  have hrest : ∀ u, u ≠ t → Function.update R t nd.log u = R u := fun u hu =>
    Function.update_of_ne hu ..
  have hext : ∀ u, R u <+: Function.update R t nd.log u := by
    intro u
    by_cases hu : u = t
    · rw [hu, hself]
      exact hold
    · rw [hrest u hu]
  have hlogHead : nd.log[0]? = some Node.initialEntry := by
    rw [hlog]
    exact Archive.getElem?_of_extended (List.prefix_append _ _) (h.logHead p)
  -- what is new is stamped with the term under which it is put on record
  have hmatching : Matching Entry.term (Function.update R t nd.log) nd.log := by
    have hbefore := (h.logs p).extend hext
    have happend := hbefore.append (x := new) fun a ha => by rw [hterm a ha, hself, hlog]
    rwa [← hlog] at happend
  apply h.iteration htaken hext
  · intro u hu
    have hne : u ≠ t := by
      rintro rfl
      exact hu p hp
    rw [hrest u hne]
    exact h.unled u fun q hq => hu q (hmono q u hq)
  · intro q u hq
    by_cases hu : u = t
    · rw [hu, hself]
      exact hlogHead
    · rw [hrest u hu]
      exact h.head q u ((hnew q u hq).resolve_right hu)
  · intro u
    by_cases hu : u = t
    · rw [hu, hself]
      exact hmatching
    · rw [hrest u hu]
      exact (h.record u).extend hext
  · rintro q u hqp hq
    apply hrest
    rintro rfl
    exact hqp (hsole q p u (hmono q u (hlead q u hq)) hp)
  · intro hlead'
    rw [hrole hlead', hself]
  · exact hlogHead
  · exact hmatching
  · exact hsent.mono fun message hoffers => ⟨t, by rwa [hself]⟩

/-- A follower accepts an entry that was offered to it. -/
theorem accept (h : OnRecord led s R) (htaken : Cluster.TakenFor taken s p incoming)
    {l : Fin n} {k u c : ℕ} {a : Entry V}
    (hheard : incoming = some (q, .appendEntries t l k u a c))
    (hverify : ((s.nodes p).log[k]?).map Entry.term = some u)
    (hlog : nd.log = (s.nodes p).log.take (k + 1) ++ [a]) (hrole : nd.currentRole ≠ .leader)
    (hsent : Sent Message.OffersNothing (s.nodes p) nd) (hled : ∀ q t, led' q t ↔ led q t) :
    OnRecord led' ((taken.setNode p nd).publish p) R := by
  obtain ⟨packet, hmessage, hhead⟩ := htaken.head q _ hheard
  have hmem : packet ∈ s.inflight q p := by
    rw [hhead]
    exact List.mem_cons_self ..
  obtain ⟨t', hoffers⟩ := h.offers q p packet hmem
  rw [hmessage] at hoffers
  obtain ⟨rfl, hprev, ha⟩ := hoffers
  -- the term has a leader, since something is on record for it
  obtain ⟨r, hr⟩ : ∃ r, led r t := by
    by_contra hnone
    rw [h.unled t (by simpa using hnone)] at ha
    simp at ha
  have hheads : (s.nodes p).log[0]? = (R t)[0]? := by rw [h.logHead p, h.head r t hr]
  -- the log and the record of the term agree up to the predecessor
  have hagree := (h.logs p).agreeTo (h.record t) hheads hverify hprev
  have hcut : AgreeTo (k + 1) nd.log (R t) := by
    rw [hlog]
    exact hagree.cut_append ha
  have hlength : nd.log.length = k + 1 + 1 := by
    have hk := hagree.length_left
    rw [hlog, List.length_append, List.length_take, List.length_singleton]
    omega
  apply h.iteration htaken.toFewer (fun _ => List.prefix_rfl)
  · exact fun u hu => h.unled u fun q hq => hu q ((hled q u).mpr hq)
  · exact fun q u hq => h.head q u ((hled q u).mp hq)
  · exact h.record
  · exact fun _ _ _ _ => rfl
  · exact fun hlead => absurd hlead hrole
  · rw [hcut.getElem? (Nat.zero_le _), h.head r t hr]
  · exact (h.record t).of_agreeTo hcut hlength
  · exact hsent.mono fun message hnothing => ⟨0, hnothing _ _⟩

/-- A step in which nobody begins to lead. -/
theorem exec_of_led (h : OnRecord led s R) (htenure : Tenure led s) (hready : s.Ready)
    (hguard : appendsOwnTerm s e = true) (hs : s.exec e = some s')
    (hsole : ∀ q r u, led q u → led r u → q = r) (hled : ∀ q t, s'.Leads q t → led q t) :
    ∃ R', OnRecord led s' R' := by
  have hleads : ∀ q t, s'.Leads q t → s.Leads q t := fun q t hlead =>
    htenure.leads_before hready hs hlead (hled q t hlead)
  obtain ⟨p, nd, taken, hiteration, htaken, rfl⟩ | ⟨-, ⟨p, nd, hcalled, rfl⟩ | hfewer⟩ :=
    Cluster.exec_iteration hs
  · cases iteration_logStep hready hguard hs hiteration with
    | keep hlog hsent =>
      refine ⟨R, h.keep (fun q => ?_) hleads (fun _ _ => .rfl) fun q r packet hmem => ?_⟩
      · by_cases hq : q = p
        · rw [hq, Cluster.publish_nodes_self, Cluster.setNode_nodes_self]
          exact hlog
        · rw [Cluster.publish_nodes_of_ne hq, Cluster.setNode_nodes_of_ne hq, htaken.nodes]
      · obtain ⟨out, hout, hnothing⟩ := hsent
        rw [← htaken.nodes] at hout
        rw [Cluster.inflight_publish] at hmem
        obtain hmem | ⟨-, receiver, -, hmem⟩ := Cluster.mem_inflight_setNode out hout hmem
        · exact .inl ((htaken.inflight q r).subset hmem)
        · exact .inr (hnothing _ hmem)
    | accept hheard hverify hlog hrole hsent =>
      exact ⟨R, h.accept htaken hheard hverify hlog hrole hsent fun _ _ => .rfl⟩
    | @append new hrole hlog hnew hsent =>
      -- the leader of a term appends: the record of the term is its new log
      have hlead : s.Leads p (s.nodes p).currentTerm := ⟨hrole, rfl⟩
      have hrecord := h.leading p _ hlead
      have hprefix : R (s.nodes p).currentTerm <+: nd.log := by
        rw [hrecord, hlog]
        exact List.prefix_append _ _
      refine ⟨_, h.grow htaken.toFewer hsole (htenure.leads p _ hlead) (fun _ _ => id)
        (fun _ _ => .inl) htenure.leads hprefix hlog hnew (fun hrole' => ?_) hsent⟩
      have hafter := hleads p nd.currentTerm
      rw [Cluster.Leads, Cluster.publish_nodes_self, Cluster.setNode_nodes_self] at hafter
      exact (hafter ⟨hrole', rfl⟩).2.symm
  · -- a call of the client interface changes neither log nor messages
    obtain ⟨queue, role, rfl, -⟩ := hcalled
    refine ⟨R, h.keep (fun q => ?_) hleads (fun _ _ => .rfl) fun q r packet hmem => .inl ?_⟩
    · refine Cluster.forall_setNode (Q := fun q x => x.log = (s.nodes q).log) ?_ (fun _ => rfl) q
      rfl
    · obtain hmem | ⟨-, receiver, -, hmem⟩ := Cluster.mem_inflight_setNode [] (by simp) hmem
      · exact hmem
      · simp at hmem
  · refine ⟨R, h.keep (fun q => by rw [hfewer.nodes]) hleads (fun _ _ => .rfl)
      fun q r packet hmem => .inl ((hfewer.inflight q r).subset hmem)⟩

/-- A step in which a candidate wins its term. -/
theorem exec_of_new (h : OnRecord led s R) (htenure : Tenure led s) (hready : s.Ready)
    (hguard : appendsOwnTerm s e = true) (hs : s.exec e = some s')
    (hsole : ∀ q r u, led q u ∨ s'.Leads q u → led r u ∨ s'.Leads r u → q = r)
    (hlead : s'.Leads p t) (hnew : ¬ led p t) :
    ∃ R', OnRecord (fun q u => led q u ∨ s'.Leads q u) s' R' := by
  -- so far nothing is on record for the term
  have hnotled : ∀ q, ¬ led q t := by
    intro q hq
    obtain rfl := hsole q p t (.inl hq) (.inr hlead)
    exact hnew hq
  have hterm : (s.nodes p).currentTerm = t := by
    rcases leads_cases hready hs hlead with hbefore | ⟨hterm, -⟩
    · exact absurd (htenure.leads p t hbefore) hnew
    · exact hterm
  -- only its own thread makes a node leader
  obtain ⟨nd, hiteration⟩ : ∃ nd, s.iteration e = some (p, nd) := by
    by_contra hidle
    have hbefore := leads_of_idle hs (by simpa using hidle) hlead
    exact hnew (htenure.leads p t hbefore)
  obtain ⟨taken, htaken, rfl⟩ := Cluster.exec_taken hs hiteration
  have hlead' := hlead
  rw [Cluster.Leads, Cluster.publish_nodes_self, Cluster.setNode_nodes_self] at hlead'
  cases iteration_logStep hready hguard hs hiteration with
  | keep hlog hsent =>
    refine ⟨_, h.grow htaken.toFewer hsole (.inr hlead) (fun _ _ => .inl) (fun q u hq => ?_)
      htenure.leads ?_ (hlog.trans (List.append_nil _).symm) (by simp) (fun _ => hlead'.2)
      (hsent.mono fun _ hnothing => hnothing _ _)⟩
    · -- the other nodes lead what they led before
      rcases hq with hq | hq
      · exact .inl hq
      · by_cases hqp : q = p
        · subst hqp
          exact .inr (hq.2.symm.trans hlead.2)
        · refine .inl (htenure.leads q u (leads_of_idle hs (fun nd' h' => ?_) hq))
          rw [hiteration, Option.some.injEq, Prod.mk.injEq] at h'
          exact hqp h'.1.symm
    · rw [h.unled t hnotled]
      exact List.nil_prefix
  | accept _ _ _ hrole _ => exact absurd hlead'.1 hrole
  | append hrole _ _ _ => exact absurd (htenure.leads p t ⟨hrole, hterm⟩) hnew

theorem exec (h : OnRecord led s R) (htenure : Tenure led s) (hready : s.Ready)
    (hguard : appendsOwnTerm s e = true) (hs : s.exec e = some s')
    (hsole : ∀ q r u, led q u ∨ s'.Leads q u → led r u ∨ s'.Leads r u → q = r) :
    ∃ R', OnRecord (fun q u => led q u ∨ s'.Leads q u) s' R' := by
  -- either every leader has led its term before, or one is new
  by_cases hled : ∀ q t, s'.Leads q t → led q t
  · have hsame : (fun q u => led q u ∨ s'.Leads q u) = led := by
      funext q u
      exact propext ⟨fun hq => hq.elim id (hled q u), .inl⟩
    rw [hsame]
    exact h.exec_of_led htenure hready hguard hs
      (fun q r u hq hr => hsole q r u (.inl hq) (.inl hr)) hled
  · simp only [not_forall] at hled
    obtain ⟨p, t, hlead, hnew⟩ := hled
    exact h.exec_of_new htenure hready hguard hs hsole hlead hnew

end OnRecord

/-! ## The result -/

/-- In all runs in which a term has one leader, and leaders append entries of their own term
only, logs with entries of one term at an index are equal up to there. -/
theorem log_matching {history : List (Step n V)} {s : Cluster n V}
    (h : (clusterSystem n V).Run (fun s e => appendsOwnTerm s e = true) history s)
    (hsole : SoleLeaders history s) : LogsMatch s := by
  have hinv : s.Ready ∧ Tenure (Led history s) s ∧
      (SoleLeaders history s → ∃ R, OnRecord (Led history s) s R) := by
    -- the record exists as long as there was one leader a term; the rest holds without that
    refine h.invariant (I := fun history s => s.Ready ∧ Tenure (Led history s) s ∧
      (SoleLeaders history s → ∃ R, OnRecord (Led history s) s R)) ?_ ?_
    · rintro _ rfl
      have hled : Led [] (Cluster.init : Cluster n V) = fun _ _ => False := by
        funext p t
        simp [Led, Cluster.Leads, Cluster.init, Node.init]
      rw [hled]
      refine ⟨Cluster.ready_init, ⟨fun p t hlead => ?_, fun _ _ h => h.elim, fun _ _ _ _ h => h⟩,
        fun _ => ⟨_, .init⟩⟩
      simp [Cluster.Leads, Cluster.init, Node.init] at hlead
    · rintro history s e s' ⟨hready, htenure, hrecord⟩ hguard hs
      have hled : Led (⟨s, e, s'⟩ :: history) s' = fun p t => Led history s p t ∨ s'.Leads p t := by
        funext p t
        exact propext led_cons
      refine ⟨hready.exec hs, by rw [hled]; exact htenure.exec hready hs, fun hsole => ?_⟩
      rw [SoleLeaders, hled] at hsole
      rw [hled]
      obtain ⟨R, hR⟩ := hrecord fun q r u hq hr => hsole q r u (.inl hq) (.inl hr)
      exact hR.exec htenure hready hguard hs hsole
  obtain ⟨R, hR⟩ := hinv.2.2 hsole
  exact hR.logsMatch

/-- The nodes that lead, with their terms. -/
def Cluster.leaders (s : Cluster n V) : List (Fin n × ℕ) :=
  (List.finRange n).filterMap fun p =>
    if (s.nodes p).currentRole = .leader then some (p, (s.nodes p).currentTerm) else none

omit [EmptyCollection V] in
theorem Cluster.mem_leaders {s : Cluster n V} {p : Fin n} {t : ℕ} :
    (p, t) ∈ s.leaders ↔ s.Leads p t := by
  simp [leaders, Leads, List.mem_filterMap]

/-- Whether no two nodes were ever leader in the same term. -/
def soleLeaders (history : List (Step n V)) (s : Cluster n V) : Bool :=
  let led := (s :: history.map Transition.source).flatMap Cluster.leaders
  led.all fun x => led.all fun y => x.2 != y.2 || x.1 == y.1

omit [EmptyCollection V] in
theorem soleLeaders_iff {history : List (Step n V)} {s : Cluster n V} :
    SoleLeaders history s ↔ soleLeaders history s = true := by
  have hled : ∀ p t, Led history s p t ↔
      (p, t) ∈ (s :: history.map Transition.source).flatMap Cluster.leaders := by
    intro p t
    simp [Led, Cluster.mem_leaders]
  simp only [SoleLeaders, hled, soleLeaders, List.all_eq_true, Bool.or_eq_true, bne_iff_ne,
    beq_iff_eq, Prod.forall]
  constructor
  · intro hsole p t hp q u hq
    by_cases htu : t = u
    · subst htu
      exact .inr (hsole p q t hp hq)
    · exact .inl htu
  · intro hsole p q t hp hq
    exact (hsole p t hp q t hq).resolve_left fun hne => hne rfl

/-- Node `1` has stored the first entry of node `0`, the only leader so far. -/
def storesFirst (history : List (Step 2 (List ℕ))) (s : Cluster 2 (List ℕ)) : Bool :=
  soleLeaders history s && (s.nodes 1).log.length == 2

theorem log_matching_wonElection : ∃ s : Cluster 2 (List ℕ),
    (s.nodes 1).log.length = 2 ∧ LogsMatch s := by
  have hreplay : (replay Cluster.exec appendsOwnTerm [] Cluster.init
      (wonElection ++ [.run 0, .follower 1 (some 0) false, .follower 1 (some 0) false])).any
      (fun r => storesFirst r.1 r.2) = true := by decide +kernel
  obtain ⟨history, s, hrun, htest⟩ := exists_run_of_replay storesFirst hreplay
  obtain ⟨hsole, hlog⟩ := Bool.and_eq_true_iff.mp htest
  exact ⟨s, by simpa using hlog, log_matching hrun (soleLeaders_iff.mpr hsole)⟩

/-- Both nodes of two are given a client request in term 1. Node `0` leads term 2 and appends
its request; node `1`, which has heard nothing of that, leads term 3 and appends its own. -/
def requestsOfOneTerm : List (Event 2 (List ℕ)) :=
  [.clientRequest 0 [1] 1, .clientRequest 1 [2] 2] ++ wonElection ++
    [.run 0, .leader 0 false (fun _ => false) none, .follower 1 none true, .run 1,
      .candidate 1 (some 1) false, .candidate 1 (some 1) false,
      .leader 0 false (fun _ => false) (some 1)] ++
    List.replicate 3 (.candidate 1 (some 0) false) ++
    [.run 1, .leader 1 false (fun _ => false) none]

/-- Every term has had one leader; both logs have an entry of term 1 at index 2, and other
entries before it. -/
def diverges (history : List (Step 2 (List ℕ))) (s : Cluster 2 (List ℕ)) : Bool :=
  soleLeaders history s &&
    (((s.nodes 0).log[2]?).map Entry.term == some 1 &&
      (((s.nodes 1).log[2]?).map Entry.term == some 1 &&
        ((s.nodes 0).log[1]?).map Entry.term != ((s.nodes 1).log[1]?).map Entry.term))

/-- Without the condition logs may differ before an index at which they have entries of one
term, although every term has one leader. -/
theorem logs_diverge :
    ¬ ∀ (n : ℕ) (history : List (Step n (List ℕ))) (s : Cluster n (List ℕ)),
      (clusterSystem n (List ℕ)).Run unguarded history s → SoleLeaders history s →
      LogsMatch s := by
  intro hmatch
  have hreplay : (replay Cluster.exec (fun _ _ => true) [] Cluster.init requestsOfOneTerm).any
      (fun r => diverges r.1 r.2) = true := by decide +kernel
  obtain ⟨history, s, hrun, htest⟩ := exists_run_of_replay diverges hreplay
  simp only [diverges, Bool.and_eq_true, beq_iff_eq, bne_iff_ne] at htest
  obtain ⟨hsole, hterm₀, hterm₁, hdiffer⟩ := htest
  obtain ⟨a, ha, hat⟩ := Option.map_eq_some_iff.mp hterm₀
  obtain ⟨b, hb, hbt⟩ := Option.map_eq_some_iff.mp hterm₁
  have hsame := hmatch 2 history s (hrun.mono fun _ _ _ => trivial) (soleLeaders_iff.mpr hsole)
    0 1 2 a b ha hb (hat.trans hbt.symm) 1 (by decide)
  exact hdiffer (by rw [hsame])

end DreamboatRpc.Raft
