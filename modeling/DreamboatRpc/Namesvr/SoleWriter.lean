import DreamboatRpc.Namesvr.Kept
import DreamboatRpc.Namesvr.LeaderChange
import DreamboatRpc.Raft.LeaderLine

/-!
# A leader that gets all the requests

Under one stable leader that gets every request, the registry is as if the handlers ran one
after another on one dictionary. The handlers need not wait for what was submitted to be
committed: from the first registration on, all that the leader has committed or is about to
commit refers to one dictionary, which every handler changes in place. Other nodes read what
that dictionary was at some time, and the later the more of it they have committed.

Only the first registration has to wait: until everything the leader has appended is committed,
the registry that is read is not the dictionary that will be committed last.

## Main definitions

* `Action.update` — what a request makes of the registry
* `registryAfter`, `updates` — the registry after requests one after another, and their number
* `soleWriter` — the requests all go to a stable leader

## Main results

* `sole_writer` — what the leader reads, and what the other nodes read
-/

namespace DreamboatRpc.Namesvr

open CS Raft

variable {n : ℕ}

/-! ## One dictionary -/

/-- What a request or a monitor pass makes of the registry; `none` where it submits nothing. -/
def Action.update : Action n → Registry → Option Registry
  | .raft _, _ => none
  | .register _ ip port serviceName now, servers =>
    (Namesvr.register ip port serviceName now servers).toOption
  | .heartbeat _ ip port cpuUsage memoryUsage now, servers =>
    (Namesvr.heartbeat ip port cpuUsage memoryUsage now servers).toOption
  | .monitorClients _ now, servers => some (Namesvr.monitorClients now servers)

theorem eq_ok_of_toOption {result : Except String Registry} {servers : Registry}
    (h : result.toOption = some servers) : result = .ok servers := by
  cases result with
  | error message => simp [Except.toOption] at h
  | ok servers' => rw [Option.some.inj h]

/-- The registry after the actions of a history one after another, latest first. -/
def registryAfter : List (NameServerStep n) → Registry
  | [] => ∅
  | x :: earlier => (x.event.update (registryAfter earlier)).getD (registryAfter earlier)

/-- The number of actions that submit something. -/
def updates : List (NameServerStep n) → ℕ
  | [] => 0
  | x :: earlier =>
    if (x.event.update (registryAfter earlier)).isSome then updates earlier + 1
    else updates earlier

theorem registryAfter_cons_none {x : NameServerStep n} {earlier : List (NameServerStep n)}
    (h : x.event.update (registryAfter earlier) = none) :
    registryAfter (x :: earlier) = registryAfter earlier ∧
      updates (x :: earlier) = updates earlier := by
  simp [registryAfter, updates, h]

theorem registryAfter_cons_some {x : NameServerStep n} {earlier : List (NameServerStep n)}
    {servers : Registry} (h : x.event.update (registryAfter earlier) = some servers) :
    registryAfter (x :: earlier) = servers ∧ updates (x :: earlier) = updates earlier + 1 := by
  simp [registryAfter, updates, h]

/-! ## The condition -/

instance (nd : Node n Obj) : Decidable nd.Led := inferInstanceAs (Decidable (_ ∨ _))

/-- Node `ℓ` is in office. -/
def inCharge (ℓ : Fin n) (s : NameServer n) (p : Fin n) : Bool :=
  p == ℓ && decide (s.cluster.nodes ℓ).Led

/-- One stable leader, which gets all requests while it is in office. A server that registers
in an empty registry finds everything committed that the leader has. -/
def soleWriter (ℓ : Fin n) (s : NameServer n) : Action n → Bool
  | .raft e => stableLeader ℓ s.cluster e
  | .register p _ _ _ _ => inCharge ℓ s p && (!decide (s.read ℓ = some ∅) ||
      decide ((s.cluster.nodes ℓ).line.length = (s.cluster.nodes ℓ).commitIndex + 1))
  | .heartbeat p _ _ _ _ _ => inCharge ℓ s p
  | .monitorClients p _ => inCharge ℓ s p

/-! ## The invariant -/

/-- An entry at place `i` of a log has a registry that was the newest one after at least
`i - 1` submissions. -/
def Written (reg : ℕ → Registry) (K i : ℕ) (o : Obj) : Prop :=
  ∃ m, i ≤ m + 1 ∧ m ≤ K ∧ o.registry = reg m

/-- The newest registry is in the line of the leader: all registries in it are empty, or
everything from a committed entry on refers to one dictionary. -/
def Newest (nd : Node n Obj) (servers : Registry) : Prop :=
  (servers = ∅ ∧ ∀ e ∈ nd.line, e.entry.registry = ∅) ∨
    ∃ a c, c ≤ nd.commitIndex ∧ 2 ≤ nd.line.length ∧
      ∀ e ∈ nd.line.drop c, e.entry = ⟨some a, servers⟩

/-- After `K` submissions, the `m`th of which has submitted `reg m`. -/
structure Sole (ℓ : Fin n) (s : NameServer n) (reg : ℕ → Registry) (K : ℕ) : Prop where
  wellFormed : WellFormed s
  drained : s.cluster.Drained
  lineup : Lineup (Written reg K) ℓ K [] s.cluster
  onlyAt : s.cluster.OnlyAt ℓ
  first : reg 0 = ∅
  newest : Newest (s.cluster.nodes ℓ) (reg K)

/-! ### Changes of values -/

section Revalue

variable {f : Fin n → Obj → Obj} {g : Obj → Obj} {ℓ p : Fin n} {cluster : Cluster n Obj}

theorem line_mapEntries (f : Obj → Obj) (nd : Node n Obj) :
    (nd.mapEntries f).line = nd.line.map (Entry.map f) := by
  simp [Node.line, Node.mapEntries]

theorem line_clientRequest (nd : Node n Obj) (o : Obj) (idNum : ℤ) :
    (nd.clientRequest o idNum).line = nd.line ++ [⟨nd.currentTerm, o, idNum⟩] := by
  simp [Node.line, Node.clientRequest]

theorem onlyAt_revalue (h : cluster.OnlyAt ℓ) (hdrained : cluster.Drained) :
    (cluster.revalue f g).OnlyAt ℓ := by
  constructor
  case queues =>
    intro q hidle
    have hqueue := h.queues q hidle
    simp [Cluster.revalue, Node.mapEntries, hqueue]
  case underway =>
    intro p q packet hpacket
    rw [inflight_revalue hdrained] at hpacket
    obtain ⟨packet₀, hpacket₀, rfl⟩ := List.mem_map.mp hpacket
    rw [Packet.map, Message.request_map, h.underway p q packet₀ hpacket₀]
    rfl
  case inside =>
    have hinside : (cluster.nodes ℓ).commitIndex < (cluster.nodes ℓ).log.length := h.inside
    simpa [Node.Inside, Cluster.revalue, Node.mapEntries] using hinside

theorem onlyAt_clientRequest (h : cluster.OnlyAt ℓ) (hled : (cluster.nodes ℓ).Led) (o : Obj)
    (idNum : ℤ) :
    (cluster.setNode ℓ ((cluster.nodes ℓ).clientRequest o idNum)).OnlyAt ℓ := by
  constructor
  case queues =>
    intro q
    rw [Cluster.setNode_nodes]
    split
    · intro hidle
      exact absurd hled hidle
    · exact h.queues q
  case underway =>
    intro p q packet hpacket
    rcases Cluster.mem_inflight_setNode [] (by simp [Node.clientRequest]) hpacket with
      hold | ⟨-, receiver, -, hm⟩
    · exact h.underway p q packet hold
    · simp at hm
  case inside =>
    rw [Cluster.setNode_nodes_self]
    exact h.inside

/-- No other node has a request that waits. -/
theorem pending_of_onlyAt (h : cluster.OnlyAt ℓ) (hled : ¬ (cluster.nodes p).Led) :
    cluster.pending ℓ p = [] := by
  rw [Cluster.pending, h.queues p hled, List.append_nil, List.filterMap_eq_nil_iff]
  exact h.underway p ℓ

end Revalue

namespace Newest

variable {nd nd' : Node n Obj} {servers servers' : Registry}

/-- The node goes on, and may take office. -/
theorem onward (h : Newest nd servers) (hcommit : nd.commitIndex ≤ nd'.commitIndex)
    (hline : nd'.line = nd.line ∨ nd.line.length = 1 ∧ nd'.line = nd.line ++ [nd.noop]) :
    Newest nd' servers := by
  rcases hline with hsame | ⟨hone, hnoop⟩
  · rcases h with ⟨hempty, hall⟩ | ⟨a, c, hc, htwo, hall⟩
    · exact .inl ⟨hempty, by rwa [hsame]⟩
    · exact .inr ⟨a, c, hc.trans hcommit, by rwa [hsame], by rwa [hsame]⟩
  · rcases h with ⟨hempty, hall⟩ | ⟨a, c, hc, htwo, -⟩
    · refine .inl ⟨hempty, fun e he => ?_⟩
      rw [hnoop] at he
      rcases List.mem_append.mp he with he | he
      · exact hall e he
      · rw [List.mem_singleton.mp he]
        rfl
    · omega

/-- Dictionaries that have no address yet get one. -/
theorem allocate (h : Newest nd servers) (address : ℕ) :
    Newest (nd.mapEntries (Obj.allocate address)) servers := by
  unfold Newest
  rw [line_mapEntries]
  rcases h with ⟨hempty, hall⟩ | ⟨a, c, hc, htwo, hall⟩
  · refine .inl ⟨hempty, fun e he => ?_⟩
    obtain ⟨e₀, he₀, rfl⟩ := List.mem_map.mp he
    simpa [Entry.map] using hall e₀ he₀
  · refine .inr ⟨a, c, hc, by simpa using htwo, fun e he => ?_⟩
    rw [← List.map_drop] at he
    obtain ⟨e₀, he₀, rfl⟩ := List.mem_map.mp he
    simp [Entry.map, hall e₀ he₀, Obj.allocate]

/-- What the node has committed is the newest registry. -/
theorem committed (h : Newest nd servers) {e : Entry Obj}
    (he : nd.log[nd.commitIndex]? = some e) : e.entry.registry = servers := by
  have hline : nd.line[nd.commitIndex]? = some e := by
    rw [Node.line, List.getElem?_append_left (List.getElem?_eq_some_iff.mp he).1, he]
  rcases h with ⟨hempty, hall⟩ | ⟨a, c, hc, -, hall⟩
  · rw [hempty]
    exact hall e (List.mem_of_getElem? hline)
  · have hmem : e ∈ nd.line.drop c := by
      refine List.mem_of_getElem? (i := nd.commitIndex - c) ?_
      rw [List.getElem?_drop, Nat.add_sub_cancel' hc, hline]
    rw [hall e hmem]

/-- A handler changes the committed dictionary, and enqueues it. -/
theorem submit (h : Newest nd servers) {o : Obj} (term : ℕ) (idNum : ℤ)
    (haddress : o.address ≠ none) (ho : nd.checkCommittedEntry = some o)
    (hstart : servers = ∅ → servers' = ∅ ∨ nd.line.length = nd.commitIndex + 1)
    (hcommit : nd'.commitIndex = nd.commitIndex)
    (hline : nd'.line = nd.line.map (Entry.map (Obj.overwrite o.address servers')) ++
      [⟨term, { o with registry := servers' }, idNum⟩]) : Newest nd' servers' := by
  obtain ⟨e, he, rfl⟩ := Option.map_eq_some_iff.mp ho
  obtain ⟨a, ha⟩ := Option.ne_none_iff_exists'.mp haddress
  have hinside := (List.getElem?_eq_some_iff.mp he).1
  have hat : nd.line[nd.commitIndex]? = some e := by
    rw [Node.line, List.getElem?_append_left hinside, he]
  have hlength : nd'.line.length = nd.line.length + 1 := by simp [hline]
  -- what refers to the committed dictionary changes with it, and so does what is enqueued
  have hshared : ∀ c, c ≤ nd.commitIndex → (∀ e' ∈ nd.line.drop c, e'.entry.address = some a) →
      Newest nd' servers' := by
    intro c hc hall
    have hpositive : 1 ≤ nd.line.length := by
      have hlt := (List.getElem?_eq_some_iff.mp hat).1
      omega
    refine .inr ⟨a, c, hcommit ▸ hc, by omega, fun e' he' => ?_⟩
    have hle : c ≤ (nd.line.map (Entry.map (Obj.overwrite e.entry.address servers'))).length := by
      have hlt := (List.getElem?_eq_some_iff.mp hat).1
      rw [List.length_map]
      omega
    rw [hline, List.drop_append_of_le_length hle, ← List.map_drop] at he'
    rcases List.mem_append.mp he' with hold | hnew
    · obtain ⟨e₀, he₀, rfl⟩ := List.mem_map.mp hold
      have haddress₀ := hall e₀ he₀
      simp [Entry.map, Obj.overwrite, ha, haddress₀]
    · rw [List.mem_singleton.mp hnew, ← ha]
  rcases h with ⟨hempty, hall⟩ | ⟨b, c, hc, -, hall⟩
  · rcases hstart hempty with hstill | hsettled
    · -- a registry without servers remains one
      refine .inl ⟨hstill, fun e' he' => ?_⟩
      rw [hline] at he'
      rcases List.mem_append.mp he' with hold | hnew
      · obtain ⟨e₀, he₀, rfl⟩ := List.mem_map.mp hold
        simp only [Entry.map, Obj.overwrite]
        split
        · exact hstill
        · exact hall e₀ he₀
      · rw [List.mem_singleton.mp hnew]
        exact hstill
    · refine hshared nd.commitIndex le_rfl fun e' he' => ?_
      rw [List.drop_eq_getElem_cons (by omega), List.drop_eq_nil_of_le (by omega),
        List.mem_singleton] at he'
      rw [he', (List.getElem?_eq_some_iff.mp hat).2, ha]
  · have hb : e.entry = ⟨some b, servers⟩ := by
      refine hall e (List.mem_of_getElem? (i := nd.commitIndex - c) ?_)
      rw [List.getElem?_drop, Nat.add_sub_cancel' hc, hat]
    refine hshared c hc fun e' he' => ?_
    rw [hall e' he', ← ha, hb]

end Newest

/-! ### All actions -/

namespace Sole

variable {ℓ : Fin n} {s s' : NameServer n} {reg : ℕ → Registry} {K : ℕ}

theorem init (ℓ : Fin n) : Sole ℓ NameServer.init (fun _ => ∅) 0 := by
  have hdrained : (Cluster.init : Cluster n Obj).Drained := fun _ => rfl
  have hwritten : Written (fun _ => ∅) 0 0 ∅ := ⟨0, Nat.zero_le _, le_rfl, rfl⟩
  have hstart : Lineup (Written (fun _ => ∅) 0) ℓ 0 [] (Cluster.init : Cluster n Obj) :=
    lineup_init hwritten
  constructor
  case wellFormed =>
    exact Namesvr.wellFormed (G := unguarded) ⟨[], .init rfl⟩
  case drained => exact hdrained.revalue
  case lineup =>
    refine hstart.revalue hdrained (fun _ i v hv => ?_) (fun i v hv => ?_)
    · simpa [Written] using hv
    · simpa [Written] using hv
  case onlyAt => exact onlyAt_revalue (Cluster.onlyAt_init ℓ) hdrained
  case first => rfl
  case newest =>
    refine Newest.allocate (.inl ⟨rfl, fun e he => ?_⟩) 0
    rw [List.mem_singleton.mp he]
    rfl

/-- The leader reads the newest registry. -/
theorem read (h : Sole ℓ s reg K) : s.read ℓ = some (reg K) := by
  have hinside : (s.cluster.nodes ℓ).commitIndex < (s.cluster.nodes ℓ).log.length :=
    h.onlyAt.inside
  have he := List.getElem?_eq_getElem hinside
  rw [NameServer.read, Node.checkCommittedEntry, he, Option.map_some, Option.map_some,
    h.newest.committed he]

/-- What another node reads was the newest registry once. -/
theorem read_other (h : Sole ℓ s reg K) {q : Fin n} {servers : Registry}
    (hread : s.read q = some servers) :
    ∃ m, (s.cluster.nodes q).commitIndex ≤ m + 1 ∧ m ≤ K ∧ servers = reg m := by
  obtain ⟨o, ho, rfl⟩ := Option.map_eq_some_iff.mp hread
  obtain ⟨e, he, rfl⟩ := Option.map_eq_some_iff.mp ho
  exact h.lineup.stored q _ e he

/-- A step of the threads. -/
theorem raft (h : Sole ℓ s reg K) {e : Event n Obj} {cluster : Cluster n Obj}
    (hs : s.cluster.exec e = some cluster) (hthread : isThread e = true)
    (hguard : stableLeader ℓ s.cluster e = true) : Sole ℓ (s.settle cluster) reg K := by
  have hready := h.wellFormed.ready
  have hdrained : cluster.Drained := h.drained.exec hs
  have hclient : ∀ p value idNum, e ≠ .clientRequest p value idNum := by
    rintro p value idNum rfl
    simp [isThread] at hthread
  -- the leader takes office with an empty registry
  have hfirst : Written reg K 1 ∅ := ⟨0, le_rfl, Nat.zero_le _, h.first.symm⟩
  have hlineup := h.lineup.exec hready hfirst hs hguard hclient
  obtain ⟨hcommit, hline⟩ := h.onlyAt.line_exec h.lineup hready hs hguard hclient
  constructor
  case wellFormed => exact .settle s (hready.exec hs)
  case drained => exact hdrained.revalue
  case lineup =>
    refine hlineup.revalue hdrained (fun _ i v hv => ?_) (fun i v hv => ?_)
    · simpa [Written] using hv
    · simpa [Written] using hv
  case onlyAt =>
    exact onlyAt_revalue (h.onlyAt.exec h.lineup hlineup hready hs hclient) hdrained
  case first => exact h.first
  case newest => exact (h.newest.onward hcommit hline).allocate _

/-- A handler of the leader submits a registry. -/
theorem submit (h : Sole ℓ s reg K) {servers' : Registry} {owed : Owed}
    (hled : (s.cluster.nodes ℓ).Led)
    (hstart : reg K = ∅ → servers' = ∅ ∨
      (s.cluster.nodes ℓ).line.length = (s.cluster.nodes ℓ).commitIndex + 1) :
    Sole ℓ { s.submit ℓ servers' with owed := owed } (Function.update reg (K + 1) servers')
      (K + 1) := by
  have hwellFormed := h.wellFormed.submit ℓ servers' owed
  obtain ⟨o, ho, -⟩ := Option.map_eq_some_iff.mp h.read
  have haddress : o.address ≠ none := by
    obtain ⟨e, he, rfl⟩ := Option.map_eq_some_iff.mp ho
    exact h.wellFormed.nodes ℓ e (List.mem_append_left _ (List.mem_of_getElem? he))
  simp only [NameServer.submit, ho] at hwellFormed ⊢
  set cluster := s.cluster.revalue
    (fun q => if q = ℓ then Obj.overwrite o.address servers' else id) id with hcluster
  have hdrained : cluster.Drained := h.drained.revalue
  have honly : cluster.OnlyAt ℓ := onlyAt_revalue h.onlyAt h.drained
  have hkeep : ∀ i v, Written reg K i v →
      Written (Function.update reg (K + 1) servers') (K + 1) i v := by
    rintro i v ⟨m, him, hmK, hv⟩
    exact ⟨m, him, by omega, by rw [Function.update_of_ne (by omega)]; exact hv⟩
  have hlineup : Lineup (Written (Function.update reg (K + 1) servers') (K + 1)) ℓ K []
      cluster := by
    refine h.lineup.revalue h.drained (fun q i v hv => ?_) hkeep
    split
    · unfold Obj.overwrite
      split
      · -- what is overwritten becomes the newest registry
        obtain ⟨m, him, hmK, -⟩ := hv
        exact ⟨K + 1, by omega, le_rfl, by rw [Function.update_self]⟩
      · exact hkeep i v hv
    · exact hkeep i v hv
  constructor
  case wellFormed => exact hwellFormed
  case drained =>
    refine Cluster.forall_setNode (Q := fun _ x => x.talker = []) ?_ hdrained
    exact hdrained ℓ
  case lineup =>
    refine hlineup.submit _ _ (fun q hq => ?_) ?_
    · exact pending_of_onlyAt honly fun hledq => hq (hlineup.office q hledq)
    · exact ⟨K + 1, by omega, le_rfl, by rw [Function.update_self]⟩
  case onlyAt => exact onlyAt_clientRequest honly hled _ _
  case first => rw [Function.update_of_ne (by omega), h.first]
  case newest =>
    rw [Function.update_self, Cluster.setNode_nodes_self]
    refine h.newest.submit (s.cluster.nodes ℓ).currentTerm (-1) haddress ho hstart rfl ?_
    rw [line_clientRequest, hcluster]
    simp only [Cluster.revalue, if_true, line_mapEntries]
    rfl

/-- A call of a handler at the leader. -/
theorem call (h : Sole ℓ s reg K) {handle : Registry → Except String Registry}
    {owe : Owed → Owed} {servers' : Registry} (hled : (s.cluster.nodes ℓ).Led)
    (hstart : reg K = ∅ → servers' = ∅ ∨
      (s.cluster.nodes ℓ).line.length = (s.cluster.nodes ℓ).commitIndex + 1)
    (hhandle : handle (reg K) = .ok servers') :
    Sole ℓ (s.call ℓ handle owe) (Function.update reg (K + 1) servers') (K + 1) := by
  unfold NameServer.call
  simp only [h.read, hhandle]
  exact h.submit hled hstart

theorem call_error (h : Sole ℓ s reg K) {handle : Registry → Except String Registry}
    {owe : Owed → Owed} (hhandle : (handle (reg K)).toOption = none) :
    s.call ℓ handle owe = s := by
  unfold NameServer.call
  cases hresult : handle (reg K) with
  | error message => simp only [h.read, hresult]
  | ok servers' => simp [hresult, Except.toOption] at hhandle

/-- An action that submits nothing keeps the registries. -/
theorem exec_none (h : Sole ℓ s reg K) {a : Action n} (hs : s.exec a = some s')
    (hguard : soleWriter ℓ s a = true) (hnone : a.update (reg K) = none) :
    Sole ℓ s' reg K := by
  cases a with
  | raft e =>
    simp only [NameServer.exec] at hs
    split at hs
    · rename_i hthread
      obtain ⟨cluster, hcluster, rfl⟩ := Option.map_eq_some_iff.mp hs
      exact h.raft hcluster hthread hguard
    · simp at hs
  | register p ip port serviceName now =>
    simp only [soleWriter, inCharge, Bool.and_eq_true, beq_iff_eq] at hguard
    obtain ⟨⟨rfl, -⟩, -⟩ := hguard
    simp only [NameServer.exec, Option.some.injEq] at hs
    rw [← hs, h.call_error hnone]
    exact h
  | heartbeat p ip port cpuUsage memoryUsage now =>
    simp only [soleWriter, inCharge, Bool.and_eq_true, beq_iff_eq] at hguard
    obtain ⟨rfl, -⟩ := hguard
    simp only [NameServer.exec, Option.some.injEq] at hs
    rw [← hs, h.call_error hnone]
    exact h
  | monitorClients p now => simp [Action.update] at hnone

/-- An action that submits a registry, as the newest one. -/
theorem exec_some (h : Sole ℓ s reg K) {a : Action n} {servers' : Registry}
    (hs : s.exec a = some s') (hguard : soleWriter ℓ s a = true)
    (hsome : a.update (reg K) = some servers') :
    Sole ℓ s' (Function.update reg (K + 1) servers') (K + 1) := by
  cases a with
  | raft e => simp [Action.update] at hsome
  | register p ip port serviceName now =>
    simp only [soleWriter, inCharge, Bool.and_eq_true, beq_iff_eq, decide_eq_true_eq,
      Bool.or_eq_true, Bool.not_eq_true', decide_eq_false_iff_not] at hguard
    obtain ⟨⟨rfl, hled⟩, hsettled⟩ := hguard
    simp only [NameServer.exec, Option.some.injEq] at hs
    rw [← hs]
    refine h.call hled (fun hempty => .inr ?_) (eq_ok_of_toOption hsome)
    exact hsettled.resolve_left (not_not.mpr (h.read.trans (congrArg some hempty)))
  | heartbeat p ip port cpuUsage memoryUsage now =>
    simp only [soleWriter, inCharge, Bool.and_eq_true, beq_iff_eq, decide_eq_true_eq] at hguard
    obtain ⟨rfl, hled⟩ := hguard
    simp only [NameServer.exec, Option.some.injEq] at hs
    rw [← hs]
    refine h.call hled (fun hempty => ?_) (eq_ok_of_toOption hsome)
    -- nobody is registered in an empty registry
    obtain ⟨svr, hsvr, -⟩ := heartbeat_eq_ok (eq_ok_of_toOption hsome)
    rw [hempty, Dict.get?_empty] at hsvr
    simp at hsvr
  | monitorClients p now =>
    simp only [soleWriter, inCharge, Bool.and_eq_true, beq_iff_eq, decide_eq_true_eq] at hguard
    obtain ⟨rfl, hled⟩ := hguard
    simp only [Action.update, Option.some.injEq] at hsome
    simp only [NameServer.exec] at hs
    split at hs
    · simp only [NameServer.monitor, h.read, Option.some.injEq] at hs
      subst hs hsome
      exact h.submit hled fun hempty => .inl (by rw [hempty]; rfl)
    · simp at hs

end Sole

/-! ## The result -/

/-- Every registry that was submitted is the one after an earlier part of the history. -/
theorem sole_run {ℓ : Fin n} {history : List (NameServerStep n)} {s : NameServer n}
    (h : (nameServerSystem n).Run (fun s a => soleWriter ℓ s a = true) history s) :
    ∃ reg, Sole ℓ s reg (updates history) ∧ reg (updates history) = registryAfter history ∧
      ∀ m ≤ updates history, ∃ earlier, earlier <:+ history ∧ updates earlier = m ∧
        registryAfter earlier = reg m := by
  refine TransitionSystem.Run.invariant (I := fun history s =>
    ∃ reg, Sole ℓ s reg (updates history) ∧ reg (updates history) = registryAfter history ∧
      ∀ m ≤ updates history, ∃ earlier, earlier <:+ history ∧ updates earlier = m ∧
        registryAfter earlier = reg m) ?_ ?_ h
  · rintro _ rfl
    exact ⟨_, .init ℓ, rfl, fun m hm => ⟨[], List.suffix_rfl, (Nat.le_zero.mp hm).symm, rfl⟩⟩
  · rintro history s a s' ⟨reg, hsole, hnow, hbefore⟩ hguard hstep
    have hlater : ∀ earlier, earlier <:+ history → earlier <:+ ⟨s, a, s'⟩ :: history :=
      fun earlier hsuffix => hsuffix.trans (List.suffix_cons _ _)
    cases hupdate : a.update (reg (updates history)) with
    | none =>
      rw [hnow] at hupdate
      obtain ⟨hsame, hcount⟩ := registryAfter_cons_none (x := ⟨s, a, s'⟩) hupdate
      rw [hsame, hcount]
      refine ⟨reg, hsole.exec_none hstep hguard (hnow ▸ hupdate), hnow, fun m hm => ?_⟩
      obtain ⟨earlier, hsuffix, heq⟩ := hbefore m hm
      exact ⟨earlier, hlater earlier hsuffix, heq⟩
    | some servers' =>
      have hsole' := hsole.exec_some hstep hguard hupdate
      rw [hnow] at hupdate
      obtain ⟨hnew, hcount⟩ := registryAfter_cons_some (x := ⟨s, a, s'⟩) hupdate
      rw [hcount]
      refine ⟨_, hsole', by rw [Function.update_self, hnew], fun m hm => ?_⟩
      rcases Nat.lt_or_ge (updates history) m with hlast | hold
      · obtain rfl : m = updates history + 1 := by omega
        exact ⟨_, List.suffix_rfl, hcount, by rw [Function.update_self, hnew]⟩
      · obtain ⟨earlier, hsuffix, heq, hreg⟩ := hbefore m hold
        exact ⟨earlier, hlater earlier hsuffix, heq, by rw [Function.update_of_ne (by omega), hreg]⟩

theorem read_registryAfter {ℓ : Fin n} {history : List (NameServerStep n)} {s : NameServer n}
    (h : (nameServerSystem n).Run (fun s a => soleWriter ℓ s a = true) history s) :
    s.read ℓ = some (registryAfter history) := by
  obtain ⟨reg, hsole, hnow, -⟩ := sole_run h
  exact hsole.read.trans (congrArg some hnow)

/-- The leader reads the registry after all requests one after another. What another node reads
is that registry at an earlier time: after all the requests that it has committed, or more. -/
theorem sole_writer {ℓ : Fin n} {history : List (NameServerStep n)} {s : NameServer n}
    (h : (nameServerSystem n).Run (fun s a => soleWriter ℓ s a = true) history s) :
    s.read ℓ = some (registryAfter history) ∧
      ∀ q servers, s.read q = some servers → ∃ earlier, earlier <:+ history ∧
        servers = registryAfter earlier ∧
          (s.cluster.nodes q).commitIndex ≤ updates earlier + 1 := by
  refine ⟨read_registryAfter h, fun q servers hread => ?_⟩
  obtain ⟨reg, hsole, -, hbefore⟩ := sole_run h
  obtain ⟨m, hcommit, hm, rfl⟩ := hsole.read_other hread
  obtain ⟨earlier, hsuffix, rfl, hreg⟩ := hbefore m hm
  exact ⟨earlier, hsuffix, hreg.symm, hcommit⟩

/-- Node `0` reads two servers and node `1` only one. -/
def fallenBehind (s : NameServer 2) : Bool :=
  (s.read 0).any (fun servers => servers.keys.length == 2) &&
    (s.read 1).any fun servers => servers.keys.length == 1

/-- A second server registers at the leader when the first one is committed. -/
theorem sole_writer_secondServer :
    ∃ (history : List (NameServerStep 2)) (s : NameServer 2), fallenBehind s = true ∧
      s.read 0 = some (registryAfter history) ∧
        ∀ q servers, s.read q = some servers → ∃ earlier, earlier <:+ history ∧
          servers = registryAfter earlier ∧
            (s.cluster.nodes q).commitIndex ≤ updates earlier + 1 := by
  have hreplay : (replay NameServer.exec (soleWriter 0) [] NameServer.init
      (inOffice ++ [.register 0 "a" 1 "s" 0,
        .raft (.leader 0 false (fun _ => false) none), .raft (.follower 1 (some 0) false),
        .raft (.leader 0 false (fun _ => false) (some 1)), .raft (.follower 1 (some 0) false),
        .register 0 "b" 2 "t" 1])).any (fun r => fallenBehind r.2) = true := by
    decide +kernel
  obtain ⟨history, s, hrun, htest⟩ := exists_run_of_replay (fun _ s => fallenBehind s) hreplay
  exact ⟨history, s, htest, sole_writer hrun⟩

end DreamboatRpc.Namesvr
