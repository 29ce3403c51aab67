import DreamboatRpc.Namesvr.LeaderChange
import DreamboatRpc.Raft.Holdings

/-!
# Handlers and the replicated history

The dictionary that a handler reads is the one in the log of its node. A handler that
changes it rewrites the committed entry, before the change is replicated, and only at this
node. So the logs keep what was replicated exactly as long as every handler leaves the
registry that it reads as it is.

## Main definitions

* `leavesRegistry` — a handler changes nothing of what it reads
* `SameLogs`, `SameRegistries` — what a handler should preserve
* `OneValue` — a dictionary of a node has one value, wherever it is referred to
* `KeepsHistory` — no handler rewrites an entry, and the copies of an entry are equal

## Main results

* `history_kept_iff` — when a handler keeps the logs, and when a run does
* `history_rewritten` — a registration that rewrites an entry two nodes have
-/

namespace DreamboatRpc.Namesvr

open CS Raft

variable {n : ℕ}

/-! ## The condition -/

/-- A request of a client or a pass of the monitor. -/
def isHandler : Action n → Bool
  | .raft _ => false
  | .register _ _ _ _ _ | .heartbeat _ _ _ _ _ _ | .monitorClients _ _ => true

/-- A handler changes nothing in the registry it reads, if it can read one: the service is
there already, or the server is unknown or repeats itself, or all servers are in time. -/
def leavesRegistry (s : NameServer n) : Action n → Bool
  | .raft _ => true
  | .register p ip port serviceName _ =>
    (s.read p).all fun servers =>
      (servers.get? ⟨ip, port⟩).any fun svr => decide (serviceName ∈ svr.services)
  | .heartbeat p ip port cpuUsage memoryUsage now =>
    (s.read p).all fun servers =>
      (servers.get? ⟨ip, port⟩).all (repeats cpuUsage memoryUsage now)
  | .monitorClients p now =>
    (s.read p).all fun servers =>
      servers.keys.all fun svrId => (servers.get? svrId).all (inTime now)

/-! ## What is to be preserved -/

/-- All nodes have the logs they had. -/
def SameLogs (s s' : NameServer n) : Prop :=
  ∀ q, (s'.cluster.nodes q).log = (s.cluster.nodes q).log

/-- Entries that nodes have at the same index with the same term have the same registry. A
leader appends one entry at an index, so this speaks of all copies of what it broadcast. -/
def SameRegistries (s : NameServer n) : Prop :=
  ∀ p q, ∀ (i : ℕ) (e e' : Entry Obj), (s.cluster.nodes p).log[i]? = some e →
    (s.cluster.nodes q).log[i]? = some e' → e.term = e'.term →
    e.entry.registry = e'.entry.registry

/-- No handler changes a log, and the copies of an entry stay equal. -/
structure KeepsHistory (history : List (NameServerStep n)) : Prop where
  handlers : ∀ x ∈ history, isHandler x.event = true → SameLogs x.source x.target
  copies : ∀ x ∈ history, SameRegistries x.source ∧ SameRegistries x.target

/-! ## References -/

/-- Wherever a node refers to a dictionary, it has the same value. -/
def OneValue (nd : Node n Obj) : Prop :=
  ∀ e ∈ nd.held, ∀ e' ∈ nd.held, e.entry.address = e'.entry.address →
    e.entry.registry = e'.entry.registry

namespace OneValue

variable {nd nd' : Node n Obj}

/-- A node gets one dictionary that has no address yet. -/
theorem of_gains (h : OneValue nd) (hlocated : ∀ e ∈ nd.held, e.entry.address ≠ none)
    {new : Option (Entry Obj)} (hheld : ∀ e ∈ nd'.held, e ∈ nd.held ∨ new = some e)
    (hnew : ∀ e, new = some e → e.entry.address = none) : OneValue nd' := by
  intro e he e' he' haddress
  rcases hheld e he with hold | hgot
  · rcases hheld e' he' with hold' | hgot'
    · exact h e hold e' hold' haddress
    · exact absurd (haddress.trans (hnew e' hgot')) (hlocated e hold)
  · rcases hheld e' he' with hold' | hgot'
    · exact absurd (haddress.symm.trans (hnew e hgot)) (hlocated e' hold')
    · rw [hgot, Option.some.injEq] at hgot'
      rw [hgot']

/-- The dictionary without an address gets one that no other has. -/
theorem allocate (h : OneValue nd) :
    OneValue (nd.mapEntries (Obj.allocate (freshAddress nd))) := by
  have hfresh : ∀ e ∈ nd.held, e.entry.address ≠ some (freshAddress nd) :=
    fun e he hsome => lt_irrefl _ (lt_freshAddress he hsome)
  intro e he e' he' haddress
  rw [Node.held_mapEntries] at he he'
  obtain ⟨e₀, he₀, rfl⟩ := List.mem_map.mp he
  obtain ⟨e₀', he₀', rfl⟩ := List.mem_map.mp he'
  simp only [Entry.map, Obj.allocate_registry] at haddress ⊢
  refine h e₀ he₀ e₀' he₀' ?_
  unfold Obj.allocate at haddress
  split at haddress
  · split at haddress
    · rename_i hnone hnone'
      rw [hnone, hnone']
    · exact absurd haddress.symm (hfresh e₀' he₀')
  · split at haddress
    · exact absurd haddress (hfresh e₀ he₀)
    · exact haddress

/-- A handler changes a dictionary, wherever the node refers to it, and enqueues it. -/
theorem overwrite (h : OneValue nd) (address : Option ℕ) (servers : Registry)
    (hheld : ∀ e ∈ nd'.held, e ∈ nd.held.map (Entry.map (Obj.overwrite address servers)) ∨
      e.entry = ⟨address, servers⟩) : OneValue nd' := by
  have hvalue : ∀ e ∈ nd'.held, (e.entry.address = address ∧ e.entry.registry = servers) ∨
      (e.entry.address ≠ address ∧ ∃ e₀ ∈ nd.held, e.entry = e₀.entry) := by
    intro e he
    rcases hheld e he with hmem | heq
    · obtain ⟨e₀, he₀, rfl⟩ := List.mem_map.mp hmem
      simp only [Entry.map, Obj.overwrite]
      split
      · exact .inl ⟨‹_›, rfl⟩
      · exact .inr ⟨‹_›, e₀, he₀, rfl⟩
    · exact .inl (by simp [heq])
  intro e he e' he' haddress
  obtain ⟨hat, hset⟩ | ⟨hnot, e₀, he₀, heq⟩ := hvalue e he
  · obtain ⟨-, hset'⟩ | ⟨hnot', -⟩ := hvalue e' he'
    · rw [hset, hset']
    · exact absurd (haddress.symm.trans hat) hnot'
  · obtain ⟨hat', -⟩ | ⟨-, e₀', he₀', heq'⟩ := hvalue e' he'
    · exact absurd (haddress.trans hat') hnot
    · rw [heq, heq'] at haddress ⊢
      exact h e₀ he₀ e₀' he₀' haddress

end OneValue

/-- The memory of every node makes sense, and what is on the network are copies. -/
structure Coherent (s : NameServer n) : Prop extends WellFormed s where
  drained : s.cluster.Drained
  copied : ∀ p q, ∀ packet ∈ s.cluster.net p q, ∀ e, packet.message.carried = some e →
    e.entry.address = none
  values : ∀ p, OneValue (s.cluster.nodes p)

namespace Coherent

variable {s s' : NameServer n}

theorem of_cluster_eq (h : Coherent s) (hcluster : s'.cluster = s.cluster) : Coherent s' := by
  refine ⟨h.toWellFormed.of_cluster_eq hcluster, ?_, ?_, ?_⟩
  · rw [hcluster]
    exact h.drained
  · rw [hcluster]
    exact h.copied
  · rw [hcluster]
    exact h.values

theorem settle (h : Coherent s) {e : Event n Obj} {cluster : Cluster n Obj}
    (hthread : isThread e = true) (hs : s.cluster.exec e = some cluster) :
    Coherent (s.settle cluster) := by
  refine ⟨.settle s (h.ready.exec hs), (h.drained.exec hs).revalue, ?_, fun p => ?_⟩
  · intro p q packet hpacket entry hcarried
    obtain ⟨-, -, e₀, -, rfl⟩ := carried_of_mem_map hpacket hcarried
    rfl
  · -- what came from the network, or was just made, has no address
    refine (OneValue.of_gains (h.values p) (h.nodes p)
      (Cluster.exec_held h.ready hs p) fun entry hentry => ?_).allocate
    obtain ⟨q, -, rfl⟩ | ⟨q, value, idNum, rfl⟩ | ⟨q, r, packet, hpacket, hcarried⟩ :=
      Cluster.newEntry_cases hentry
    · rfl
    · simp [isThread] at hthread
    · exact h.copied q r packet hpacket entry hcarried

theorem submit (h : Coherent s) (p : Fin n) (servers : Registry) (owed : Owed) :
    Coherent { s.submit p servers with owed := owed } := by
  have hwf := h.toWellFormed.submit p servers owed
  unfold NameServer.submit at hwf ⊢
  split at hwf
  · exact h.of_cluster_eq rfl
  · rename_i o ho
    have hdrained : ∀ q, (s.cluster.nodes q).talker = [] := h.drained
    refine ⟨hwf, fun q => ?_, ?_, fun q => ?_⟩
    · rw [Cluster.setNode_nodes]
      split
      · exact hdrained p
      · exact hdrained q
    · intro q r packet hpacket entry hcarried
      have hcopy : packet ∈ (s.cluster.net q r).map (Packet.map id) := hpacket
      obtain ⟨packet₀, hpacket₀, e₀, he₀, rfl⟩ := carried_of_mem_map hcopy hcarried
      exact h.copied q r packet₀ hpacket₀ e₀ he₀
    · rw [Cluster.setNode_nodes]
      split
      · refine (h.values p).overwrite o.address servers fun e he => ?_
        simp only [Node.held, Node.clientRequest, ← List.append_assoc] at he
        rcases List.mem_append.mp he with he | he
        · simp only [Cluster.revalue, if_true] at he
          exact .inl ((Node.held_mapEntries _) ▸ he)
        · exact .inr (by rw [List.mem_singleton.mp he])
      · rename_i hq
        intro e he e' he'
        simp only [Cluster.revalue, if_neg hq, Node.held_mapEntries] at he he'
        obtain ⟨e₀, he₀, rfl⟩ := List.mem_map.mp he
        obtain ⟨e₀', he₀', rfl⟩ := List.mem_map.mp he'
        exact h.values q e₀ he₀ e₀' he₀'

theorem exec (h : Coherent s) {a : Action n} (hs : s.exec a = some s') : Coherent s' := by
  obtain ⟨e, cluster, -, hthread, hcluster, rfl⟩ | hsame | ⟨p, servers, owed, rfl⟩ :=
    NameServer.exec_cases hs
  · exact h.settle hthread hcluster
  · exact h.of_cluster_eq hsame
  · exact h.submit p servers owed

end Coherent

theorem coherent {G : NameServer n → Action n → Prop} {s : NameServer n}
    (h : (nameServerSystem n).Reachable G s) : Coherent s := by
  refine TransitionSystem.Reachable.invariant (I := Coherent) ?_ ?_ h
  · rintro _ rfl
    refine ⟨wellFormed (G := G) ⟨[], .init rfl⟩, fun _ => rfl, ?_, fun p => ?_⟩
    · intro p q packet hpacket
      simp [NameServer.init, Cluster.revalue, Cluster.init, FifoNetwork.empty] at hpacket
    · -- there is one entry
      have hheld : ((NameServer.init : NameServer n).cluster.nodes p).held =
          [Entry.map (Obj.allocate 0) Node.initialEntry] := rfl
      intro e he e' he' _
      rw [hheld, List.mem_singleton] at he he'
      rw [he, he']
  · intro s a s' hs _ hstep
    exact hs.exec hstep

/-! ## One handler -/

section Handlers

variable {s s' : NameServer n} {p : Fin n} {a : Action n}

theorem SameLogs.refl : SameLogs s s := fun _ => rfl

theorem SameLogs.congr {s'' : NameServer n} (hcluster : s''.cluster = s'.cluster) :
    SameLogs s s'' ↔ SameLogs s s' := by
  unfold SameLogs
  rw [hcluster]

/-- The log has the dictionary that was changed at the commit index, and perhaps elsewhere. -/
theorem submit_sameLogs_iff (h : OneValue (s.cluster.nodes p)) {old servers : Registry}
    (hread : s.read p = some old) : SameLogs s (s.submit p servers) ↔ servers = old := by
  obtain ⟨o, ho, rfl⟩ := Option.map_eq_some_iff.mp hread
  obtain ⟨e, he, rfl⟩ := Option.map_eq_some_iff.mp ho
  have hlog : ∀ q, ((s.submit p servers).cluster.nodes q).log = (s.cluster.nodes q).log.map
      (Entry.map (if q = p then Obj.overwrite e.entry.address servers else id)) := by
    intro q
    simp only [NameServer.submit, ho, Cluster.setNode_nodes]
    split
    · rename_i hq
      subst hq
      simp [Cluster.revalue, Node.clientRequest, Node.mapEntries]
    · simp [Cluster.revalue, Node.mapEntries, *]
  constructor
  · intro hsame
    have hentry := congrArg (fun l => l[(s.cluster.nodes p).commitIndex]?) (hsame p)
    rw [hlog p, if_pos rfl] at hentry
    simp only [List.getElem?_map, he, Option.map_some, Option.some.injEq] at hentry
    rw [← hentry]
    simp [Entry.map, Obj.overwrite]
  · rintro rfl q
    rw [hlog]
    split
    · rename_i hq
      subst hq
      refine (List.map_congr_left fun e' he' => ?_).trans (List.map_id _)
      -- all that refer to the dictionary have the value it had
      have hvalue : e'.entry.address = e.entry.address →
          e'.entry.registry = e.entry.registry :=
        h e' (Node.mem_held_of_log he') e (Node.mem_held_of_log (List.mem_of_getElem? he))
      simp only [Entry.map, Obj.overwrite, id]
      split
      · rename_i hat
        rw [← hvalue hat]
      · rfl
    · exact List.map_id _

theorem call_sameLogs_iff (h : OneValue (s.cluster.nodes p))
    (handle : Registry → Except String Registry) (owe : Owed → Owed) :
    SameLogs s (s.call p handle owe) ↔
      ∀ servers, s.read p = some servers →
        ∀ servers', handle servers = .ok servers' → servers' = servers := by
  unfold NameServer.call
  split
  · rename_i hnone
    simp [hnone, SameLogs.refl]
  · rename_i servers hread
    split
    · rename_i message hrefused
      simp [hread, hrefused, SameLogs.refl]
    · rename_i servers' hok
      have hsubmit : SameLogs s { s.submit p servers' with owed := owe s.owed } ↔
          servers' = servers :=
        (SameLogs.congr rfl).trans (submit_sameLogs_iff h hread)
      simp [hsubmit, hread, hok]

/-- A handler keeps all logs exactly if it leaves the registry it reads. -/
theorem exec_sameLogs_iff (h : ∀ p, OneValue (s.cluster.nodes p)) (hs : s.exec a = some s')
    (ha : isHandler a = true) : SameLogs s s' ↔ leavesRegistry s a = true := by
  cases a with
  | raft e => simp [isHandler] at ha
  | register p ip port serviceName now =>
    simp only [NameServer.exec, Option.some.injEq] at hs
    rw [← hs, call_sameLogs_iff (h p)]
    simp only [register_keeps_iff, leavesRegistry, Option.all_eq_true, Option.any_eq_true,
      decide_eq_true_eq]
  | heartbeat p ip port cpuUsage memoryUsage now =>
    simp only [NameServer.exec, Option.some.injEq] at hs
    rw [← hs, call_sameLogs_iff (h p)]
    simp only [heartbeat_keeps_iff, leavesRegistry, Option.all_eq_true]
  | monitorClients p now =>
    simp only [NameServer.exec] at hs
    split at hs
    · simp only [Option.some.injEq] at hs
      rw [← hs, NameServer.monitor]
      cases hread : s.read p with
      | none => simp [SameLogs, leavesRegistry, hread]
      | some servers =>
        refine (SameLogs.congr rfl).trans ((submit_sameLogs_iff (h p) hread).trans ?_)
        simp only [monitorClients_eq_self_iff, leavesRegistry, hread, Option.all_some,
          List.all_eq_true, Option.all_eq_true]
        constructor
        · exact fun hall svrId _ svr hsvr => hall svrId svr hsvr
        · refine fun hall svrId svr hsvr => hall svrId (Dict.mem_keys_iff.mpr ?_) svr hsvr
          simp [hsvr]
    · simp at hs

end Handlers

/-! ## Runs -/

section Registries

variable {P : Registry → Prop} {s : NameServer n}

/-- What is true of all registries stays true of them, as leaders make empty ones. -/
theorem holds_settle (h : s.cluster.Holds fun e => P e.entry.registry) (hempty : P ∅)
    (hs : Coherent s) {e : Event n Obj} {cluster : Cluster n Obj} (hthread : isThread e = true)
    (hstep : s.cluster.exec e = some cluster) :
    (s.settle cluster).cluster.Holds fun e => P e.entry.registry := by
  have hcluster : cluster.Holds fun e => P e.entry.registry := by
    refine h.exec hs.ready hstep (fun _ => hempty) ?_
    rintro q value idNum rfl
    simp [isThread] at hthread
  exact hcluster.revalue (hs.drained.exec hstep)
    (fun q e he => by rwa [Entry.map, Obj.allocate_registry])
    (fun e he => by rwa [Entry.map, Obj.copy_registry])

/-- It stays true when a registry of which it is true is submitted. -/
theorem holds_submit (h : s.cluster.Holds fun e => P e.entry.registry) (hs : Coherent s)
    {servers : Registry} (hservers : P servers) (p : Fin n) :
    (s.submit p servers).cluster.Holds fun e => P e.entry.registry := by
  unfold NameServer.submit
  split
  · exact h
  · rename_i o ho
    have hwritten : (s.cluster.revalue (fun q => if q = p then Obj.overwrite o.address servers
        else id) id).Holds fun e => P e.entry.registry := by
      refine h.revalue hs.drained (fun q e he => ?_) fun e he => he
      simp only [Entry.map]
      split
      · unfold Obj.overwrite
        split
        · exact hservers
        · exact he
      · exact he
    -- the call adds to the queue, and sends nothing
    constructor
    · intro q e he
      simp only [Cluster.setNode_nodes] at he
      split at he
      · simp only [Node.held, Node.clientRequest, ← List.append_assoc] at he
        rcases List.mem_append.mp he with he | he
        · exact hwritten.nodes p e he
        · rw [List.mem_singleton.mp he]
          exact hservers
      · exact hwritten.nodes q e he
    · intro q r packet hpacket e he
      refine hwritten.inflight q r packet ?_ e he
      rcases Cluster.mem_inflight_setNode [] (by simp [Node.clientRequest]) hpacket with
        hmem | ⟨-, receiver, -, hmem⟩
      · exact hmem
      · simp at hmem

/-- A handler reads one of the registries. -/
theorem holds_read (h : s.cluster.Holds fun e => P e.entry.registry) {p : Fin n}
    {servers : Registry} (hread : s.read p = some servers) : P servers := by
  obtain ⟨o, ho, rfl⟩ := Option.map_eq_some_iff.mp hread
  obtain ⟨e, he, rfl⟩ := Option.map_eq_some_iff.mp ho
  exact h.nodes p e (Node.mem_held_of_log (List.mem_of_getElem? he))

theorem holds_init (hempty : P ∅) :
    (NameServer.init : NameServer n).cluster.Holds fun e => P e.entry.registry := by
  refine ⟨fun p e he => ?_, fun p q packet hpacket => ?_⟩
  · have hheld : ((NameServer.init : NameServer n).cluster.nodes p).held =
        [Entry.map (Obj.allocate 0) Node.initialEntry] := rfl
    rw [hheld, List.mem_singleton] at he
    rw [he]
    exact hempty
  · simp [NameServer.init, Cluster.inflight, Cluster.revalue, Cluster.init, FifoNetwork.empty,
      Node.mapEntries, Node.init, FifoNetwork.addressedTo_nil] at hpacket

/-- What is true of the empty registry and kept by the handlers and the monitor is true of all
registries, wherever they are. -/
theorem holds_of_reachable (hempty : P ∅)
    (hregister : ∀ {servers servers' ip port serviceName now}, P servers →
      register ip port serviceName now servers = .ok servers' → P servers')
    (hheartbeat : ∀ {servers servers' ip port cpuUsage memoryUsage now}, P servers →
      heartbeat ip port cpuUsage memoryUsage now servers = .ok servers' → P servers')
    (hmonitor : ∀ {servers} now, P servers → P (monitorClients now servers))
    (h : (nameServerSystem n).Reachable unguarded s) :
    s.cluster.Holds fun e => P e.entry.registry := by
  have hinv : Coherent s ∧ s.cluster.Holds fun e => P e.entry.registry := by
    refine TransitionSystem.Reachable.invariant (I := fun s : NameServer n =>
      Coherent s ∧ s.cluster.Holds fun e => P e.entry.registry) ?_ ?_ h
    · rintro _ rfl
      exact ⟨coherent (G := unguarded) ⟨[], .init rfl⟩, holds_init hempty⟩
    · rintro s a s' ⟨hs, hholds⟩ - hstep
      refine ⟨hs.exec hstep, ?_⟩
      have hcall : ∀ p handle owe, (∀ servers servers', P servers →
          handle servers = .ok servers' → P servers') →
          (s.call p handle owe).cluster.Holds fun e => P e.entry.registry := by
        intro p handle owe hhandle
        unfold NameServer.call
        split
        · exact hholds
        · rename_i servers hread
          split
          · exact hholds
          · rename_i servers' hok
            exact holds_submit hholds hs (hhandle _ _ (holds_read hholds hread) hok) p
      cases a with
      | raft e =>
        simp only [nameServerSystem, TransitionSystem.ofExec_step, NameServer.exec] at hstep
        split at hstep
        · rename_i hthread
          obtain ⟨cluster, hcluster, rfl⟩ := Option.map_eq_some_iff.mp hstep
          exact holds_settle hholds hempty hs hthread hcluster
        · cases hstep
      | register p ip port serviceName now =>
        obtain rfl := Option.some.inj hstep
        exact hcall p _ _ fun _ _ => hregister
      | heartbeat p ip port cpuUsage memoryUsage now =>
        obtain rfl := Option.some.inj hstep
        exact hcall p _ _ fun _ _ => hheartbeat
      | monitorClients p now =>
        simp only [nameServerSystem, TransitionSystem.ofExec_step, NameServer.exec] at hstep
        split at hstep
        · obtain rfl := Option.some.inj hstep
          unfold NameServer.monitor
          split
          · exact hholds
          · rename_i servers hread
            exact holds_submit hholds hs (hmonitor now (holds_read hholds hread)) p
        · cases hstep
  exact hinv.2

end Registries

/-- No registry has a server, in any log or queue or under way. -/
def Unregistered (s : NameServer n) : Prop :=
  s.cluster.Holds fun e => e.entry.registry = ∅

namespace Unregistered

variable {s s' : NameServer n} {p : Fin n} {a : Action n}

theorem sameRegistries (h : Unregistered s) : SameRegistries s := by
  intro p q i e e' he he' _
  rw [h.nodes p e (Node.mem_held_of_log (List.mem_of_getElem? he)),
    h.nodes q e' (Node.mem_held_of_log (List.mem_of_getElem? he'))]

theorem exec (h : Unregistered s) (hs : Coherent s) (hstep : s.exec a = some s')
    (hleaves : leavesRegistry s a = true) : Unregistered s' := by
  by_cases ha : isHandler a = true
  swap
  · cases a with
    | raft e =>
      simp only [NameServer.exec] at hstep
      split at hstep
      · rename_i hthread
        obtain ⟨cluster, hcluster, rfl⟩ := Option.map_eq_some_iff.mp hstep
        exact holds_settle (P := fun servers => servers = ∅) h rfl hs hthread hcluster
      · simp at hstep
    | _ => simp [isHandler] at ha
  -- what a handler submits is what it has read
  have hsame := (exec_sameLogs_iff hs.values hstep ha).mpr hleaves
  obtain ⟨e, cluster, rfl, -⟩ | hcluster | ⟨p, servers, owed, rfl⟩ := NameServer.exec_cases hstep
  · simp [isHandler] at ha
  · unfold Unregistered
    rwa [hcluster]
  · cases hread : s.read p with
    | none =>
      have hnothing : s.submit p servers = s := by
        rw [NameServer.submit, Option.map_eq_none_iff.mp hread]
      rw [hnothing]
      exact h
    | some old =>
      have hkept : SameLogs s (s.submit p servers) := hsame
      rw [submit_sameLogs_iff (hs.values p) hread] at hkept
      have hempty : servers = ∅ :=
        hkept.trans (holds_read (P := fun servers => servers = ∅) h hread)
      exact holds_submit (P := fun servers => servers = ∅) h hs hempty p

end Unregistered

/-- As long as every handler leaves the registry it reads, no server is ever registered. -/
theorem unregistered {s : NameServer n}
    (h : (nameServerSystem n).Reachable (fun s a => leavesRegistry s a = true) s) :
    Coherent s ∧ Unregistered s := by
  refine TransitionSystem.Reachable.invariant (I := fun s => Coherent s ∧ Unregistered s) ?_ ?_ h
  · rintro _ rfl
    exact ⟨coherent (G := unguarded) ⟨[], .init rfl⟩,
      holds_init (P := fun servers => servers = ∅) rfl⟩
  · intro s a s' hs hleaves hstep
    exact ⟨hs.1.exec hstep, hs.2.exec hs.1 hstep hleaves⟩

/-- A handler keeps the logs of all nodes exactly if it leaves the registry it reads; and a
run keeps the history that the nodes share exactly if all its handlers do. -/
theorem history_kept_iff :
    (∀ (s : NameServer n) a s', (∀ p, OneValue (s.cluster.nodes p)) → s.exec a = some s' →
      isHandler a = true → (SameLogs s s' ↔ leavesRegistry s a = true)) ∧
    ∀ history s, (nameServerSystem n).Run unguarded history s →
      (KeepsHistory history ↔ ∀ x ∈ history, leavesRegistry x.source x.event = true) := by
  refine ⟨fun s a s' hvalues hs ha => exec_sameLogs_iff hvalues hs ha, fun history s hrun => ?_⟩
  constructor
  · intro hkeeps x hx
    obtain ⟨hsource, -, hstep⟩ := hrun.of_mem hx
    by_cases ha : isHandler x.event = true
    · exact (exec_sameLogs_iff (coherent hsource).values hstep ha).mp (hkeeps.handlers x hx ha)
    · cases hevent : x.event with
      | raft e => rfl
      | _ => simp [hevent, isHandler] at ha
  · intro hleaves
    have hguarded : (nameServerSystem n).Run (fun s a => leavesRegistry s a = true) history s :=
      hrun.guard hleaves
    constructor
    · intro x hx ha
      obtain ⟨hsource, -, hstep⟩ := hrun.of_mem hx
      exact (exec_sameLogs_iff (coherent hsource).values hstep ha).mpr (hleaves x hx)
    · intro x hx
      obtain ⟨⟨before, hbefore⟩, hguard, hstep⟩ := hguarded.of_mem hx
      have hsource := (unregistered ⟨before, hbefore⟩).2
      have htarget := (unregistered ⟨_, hbefore.step hguard hstep⟩).2
      exact ⟨hsource.sameRegistries, htarget.sameRegistries⟩

/-- Node `0` of two takes office, and both nodes store its first entry; node `0` commits it,
and a server registers there. -/
def firstRegistration : List (Action 2) := wonElection.map .raft ++
  [.raft (.run 0), .raft (.follower 1 (some 0) false), .raft (.follower 1 (some 0) false),
    .raft (.leader 0 false (fun _ => false) (some 1)), .register 0 "a" 1 "s" 0]

/-- A handler ran, the two nodes had the same entry at index `1`, and now it differs. -/
def rewrites (x : NameServerStep 2) : Bool :=
  let copy (s : NameServer 2) (p : Fin 2) :=
    (s.cluster.nodes p).log[1]?.map fun e => (e.term, e.entry.registry)
  isHandler x.event && (copy x.source 0).isSome && decide (copy x.source 0 = copy x.source 1) &&
    decide ((copy x.target 0).map Prod.fst = (copy x.target 1).map Prod.fst) &&
    decide (copy x.target 0 ≠ copy x.target 1)

theorem firstRegistration_run : ∃ (history : List (NameServerStep 2)) (s : NameServer 2),
    (nameServerSystem 2).Run unguarded history s ∧
      ∃ x ∈ history, rewrites x = true ∧ leavesRegistry x.source x.event = false := by
  have hreplay : (replay NameServer.exec (fun _ _ => true) [] NameServer.init
      firstRegistration).any (fun r => r.1.any fun x =>
        rewrites x && !leavesRegistry x.source x.event) = true := by decide +kernel
  obtain ⟨history, s, hrun, htest⟩ := exists_run_of_replay
    (fun history _ => history.any fun x => rewrites x && !leavesRegistry x.source x.event) hreplay
  simp only [List.any_eq_true, Bool.and_eq_true, Bool.not_eq_true'] at htest
  exact ⟨history, s, hrun.mono fun _ _ _ => trivial, htest⟩

theorem history_kept_firstRegistration :
    ∃ (history : List (NameServerStep 2)) (s : NameServer 2),
      (nameServerSystem 2).Run unguarded history s ∧ ¬ KeepsHistory history ∧
        ∃ x ∈ history, isHandler x.event = true ∧ ¬ SameLogs x.source x.target := by
  obtain ⟨history, s, hrun, x, hx, hrewrites, hchanges⟩ := firstRegistration_run
  have hhandler : isHandler x.event = true := by
    simp only [rewrites, Bool.and_eq_true] at hrewrites
    exact hrewrites.1.1.1.1
  obtain ⟨hsource, -, hstep⟩ := hrun.of_mem hx
  refine ⟨history, s, hrun, fun hkeeps => ?_, x, hx, hhandler, fun hsame => ?_⟩
  · have hleaves := ((history_kept_iff.2 history s hrun).mp hkeeps) x hx
    simp [hchanges] at hleaves
  · have hleaves := (history_kept_iff.1 x.source x.event x.target (coherent hsource).values hstep
      hhandler).mp hsame
    simp [hchanges] at hleaves

theorem not_same_of_rewrites {x : NameServerStep 2} (h : rewrites x = true) :
    isHandler x.event = true ∧ ¬ SameLogs x.source x.target ∧ ¬ SameRegistries x.target := by
  simp only [rewrites, Bool.and_eq_true, decide_eq_true_eq, Option.isSome_iff_exists] at h
  obtain ⟨⟨⟨⟨hhandler, -⟩, hbefore⟩, hterms⟩, hafter⟩ := h
  refine ⟨hhandler, fun hsame => ?_, fun hcopies => ?_⟩
  · rw [hsame 0, hsame 1] at hafter
    exact hafter hbefore
  · apply hafter
    cases h₀ : (x.target.cluster.nodes 0).log[1]? with
    | none => cases h₁ : (x.target.cluster.nodes 1).log[1]? <;> simp [h₀, h₁] at hterms ⊢
    | some e =>
      cases h₁ : (x.target.cluster.nodes 1).log[1]? with
      | none => simp [h₀, h₁] at hterms
      | some e' =>
        have hterm : e.term = e'.term := by simpa [h₀, h₁] using hterms
        simp [hterm, hcopies 0 1 1 e e' h₀ h₁ hterm]

/-- A registration rewrites an entry that two nodes have stored, at one of them. -/
theorem history_rewritten :
    (¬ ∀ (n : ℕ) (history : List (NameServerStep n)) (s : NameServer n),
      (nameServerSystem n).Run unguarded history s →
        ∀ x ∈ history, isHandler x.event = true → SameLogs x.source x.target) ∧
    ¬ ∀ (n : ℕ) (s : NameServer n),
      (nameServerSystem n).Reachable unguarded s → SameRegistries s := by
  obtain ⟨history, s, hrun, x, hx, hrewrites, -⟩ := firstRegistration_run
  obtain ⟨hhandler, hlogs, hcopies⟩ := not_same_of_rewrites hrewrites
  obtain ⟨⟨before, hbefore⟩, hguard, hstep⟩ := hrun.of_mem hx
  exact ⟨fun hkeep => hlogs (hkeep 2 history s hrun x hx hhandler),
    fun hsame => hcopies (hsame 2 x.target ⟨_, hbefore.step hguard hstep⟩)⟩

end DreamboatRpc.Namesvr
