import DreamboatRpc.Namesvr.System
import DreamboatRpc.Raft.ElectionSafety

/-!
# When the registry keeps what was promised

Every handler submits the whole registry, as it was when it was read. So an update that
was submitted in the meantime is lost, unless the handler has read it. This file shows
that under a stable leader this is all that goes wrong: if every node that gets a request
has committed the registry that was requested last, and what is not in the log of the leader
yet was submitted at the same node, then all promises are kept once everything is committed
everywhere.

## Main definitions

* `underLeader` — one stable leader and no loss
* `lastRequest`, `hasLast` — the registry that was requested last, and which nodes have
  committed it
* `Settled` — everything submitted is committed everywhere

## Main results

* `registry_kept` — the registry keeps what was promised, if all requests come to such nodes
* `update_lost` — otherwise it may not
-/

namespace DreamboatRpc.Namesvr

open CS Raft

variable {n : ℕ}

/-! ## The conditions -/

/-- One stable leader, and no message is lost. -/
def underLeader (ℓ : Fin n) (s : NameServer n) : Action n → Bool
  | .raft e => stableLeader ℓ s.cluster e
  | _ => true

/-- No client request of node `q` waits, in its queue or on its way to the leader. -/
def nothingWaits (s : Cluster n Obj) (q : Fin n) : Bool :=
  (s.nodes q).clientQueue.isEmpty &&
    (List.finRange n).all fun r => (s.net q r).all fun packet => packet.message.request.isNone

/-- The registry that was requested last, if no request waits but those of node `p`: it is at the
end of the log of the leader, of what is on the way there, or of the queue of `p`. -/
def lastRequest (ℓ : Fin n) (s : Cluster n Obj) (p : Fin n) : Option Registry :=
  ((s.nodes ℓ).log ++ s.pending ℓ p).getLast?.map fun e => e.entry.registry

/-- No request of another node waits, and node `p` has committed what was requested last, or
what it has committed has become the same since. -/
def hasLast (ℓ : Fin n) (s : Cluster n Obj) (p : Fin n) : Bool :=
  ((List.finRange n).all fun q => q == p || nothingWaits s q) &&
    (s.nodes p).log[(s.nodes p).commitIndex]?.map (fun e => e.entry.registry) ==
      lastRequest ℓ s p

/-- Every call that succeeds, and every monitor pass, is made at a node that has committed what
was requested last, and the clock by which a server is registered is not behind its last
heartbeat. -/
def readsUpdates (ℓ : Fin n) (s : NameServer n) : Action n → Bool
  | .raft _ => true
  | .register p ip port serviceName now =>
    reply (register ip port serviceName now) (s.read p) != .success ||
      (hasLast ℓ s.cluster p && (s.read p).all fun servers =>
        (servers.get? ⟨ip, port⟩).all fun svr => decide (svr.aliveTimestamp ≤ now))
  | .heartbeat p ip port cpuUsage memoryUsage now =>
    reply (heartbeat ip port cpuUsage memoryUsage now) (s.read p) != .success ||
      hasLast ℓ s.cluster p
  | .monitorClients p _ => hasLast ℓ s.cluster p

/-- All client requests have been appended and committed everywhere. -/
def Settled (ℓ : Fin n) (s : NameServer n) : Prop :=
  (∀ q, nothingWaits s.cluster q = true) ∧
    ∀ p, (s.cluster.nodes p).log.length = (s.cluster.nodes ℓ).log.length ∧
      (s.cluster.nodes p).commitIndex + 1 = (s.cluster.nodes p).log.length

/-- The registry of every node keeps what was promised. -/
def RegistryKept (s : NameServer n) : Prop :=
  ∀ p, ∃ servers, s.read p = some servers ∧ s.owed.met servers = true

/-! ## The handlers keep promises -/

section Handlers

variable {owed : Owed} {servers servers' : Registry} {ip : String} {port : ℤ} {now : ℚ}

theorem register_met {serviceName : String} (hmet : owed.met servers = true)
    (hclock : ∀ svr, servers.get? ⟨ip, port⟩ = some svr → svr.aliveTimestamp ≤ now)
    (h : register ip port serviceName now servers = .ok servers') :
    (owed.register ⟨ip, port⟩ serviceName).met servers' = true := by
  rw [Owed.met_iff] at hmet ⊢
  rw [register_eq_ok h]
  obtain ⟨hservices, hheartbeats⟩ := hmet
  constructor
  · rintro ⟨svrId, name⟩ hx
    rcases List.mem_cons.mp hx with heq | hold
    · simp only [Prod.mk.injEq] at heq
      obtain ⟨rfl, rfl⟩ := heq
      exact ⟨_, Dict.get?_set_self, by simp⟩
    · obtain ⟨svr, hsvr, hname⟩ := hservices _ hold
      by_cases hid : svrId = ⟨ip, port⟩
      · subst hid
        -- a server that registers again keeps its services
        exact ⟨_, Dict.get?_set_self, by simp [hsvr, hname]⟩
      · exact ⟨svr, (Dict.get?_set_of_ne hid).trans hsvr, hname⟩
  · rintro ⟨svrId, time⟩ hx
    obtain ⟨svr, hsvr, htime⟩ := hheartbeats _ hx
    by_cases hid : svrId = ⟨ip, port⟩
    · subst hid
      exact ⟨_, Dict.get?_set_self, htime.trans (hclock svr hsvr)⟩
    · exact ⟨svr, (Dict.get?_set_of_ne hid).trans hsvr, htime⟩

theorem heartbeat_met {cpuUsage memoryUsage : Option Load} (hmet : owed.met servers = true)
    (h : heartbeat ip port cpuUsage memoryUsage now servers = .ok servers') :
    (owed.heartbeat ⟨ip, port⟩ now).met servers' = true := by
  rw [Owed.met_iff] at hmet ⊢
  obtain ⟨svr, hsvr, rfl⟩ := heartbeat_eq_ok h
  obtain ⟨hservices, hheartbeats⟩ := hmet
  constructor
  · rintro ⟨svrId, name⟩ hx
    obtain ⟨svr', hsvr', hname⟩ := hservices _ hx
    by_cases hid : svrId = ⟨ip, port⟩
    · subst hid
      rw [hsvr, Option.some.injEq] at hsvr'
      subst hsvr'
      exact ⟨_, Dict.get?_set_self, hname⟩
    · exact ⟨svr', (Dict.get?_set_of_ne hid).trans hsvr', hname⟩
  · rintro ⟨svrId, time⟩ hx
    rcases List.mem_cons.mp hx with heq | hold
    · simp only [Prod.mk.injEq] at heq
      obtain ⟨rfl, rfl⟩ := heq
      exact ⟨_, Dict.get?_set_self, le_rfl⟩
    · -- an earlier heartbeat of the same server is no longer owed
      obtain ⟨hold, hid⟩ := List.mem_filter.mp hold
      have hne : svrId ≠ ⟨ip, port⟩ := by simpa using hid
      obtain ⟨svr', hsvr', htime⟩ := hheartbeats _ hold
      exact ⟨svr', (Dict.get?_set_of_ne hne).trans hsvr', htime⟩

/-- A monitor pass keeps the promises to the servers it does not remove. -/
theorem monitorClients_met (hmet : owed.met servers = true) :
    (owed.monitor servers (monitorClients now servers)).met (monitorClients now servers) =
      true := by
  rw [Owed.met_iff] at hmet ⊢
  obtain ⟨hservices, hheartbeats⟩ := hmet
  have hstays : ∀ {svrId svr}, servers.get? svrId = some svr →
      ((servers.get? svrId).isNone || ((monitorClients now servers).get? svrId).isSome) = true →
      ∃ svr', (monitorClients now servers).get? svrId = some svr' ∧
        svr'.services = svr.services ∧ svr'.aliveTimestamp = svr.aliveTimestamp := by
    intro svrId svr hsvr hkept
    -- what is removed is not owed any more
    rcases monitorClients_get? now servers svrId with hgone | ⟨svr₀, svr', h₀, h', hs, ht⟩
    · simp [hsvr, hgone] at hkept
    · rw [hsvr, Option.some.injEq] at h₀
      subst h₀
      exact ⟨svr', h', hs, ht⟩
  constructor
  · intro x hx
    obtain ⟨hx, hkept⟩ := List.mem_filter.mp hx
    obtain ⟨svr, hsvr, hname⟩ := hservices x hx
    obtain ⟨svr', hsvr', hs, -⟩ := hstays hsvr hkept
    exact ⟨svr', hsvr', by rwa [hs]⟩
  · intro x hx
    obtain ⟨hx, hkept⟩ := List.mem_filter.mp hx
    obtain ⟨svr, hsvr, htime⟩ := hheartbeats x hx
    obtain ⟨svr', hsvr', -, ht⟩ := hstays hsvr hkept
    exact ⟨svr', hsvr', by rwa [ht]⟩

end Handlers

/-! ## The invariant -/

/-- What a registry at place `i` of the log keeps: the entry at place `i` is that of the
submission `i - 1`, and its value keeps what was promised after that submission or a later
one of `K`. -/
def Covers (owed : ℕ → Owed) (K i : ℕ) (o : Obj) : Prop :=
  2 ≤ i → ∃ m, i ≤ m + 1 ∧ m ≤ K ∧ (owed m).met o.registry = true

/-- After `K` submissions every value in the cluster keeps what was promised when it was
submitted. -/
structure Kept (ℓ : Fin n) (s : NameServer n) (owed : ℕ → Owed) (K : ℕ) : Prop where
  ready : s.cluster.Ready
  drained : s.cluster.Drained
  lineup : Lineup (Covers owed K) ℓ K [] s.cluster
  first : owed 0 = .nothing
  last : owed K = s.owed

namespace Kept

variable {ℓ p : Fin n} {s s' : NameServer n} {owed : ℕ → Owed} {K : ℕ}

theorem init (ℓ : Fin n) : Kept ℓ NameServer.init (fun _ => .nothing) 0 := by
  have hdrained : (Cluster.init : Cluster n Obj).Drained := fun _ => rfl
  have hstart : Lineup (Covers (fun _ => .nothing) 0) ℓ 0 [] (Cluster.init : Cluster n Obj) :=
    lineup_init (by simp [Covers])
  constructor
  case ready => exact Cluster.ready_init.revalue
  case drained => exact hdrained.revalue
  case lineup =>
    refine hstart.revalue hdrained (fun _ i v hv => ?_) (fun i v hv => ?_)
    · simpa [Covers] using hv
    · simpa [Covers] using hv
  case first => rfl
  case last => rfl

/-- A step of the threads. -/
theorem raft (h : Kept ℓ s owed K) {e : Event n Obj} {cluster : Cluster n Obj}
    (hs : s.cluster.exec e = some cluster) (hthread : isThread e = true)
    (hguard : stableLeader ℓ s.cluster e = true) : Kept ℓ (s.settle cluster) owed K := by
  have hdrained : cluster.Drained := h.drained.exec hs
  have hclient : ∀ p value idNum, e ≠ .clientRequest p value idNum := by
    rintro p value idNum rfl
    simp [isThread] at hthread
  have hstep : Lineup (Covers owed K) ℓ K [] cluster :=
    h.lineup.exec h.ready (by simp [Covers]) hs hguard hclient
  constructor
  case ready => exact (h.ready.exec hs).revalue
  case drained => exact hdrained.revalue
  case lineup =>
    refine hstep.revalue hdrained (fun _ i v hv => ?_) (fun i v hv => ?_)
    · simpa [Covers] using hv
    · simpa [Covers] using hv
  case first => exact h.first
  case last => exact h.last

theorem pending_eq_nil (h : s.cluster.Drained) {q : Fin n}
    (hq : nothingWaits s.cluster q = true) : s.cluster.pending ℓ q = [] := by
  simp only [nothingWaits, Bool.and_eq_true, List.isEmpty_iff, List.all_eq_true,
    Option.isNone_iff_eq_none] at hq
  rw [Cluster.pending, hq.1, List.append_nil, Cluster.inflight, h q, FifoNetwork.addressedTo_nil,
    List.append_nil, List.filterMap_eq_nil_iff]
  exact hq.2 ℓ (List.mem_finRange ℓ)

/-- A submission that keeps all promises. -/
theorem submit (h : Kept ℓ s owed K) {servers servers' : Registry} {owed' : Owed}
    (hread : s.read p = some servers)
    (hothers : ∀ q, q ≠ p → nothingWaits s.cluster q = true)
    (hmet : owed'.met servers' = true) :
    Kept ℓ { s.submit p servers' with owed := owed' } (Function.update owed (K + 1) owed')
      (K + 1) := by
  obtain ⟨o, ho, -⟩ := Option.map_eq_some_iff.mp hread
  simp only [NameServer.submit, ho]
  set cluster := s.cluster.revalue
    (fun q => if q = p then Obj.overwrite o.address servers' else id) id with hcluster
  -- what was owed after the earlier submissions is still on record
  have hkeep : ∀ i v, Covers owed K i v →
      Covers (Function.update owed (K + 1) owed') (K + 1) i v := by
    intro i v hv hi
    -- of the earlier submissions the same is owed as before
    obtain ⟨m, him, hmK, hm⟩ := hv hi
    exact ⟨m, him, by omega, by rwa [Function.update_of_ne (by omega)]⟩
  have hdrained : cluster.Drained := h.drained.revalue
  have hvalues : Lineup (Covers (Function.update owed (K + 1) owed') (K + 1)) ℓ K [] cluster := by
    refine h.lineup.revalue h.drained (fun q i v hv => ?_) hkeep
    split
    · unfold Obj.overwrite
      split
      · -- the value written keeps even what was promised last
        intro hi
        obtain ⟨m, him, hmK, -⟩ := hv hi
        exact ⟨K + 1, by omega, le_rfl, by rwa [Function.update_self]⟩
      · exact hkeep i v hv
    · exact hkeep i v hv
  -- the requests of the other nodes are all in the log, so that this one comes next
  have hpending : ∀ q, q ≠ p → cluster.pending ℓ q = [] := by
    intro q hq
    rw [← List.length_eq_zero_iff, hcluster, length_pending_revalue h.drained,
      pending_eq_nil h.drained (hothers q hq)]
    rfl
  constructor
  case ready =>
    have hready : cluster.Ready := h.ready.revalue
    exact hready.setNode ((hready p).congr rfl rfl)
  case drained =>
    refine Cluster.forall_setNode (Q := fun _ x => x.talker = []) ?_ hdrained
    exact hdrained p
  case lineup =>
    apply hvalues.submit _ _ hpending
    exact fun _ => ⟨K + 1, le_rfl, le_rfl, by rwa [Function.update_self]⟩
  case first => rw [Function.update_of_ne (by omega), h.first]
  case last => rw [Function.update_self]

/-- A node that has committed what was requested last reads a registry that keeps all promises. -/
theorem met_of_hasLast (h : Kept ℓ s owed K) (hlast : hasLast ℓ s.cluster p = true)
    {servers : Registry} (hread : s.read p = some servers) :
    (∀ q, q ≠ p → nothingWaits s.cluster q = true) ∧ s.owed.met servers = true := by
  simp only [hasLast, Bool.and_eq_true, List.all_eq_true, List.mem_finRange, forall_const,
    Bool.or_eq_true, beq_iff_eq] at hlast
  obtain ⟨hwaits, hsame⟩ := hlast
  have hothers : ∀ q, q ≠ p → nothingWaits s.cluster q = true :=
    fun q hq => (hwaits q).resolve_left hq
  refine ⟨hothers, ?_⟩
  obtain ⟨o, ho, rfl⟩ := Option.map_eq_some_iff.mp hread
  obtain ⟨e, he, rfl⟩ := Option.map_eq_some_iff.mp ho
  rw [he, lastRequest, Option.map_some, eq_comm, Option.map_eq_some_iff] at hsame
  obtain ⟨last, hlast, hregistry⟩ := hsame
  rcases Nat.eq_zero_or_pos K with rfl | hpos
  · -- nothing was requested yet, so nothing is owed
    rw [← h.last, h.first]
    rfl
  · -- the last request is that of the last submission, which kept everything
    have hplace := h.lineup.last_of_others
      (fun q hq => pending_eq_nil h.drained (hothers q hq)) hpos hlast
    obtain ⟨m, him, hmK, hmet⟩ := hplace (by omega)
    have hm : m = K := by omega
    rw [← hregistry, ← h.last, ← hm]
    exact hmet

/-- A call keeps the invariant, if its handler keeps all promises. -/
theorem call (h : Kept ℓ s owed K) {handle : Registry → Except String Registry}
    {owe : Owed → Owed}
    (hlast : reply handle (s.read p) = .success → hasLast ℓ s.cluster p = true)
    (hmet : ∀ servers servers', s.read p = some servers → handle servers = .ok servers' →
      s.owed.met servers = true → (owe s.owed).met servers' = true) :
    ∃ owed' K', Kept ℓ (s.call p handle owe) owed' K' := by
  unfold NameServer.call
  cases hread : s.read p with
  | none => exact ⟨owed, K, h⟩
  | some servers =>
    cases hhandle : handle servers with
    | error message => simpa [hhandle] using ⟨owed, K, h⟩
    | ok servers' =>
      -- so the handler has read what keeps all promises, and adds its own
      obtain ⟨hothers, hlatest⟩ := h.met_of_hasLast (hlast (by simp [reply, hread, hhandle])) hread
      simp only [hhandle]
      exact ⟨_, _, h.submit hread hothers (hmet servers servers' hread hhandle hlatest)⟩

/-- Every action keeps the invariant, if it is taken where the last request is committed. -/
theorem exec (h : Kept ℓ s owed K) {a : Action n} (hs : s.exec a = some s')
    (hleader : underLeader ℓ s a = true) (hreads : readsUpdates ℓ s a = true) :
    ∃ owed' K', Kept ℓ s' owed' K' := by
  cases a with
  | raft e =>
    simp only [NameServer.exec] at hs
    split at hs
    · rename_i hthread
      obtain ⟨cluster, hcluster, rfl⟩ := Option.map_eq_some_iff.mp hs
      exact ⟨owed, K, h.raft hcluster hthread hleader⟩
    · simp at hs
  | register p ip port serviceName now =>
    simp only [NameServer.exec, Option.some.injEq] at hs
    subst hs
    simp only [readsUpdates, Bool.or_eq_true, bne_iff_ne, ne_eq, Bool.and_eq_true] at hreads
    refine h.call (fun hreply => ?_) (fun servers servers' hread hhandle hmet => ?_)
    · exact (hreads.resolve_left (by simp [hreply])).1
    · have hclock := (hreads.resolve_left (by simp [reply, hread, hhandle])).2
      refine register_met hmet (fun svr hsvr => ?_) hhandle
      simpa [hread, hsvr] using hclock
  | heartbeat p ip port cpuUsage memoryUsage now =>
    simp only [NameServer.exec, Option.some.injEq] at hs
    subst hs
    simp only [readsUpdates, Bool.or_eq_true, bne_iff_ne, ne_eq] at hreads
    refine h.call (fun hreply => ?_) (fun servers servers' _ hhandle hmet => ?_)
    · exact hreads.resolve_left (by simp [hreply])
    · exact heartbeat_met hmet hhandle
  | monitorClients p now =>
    simp only [NameServer.exec] at hs
    split at hs
    · simp only [Option.some.injEq] at hs
      subst hs
      unfold NameServer.monitor
      cases hread : s.read p with
      | none => exact ⟨owed, K, h.ready, h.drained, h.lineup, h.first, h.last⟩
      | some servers =>
        obtain ⟨hothers, hlatest⟩ := h.met_of_hasLast hreads hread
        exact ⟨_, _, h.submit hread hothers (monitorClients_met hlatest)⟩
    · simp at hs

/-- When all is settled, every registry keeps what was promised last. -/
theorem registryKept (h : Kept ℓ s owed K) (hsettled : Settled ℓ s) : RegistryKept s := by
  obtain ⟨hnothing, hcommitted⟩ := hsettled
  have hlength := h.lineup.length_log fun q => pending_eq_nil h.drained (hnothing q)
  intro p
  obtain ⟨hsame, hcommit⟩ := hcommitted p
  obtain ⟨e, he⟩ : ∃ e, (s.cluster.nodes p).log[(s.cluster.nodes p).commitIndex]? = some e :=
    ⟨_, List.getElem?_eq_getElem (by omega)⟩
  refine ⟨e.entry.registry, by simp [NameServer.read, Node.checkCommittedEntry, he], ?_⟩
  rcases Nat.eq_zero_or_pos K with rfl | hpos
  · rw [← h.last, h.first]
    rfl
  · -- the committed entry is that of the last submission
    have hplace := h.lineup.stored p _ e he
    obtain ⟨m, him, hmK, hmet⟩ := hplace (by omega)
    have hm : m = K := by omega
    rw [← h.last, ← hm]
    exact hmet

end Kept

/-! ## The result -/

/-- Under a stable leader the registry keeps what was promised, if every handler is called at a
node that has committed what was requested last. -/
theorem registry_kept {ℓ : Fin n} {s : NameServer n}
    (h : (nameServerSystem n).Reachable
      (fun s a => (underLeader ℓ s a && readsUpdates ℓ s a) = true) s)
    (hsettled : Settled ℓ s) : RegistryKept s := by
  have hinv : ∃ x : (ℕ → Owed) × ℕ, Kept ℓ s x.1 x.2 := by
    refine TransitionSystem.Reachable.ghost
      (I := fun s (x : (ℕ → Owed) × ℕ) => Kept ℓ s x.1 x.2) ?_ ?_ h
    · rintro _ rfl
      exact ⟨(_, _), Kept.init ℓ⟩
    · rintro s ⟨owed, K⟩ a s' hkept hguard hstep
      rw [Bool.and_eq_true] at hguard
      obtain ⟨owed', K', hkept'⟩ := hkept.exec hstep hguard.1 hguard.2
      exact ⟨(owed', K'), hkept'⟩
  obtain ⟨⟨owed, K⟩, hkept⟩ := hinv
  exact hkept.registryKept hsettled

instance (ℓ : Fin n) (s : NameServer n) : Decidable (Settled ℓ s) :=
  inferInstanceAs (Decidable (_ ∧ _))

/-- Node `0` of two takes office, and its first entry is committed on both. -/
def inOffice : List (Action 2) := wonElection.map .raft ++
  [.raft (.run 0), .raft (.follower 1 (some 0) false), .raft (.follower 1 (some 0) false),
    .raft (.leader 0 false (fun _ => false) (some 1)), .raft (.follower 1 (some 0) false)]

/-- All is settled, and `k` services were registered with success. -/
def settledWith (k : ℕ) (s : NameServer 2) : Bool :=
  decide (Settled 0 s) && s.owed.services.length == k

/-- Two servers register at the leader, one right after the other, which also makes a monitor
pass; and when that is committed another one registers at the follower. -/
theorem registry_kept_inTurn : ∃ s : NameServer 2, settledWith 3 s ∧ RegistryKept s := by
  have hreplay : (replay NameServer.exec (fun s a => underLeader 0 s a && readsUpdates 0 s a) []
      NameServer.init (inOffice ++ [.register 0 "a" 1 "s" 0, .register 0 "c" 3 "s" 0,
        .raft (.leader 0 false (fun _ => false) none), .monitorClients 0 1,
        .raft (.follower 1 (some 0) false), .raft (.leader 0 false (fun _ => false) (some 1)),
        .raft (.follower 1 (some 0) false), .raft (.follower 1 (some 0) false),
        .raft (.leader 0 false (fun _ => false) (some 1)),
        .raft (.follower 1 (some 0) false), .raft (.follower 1 (some 0) false),
        .raft (.leader 0 false (fun _ => false) (some 1)), .raft (.follower 1 (some 0) false),
        .register 1 "b" 2 "t" 1, .raft (.leader 0 true (fun _ => false) none),
        .raft (.follower 1 (some 0) false), .raft (.leader 0 false (fun _ => false) (some 1)),
        .raft (.follower 1 (some 0) false), .raft (.leader 0 false (fun _ => false) (some 1)),
        .raft (.follower 1 (some 0) false)])).any (fun r => settledWith 3 r.2) = true := by
    decide +kernel
  obtain ⟨history, s, hrun, htest⟩ := exists_run_of_replay (fun _ s => settledWith 3 s) hreplay
  refine ⟨s, htest, registry_kept (ℓ := 0) ⟨history, hrun⟩ ?_⟩
  simp only [settledWith, Bool.and_eq_true, decide_eq_true_eq] at htest
  exact htest.1

/-- Some promise is not kept at node `0`. -/
def breaksPromise (s : NameServer 2) : Bool :=
  decide (Settled 0 s) && (s.read 0).all fun servers => !s.owed.met servers

/-- A server registers at the leader and another one at the follower, which has not read the
first registration. The second registry replaces the first. -/
theorem update_lost :
    ¬ ∀ (n : ℕ) (ℓ : Fin n) (s : NameServer n),
      (nameServerSystem n).Reachable (fun s a => underLeader ℓ s a = true) s →
        Settled ℓ s → RegistryKept s := by
  intro hkept
  have hreplay : (replay NameServer.exec (underLeader 0) [] NameServer.init
      (inOffice ++ [.register 0 "a" 1 "s" 0, .register 1 "b" 2 "t" 1,
        .raft (.leader 0 true (fun _ => false) none), .raft (.follower 1 (some 0) false),
        .raft (.follower 1 (some 0) false), .raft (.leader 0 false (fun _ => false) (some 1)),
        .raft (.leader 0 false (fun _ => false) (some 1)), .raft (.follower 1 (some 0) false),
        .raft (.follower 1 (some 0) false), .raft (.leader 0 false (fun _ => false) (some 1)),
        .raft (.follower 1 (some 0) false)])).any (fun r => breaksPromise r.2) = true := by
    decide +kernel
  obtain ⟨history, s, hrun, htest⟩ := exists_run_of_replay (fun _ s => breaksPromise s) hreplay
  simp only [breaksPromise, Bool.and_eq_true, decide_eq_true_eq] at htest
  obtain ⟨hsettled, hbroken⟩ := htest
  obtain ⟨servers, hread, hmet⟩ := hkept 2 0 s ⟨history, hrun⟩ hsettled 0
  simp [hread, hmet] at hbroken

end DreamboatRpc.Namesvr
