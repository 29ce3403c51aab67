import DreamboatRpc.Namesvr.Discovery
import DreamboatRpc.Namesvr.Expiry

/-!
# Where the contents of a registry come from

Handlers at all nodes overwrite each other's registries, leaders replace them by empty ones, and
messages are delayed and lost: a registration may disappear, or come back. But whatever the
nodes do, nothing in a registry is made up. Every service was registered for the server that is
said to provide it, every timestamp is that of a request of the server, and the usages are those
it has reported last, or none.

So a client is never sent to an address that has not registered for the service it asks for.

## Main definitions

* `Registers`, `Reports` — what a server says in a step
* `Vouched` — the history accounts for the record of a server

## Main results

* `holds_of_run` — what the handlers keep, given what happened so far, is true of all registries
* `registry_vouched` — the history accounts for all records, and for what is discovered
-/

namespace DreamboatRpc.Namesvr

open CS Raft

variable {n : ℕ}

/-! ## A rule for all registries -/

/-- The node at which a request is handled or the monitor passes. -/
def Action.node : Action n → Option (Fin n)
  | .raft _ => none
  | .register p _ _ _ _ | .heartbeat p _ _ _ _ _ | .monitorClients p _ => some p

/-- A handler submits what it makes of the registry it has read, or the cluster stays as it is. -/
theorem exec_update {s s' : NameServer n} {a : Action n} {p : Fin n} (hs : s.exec a = some s')
    (hnode : a.node = some p) :
    s'.cluster = s.cluster ∨ ∃ servers servers' owed, s.read p = some servers ∧
      a.update servers = some servers' ∧ s' = { s.submit p servers' with owed := owed } := by
  have hcall : ∀ {handle : Registry → Except String Registry} {owe : Owed → Owed},
      (s.call p handle owe).cluster = s.cluster ∨ ∃ servers servers' owed,
        s.read p = some servers ∧ (handle servers).toOption = some servers' ∧
          s.call p handle owe = { s.submit p servers' with owed := owed } := by
    intro handle owe
    unfold NameServer.call
    split
    · exact .inl rfl
    · rename_i servers hread
      split
      · exact .inl rfl
      · rename_i servers' hok
        exact .inr ⟨servers, servers', _, hread, by rw [hok]; rfl, rfl⟩
  cases a with
  | raft e => simp [Action.node] at hnode
  | register p' ip port serviceName now =>
    obtain rfl := Option.some.inj hnode
    obtain rfl := Option.some.inj hs
    exact hcall
  | heartbeat p' ip port cpuUsage memoryUsage now =>
    obtain rfl := Option.some.inj hnode
    obtain rfl := Option.some.inj hs
    exact hcall
  | monitorClients p' now =>
    obtain rfl := Option.some.inj hnode
    simp only [NameServer.exec] at hs
    split at hs
    · obtain rfl := Option.some.inj hs
      unfold NameServer.monitor
      split
      · exact .inl rfl
      · rename_i servers hread
        exact .inr ⟨servers, _, _, hread, rfl, rfl⟩
    · simp at hs

/-- What is true of the empty registry, stays true as things happen, and is kept by the handlers
is true of all registries, wherever they are. -/
theorem holds_of_run {P : List (NameServerStep n) → Registry → Prop}
    {history : List (NameServerStep n)} {s : NameServer n} (hempty : ∀ history, P history ∅)
    (hlater : ∀ x history servers, P history servers → P (x :: history) servers)
    (hupdate : ∀ x history p servers servers', x.event.node = some p →
      x.source.read p = some servers → x.event.update servers = some servers' →
      P history servers → P (x :: history) servers')
    (h : (nameServerSystem n).Run unguarded history s) :
    s.cluster.Holds fun e => P history e.entry.registry := by
  have hinv : Coherent s ∧ s.cluster.Holds fun e => P history e.entry.registry := by
    refine h.invariant (I := fun history s =>
      Coherent s ∧ s.cluster.Holds fun e => P history e.entry.registry) ?_ ?_
    · rintro _ rfl
      exact ⟨coherent (G := unguarded) ⟨[], .init rfl⟩, holds_init (hempty [])⟩
    · rintro history s a s' ⟨hs, hholds⟩ - hstep
      refine ⟨hs.exec hstep, ?_⟩
      have hbefore : s.cluster.Holds fun e => P (⟨s, a, s'⟩ :: history) e.entry.registry :=
        ⟨fun p e he => hlater _ _ _ (hholds.nodes p e he),
          fun p q packet hpacket e he => hlater _ _ _ (hholds.inflight p q packet hpacket e he)⟩
      cases hnode : a.node with
      | none =>
        cases a with
        | raft e =>
          simp only [nameServerSystem, TransitionSystem.ofExec_step, NameServer.exec] at hstep
          split at hstep
          · rename_i hthread
            obtain ⟨cluster, hcluster, rfl⟩ := Option.map_eq_some_iff.mp hstep
            exact holds_settle hbefore (hempty _) hs hthread hcluster
          · cases hstep
        | _ => simp [Action.node] at hnode
      | some p =>
        obtain hsame | ⟨servers, servers', owed, hread, hsome, hs'⟩ := exec_update hstep hnode
        · rw [hsame]
          exact hbefore
        · have hservers' := hupdate ⟨s, a, s'⟩ history p servers servers' hnode hread hsome
            (holds_read hholds hread)
          rw [hs'] at hservers' hbefore ⊢
          exact holds_submit hbefore hs hservers' p
  exact hinv.2

/-! ## Vouching for a record -/

/-- The server registers a service, with success. -/
def Registers (svrId : ServerId) (serviceName : String) (x : NameServerStep n) : Prop :=
  ∃ p now, x.event = .register p svrId.ip svrId.port serviceName now ∧
    heardFrom svrId x = some now

/-- The server reports its usages, with success; what it leaves out counts as `0`. -/
def Reports (svrId : ServerId) (cpuUsage memoryUsage : Load) (x : NameServerStep n) : Prop :=
  ∃ p cpu memory now, x.event = .heartbeat p svrId.ip svrId.port cpu memory now ∧
    heardFrom svrId x = some now ∧ cpu.getD 0 = cpuUsage ∧ memory.getD 0 = memoryUsage

/-- What the registry holds of a server was said by that server. -/
structure Vouched (history : List (NameServerStep n)) (svrId : ServerId) (svr : Server) :
    Prop where
  address : (⟨svr.ip, svr.port⟩ : ServerId) = svrId
  services : ∀ serviceName ∈ svr.services, ∃ x ∈ history, Registers svrId serviceName x
  heard : ∃ x ∈ history, heardFrom svrId x = some svr.aliveTimestamp
  usages : (svr.cpuUsage = 0 ∧ svr.memoryUsage = 0) ∨
    ∃ x ∈ history, Reports svrId svr.cpuUsage svr.memoryUsage x

/-- All records of a registry are vouched for. -/
def AllVouched (history : List (NameServerStep n)) (servers : Registry) : Prop :=
  ∀ svrId svr, servers.get? svrId = some svr → Vouched history svrId svr

section Vouched

variable {history : List (NameServerStep n)} {x : NameServerStep n} {servers servers' : Registry}
  {svrId : ServerId} {svr : Server}

theorem Vouched.later (h : Vouched history svrId svr) : Vouched (x :: history) svrId svr := by
  constructor
  case address => exact h.address
  case services =>
    intro serviceName hmem
    obtain ⟨y, hy, hregisters⟩ := h.services serviceName hmem
    exact ⟨y, List.mem_cons_of_mem _ hy, hregisters⟩
  case heard =>
    obtain ⟨y, hy, hheard⟩ := h.heard
    exact ⟨y, List.mem_cons_of_mem _ hy, hheard⟩
  case usages =>
    refine h.usages.imp_right fun hreported => ?_
    obtain ⟨y, hy, hreports⟩ := hreported
    exact ⟨y, List.mem_cons_of_mem _ hy, hreports⟩

/-- A monitor pass may take a server offline, which is not said by the server. -/
theorem Vouched.afterPass (h : Vouched history svrId svr) {now : ℚ} {svr' : Server}
    (hpass : afterPass now svr = some svr') : Vouched history svrId svr' := by
  unfold Namesvr.afterPass at hpass
  split at hpass
  · split at hpass
    · obtain rfl := Option.some.inj hpass
      exact ⟨h.address, h.services, h.heard, h.usages⟩
    · obtain rfl := Option.some.inj hpass
      exact h
  · split at hpass
    · simp at hpass
    · obtain rfl := Option.some.inj hpass
      exact h

/-- Setting the record of one server. -/
theorem AllVouched.set (h : AllVouched history servers) (hsvr : Vouched history svrId svr) :
    AllVouched history (servers.set svrId svr) := by
  intro j other hother
  rw [Dict.get?_set] at hother
  split at hother
  · rename_i hj
    obtain rfl := Option.some.inj hother
    exact hj ▸ hsvr
  · exact h j other hother

/-- What a handler makes of a registry is vouched for by what happened before, and by the request
it handles. -/
theorem AllVouched.update (h : AllVouched history servers) {p : Fin n}
    (hnode : x.event.node = some p) (hread : x.source.read p = some servers)
    (hupdate : x.event.update servers = some servers') :
    AllVouched (x :: history) servers' := by
  have hbefore : AllVouched (x :: history) servers :=
    fun svrId svr hsvr => (h svrId svr hsvr).later
  cases hevent : x.event with
  | raft e => simp [hevent, Action.node] at hnode
  | monitorClients p' now =>
    rw [hevent, Action.update, Option.some.injEq] at hupdate
    subst hupdate
    intro svrId svr hsvr
    rw [get?_monitorClients] at hsvr
    obtain ⟨svr₀, hsvr₀, hpass⟩ := Option.bind_eq_some_iff.mp hsvr
    exact (hbefore svrId svr₀ hsvr₀).afterPass hpass
  | register p' ip port serviceName now =>
    obtain rfl : p' = p := by simpa [hevent, Action.node] using hnode
    have hheard : heardFrom ⟨ip, port⟩ x = some now := by
      rw [hevent] at hupdate
      simp [heardFrom, hevent, Action.caller, hread, hupdate]
    rw [hevent] at hupdate
    rw [register_eq_ok (eq_ok_of_toOption hupdate)]
    have hregisters : ∃ y ∈ x :: history, Registers ⟨ip, port⟩ serviceName y :=
      ⟨x, List.mem_cons_self .., p', now, hevent, hheard⟩
    refine hbefore.set ?_
    cases hsvr : servers.get? ⟨ip, port⟩ with
    | none =>
      refine ⟨rfl, fun name hname => ?_, ⟨x, List.mem_cons_self .., hheard⟩, .inl ⟨rfl, rfl⟩⟩
      obtain rfl : name = serviceName := by simpa [newServer] using hname
      exact hregisters
    | some svr =>
      -- a server that registers again keeps what was known of it
      obtain ⟨haddress, hservices, -, husages⟩ := hbefore _ svr hsvr
      refine ⟨haddress, fun name hname => ?_, ⟨x, List.mem_cons_self .., hheard⟩, husages⟩
      rcases List.mem_append.mp hname with hold | hnew
      · exact hservices name hold
      · rw [List.mem_singleton.mp hnew]
        exact hregisters
  | heartbeat p' ip port cpuUsage memoryUsage now =>
    obtain rfl : p' = p := by simpa [hevent, Action.node] using hnode
    have hheard : heardFrom ⟨ip, port⟩ x = some now := by
      rw [hevent] at hupdate
      simp [heardFrom, hevent, Action.caller, hread, hupdate]
    rw [hevent] at hupdate
    obtain ⟨svr, hsvr, rfl⟩ := heartbeat_eq_ok (eq_ok_of_toOption hupdate)
    obtain ⟨haddress, hservices, -, -⟩ := hbefore _ svr hsvr
    refine hbefore.set ⟨haddress, hservices, ⟨x, List.mem_cons_self .., hheard⟩, .inr ?_⟩
    exact ⟨x, List.mem_cons_self .., p', cpuUsage, memoryUsage, now, hevent, hheard, rfl, rfl⟩

end Vouched

/-! ## The result -/

/-- Whatever leaders are elected, which requests are lost and which registries overwritten: all
that a node reads of a server was said by that server, and what `/discover` answers is the
address of a server that has registered the service. -/
theorem registry_vouched {history : List (NameServerStep n)} {s : NameServer n}
    (h : (nameServerSystem n).Run unguarded history s) {p : Fin n} {servers : Registry}
    (hread : s.read p = some servers) :
    AllVouched history servers ∧ ∀ callee found, discover (some callee) servers = .ok found →
      ∀ address ∈ found, ∃ x ∈ history, Registers ⟨address.1, address.2⟩ callee x := by
  have hholds : s.cluster.Holds fun e => AllVouched history e.entry.registry := by
    refine holds_of_run (fun _ svrId svr hsvr => ?_) (fun x history servers hall svrId svr hsvr =>
      (hall svrId svr hsvr).later) ?_ h
    · simp at hsvr
    · intro x history p servers servers' hnode hread hupdate hall
      exact hall.update hnode hread hupdate
  have hall : AllVouched history servers := holds_read hholds hread
  refine ⟨hall, fun callee found hfound address haddress => ?_⟩
  obtain ⟨message, herror, -⟩ | ⟨-, ⟨hnone, -⟩ | ⟨i, svrId, svr, hone, hentry, -, hfirst⟩⟩ :=
    discover_cases callee servers
  · rw [herror] at hfound
    cases hfound
  · obtain rfl := Except.ok.inj (hnone.symm.trans hfound)
    simp at haddress
  · obtain rfl := Except.ok.inj (hone.symm.trans hfound)
    obtain rfl := List.mem_singleton.mp haddress
    have hvouched := hall svrId svr (Dict.get?_of_mem_entries (List.mem_of_getElem? hentry))
    rw [hvouched.address]
    exact hvouched.services callee hfirst.lists

/-- Node `1` finds the one server that has registered at node `0`. -/
def findsEcho (s : NameServer 2) : Bool :=
  (s.read 1).any fun servers => discover (some "Echo") servers == .ok [("10.0.0.1", 9000)]

theorem registry_vouched_echo : ∃ (history : List (NameServerStep 2)),
    ∃ x ∈ history, Registers ⟨"10.0.0.1", 9000⟩ "Echo" x := by
  have hreplay : (replay NameServer.exec (fun _ _ => true) [] NameServer.init
      (inOffice ++ [.register 0 "10.0.0.1" 9000 "Echo" 0,
        .raft (.leader 0 false (fun _ => false) none), .raft (.follower 1 (some 0) false),
        .raft (.leader 0 false (fun _ => false) (some 1)), .raft (.follower 1 (some 0) false)])).any
      (fun r => findsEcho r.2) = true := by
    decide +kernel
  obtain ⟨history, s, hrun, htest⟩ := exists_run_of_replay (fun _ s => findsEcho s) hreplay
  obtain ⟨servers, hread, hfinds⟩ := (Option.any_eq_true ..).mp htest
  have hreach : (nameServerSystem 2).Run unguarded history s := hrun.mono fun _ _ _ => trivial
  exact ⟨history, (registry_vouched hreach hread).2 _ _ (eq_of_beq hfinds) _
    (List.mem_singleton_self _)⟩

end DreamboatRpc.Namesvr
