import Mathlib.Algebra.Order.Ring.Rat
import DreamboatRpc.CS.Dict
import DreamboatRpc.Namesvr.Load

/-!
# The registry of servers

The value the name server replicates, and what the handlers of `run_node.py` do with
it. A handler reads the committed registry, changes it and submits all of it; here it
is a function from the registry it read to the one it submits, or to the message of the
error it answers.

## Main results

* `register_eq_ok`, `heartbeat_eq_ok` — when the handlers succeed, and what they submit
* `monitorClients_get?` — a monitor pass removes servers or changes their status
* `register_keeps_iff`, `heartbeat_keeps_iff`, `monitorClients_eq_self_iff` — when they
  leave the registry as it is
-/

namespace DreamboatRpc.Namesvr

open CS

/-- `f"{ip}:{port}"`, the key of a server. The port is a number, so the two can be read
back from the text. -/
structure ServerId where
  ip : String
  port : ℤ
  deriving DecidableEq, Repr

/-- `'ONLINE'` and `'OFFLINE'` -/
inductive Status
  | online
  | offline
  deriving DecidableEq, Repr

/-- What the registry holds of a server. -/
structure Server where
  ip : String
  port : ℤ
  services : List String
  aliveTimestamp : ℚ
  status : Status
  cpuUsage : Load
  memoryUsage : Load
  deriving DecidableEq, Repr

/-- The committed value. -/
abbrev Registry := Dict ServerId Server

/-- `MAX_INACTIVITY_TIME` -/
def maxInactivityTime : ℚ := 30

/-- `MAX_OFFLINE_TIME` -/
def maxOfflineTime : ℚ := 30

/-! ## Handlers -/

/-- The record `register_endpoint` makes of a server it does not know. -/
def newServer (ip : String) (port : ℤ) (now : ℚ) : Server where
  ip := ip
  port := port
  services := []
  aliveTimestamp := now
  status := .online
  cpuUsage := 0
  memoryUsage := 0

/-- `register_endpoint` -/
def register (ip : String) (port : ℤ) (serviceName : String) (now : ℚ) (servers : Registry) :
    Except String Registry :=
  let svrId : ServerId := ⟨ip, port⟩
  -- a new record has no service, so nothing has changed where the error is answered
  let svr := (servers.get? svrId).getD (newServer ip port now)
  if serviceName ∈ svr.services then
    .error s!"Duplicate service {serviceName} on {ip}:{port}"
  else
    .ok (servers.set svrId
      { svr with
        services := svr.services ++ [serviceName], aliveTimestamp := now, status := .online })

/-- The message of `heartbeat_endpoint` to a server that is not in the registry. -/
def notRegistered : String := "not-registered."

/-- `heartbeat_endpoint` -/
def heartbeat (ip : String) (port : ℤ) (cpuUsage memoryUsage : Option Load) (now : ℚ)
    (servers : Registry) : Except String Registry :=
  let svrId : ServerId := ⟨ip, port⟩
  match servers.get? svrId with
  | none => .error notRegistered
  | some svr =>
    .ok (servers.set svrId
      { svr with
        aliveTimestamp := now, status := .online
        cpuUsage := cpuUsage.getD 0, memoryUsage := memoryUsage.getD 0 })

/-- The body of the loop of `monitor_clients`. -/
def monitorServer (now : ℚ) (servers : Registry) (svrId : ServerId) : Registry :=
  match servers.get? svrId with
  | none => servers
  | some svr =>
    match svr.status with
    | .online =>
      if now - svr.aliveTimestamp > maxInactivityTime then
        servers.set svrId { svr with status := .offline }
      else servers
    | .offline =>
      if now - svr.aliveTimestamp > maxInactivityTime + maxOfflineTime then servers.pop svrId
      else servers

/-- One pass of `monitor_clients` -/
def monitorClients (now : ℚ) (servers : Registry) : Registry :=
  servers.keys.foldl (monitorServer now) servers

/-- The body of the loop of `discover_endpoint`: `best_svr` with `best_load`, which is infinite as
long as there is none. -/
def betterServer (callee : String) (best : Option (Server × Extended)) (svr : Server) :
    Except String (Option (Server × Extended)) :=
  if callee ∈ svr.services then do
    let totalLoad ← svr.cpuUsage.add svr.memoryUsage
    let bestLoad := best.elim ⊤ Prod.snd
    return if totalLoad < bestLoad then some (svr, totalLoad) else best
  else .ok best

/-- `discover_endpoint`: the address of the least loaded server of a service, if there is
one. The other error than that of a request without a `callee` is an exception. -/
def discover (callee : Option String) (servers : Registry) :
    Except String (List (String × ℤ)) :=
  match callee with
  | none => .error "'callee' parameter is required."
  | some callee => do
    let best ← (servers.entries.map Prod.snd).foldlM (betterServer callee) none
    return best.toList.map fun (svr, _) => (svr.ip, svr.port)

/-! ## Answers -/

/-- The answer of an endpoint: success, an error with its message, or the error a server
makes of an exception. -/
inductive Answer
  | success
  | error (message : String)
  | internalError
  deriving DecidableEq, Repr

/-- The HTTP status of an answer. -/
def Answer.code : Answer → ℕ
  | .success => 200
  | .error _ => 400
  | .internalError => 500

/-- `ServiceReporter::SendHeartbeat`, when the request is answered at all. -/
def sendHeartbeat (answer : Answer) : Bool := answer.code == 200

/-- A process of an RPC server. -/
inductive ServerProcess
  | running
  | exited (status : ℕ)
  deriving DecidableEq, Repr

/-- One round of the heartbeat thread of `RpcServer::Main`. -/
def heartbeatRound (answer : Answer) : ServerProcess :=
  if sendHeartbeat answer then .running else .exited 1

/-! ## What the handlers submit -/

variable {servers servers' : Registry} {ip : String} {port : ℤ} {now : ℚ}

theorem register_eq_ok {serviceName : String}
    (h : register ip port serviceName now servers = .ok servers') :
    servers' = servers.set ⟨ip, port⟩
      { (servers.get? ⟨ip, port⟩).getD (newServer ip port now) with
        services := ((servers.get? ⟨ip, port⟩).getD (newServer ip port now)).services ++
          [serviceName]
        aliveTimestamp := now, status := .online } := by
  simp only [register] at h
  split at h
  · exact absurd h (by simp)
  · simpa using h.symm

theorem heartbeat_eq_ok {cpuUsage memoryUsage : Option Load}
    (h : heartbeat ip port cpuUsage memoryUsage now servers = .ok servers') :
    ∃ svr, servers.get? ⟨ip, port⟩ = some svr ∧
      servers' = servers.set ⟨ip, port⟩
        { svr with
          aliveTimestamp := now, status := .online
          cpuUsage := cpuUsage.getD 0, memoryUsage := memoryUsage.getD 0 } := by
  simp only [heartbeat] at h
  split at h
  · exact absurd h (by simp)
  · rename_i svr hsvr
    exact ⟨svr, hsvr, by simpa using h.symm⟩

/-- A heartbeat is refused exactly if the server is not in the registry. -/
theorem heartbeat_eq_error_iff {cpuUsage memoryUsage : Option Load} {message : String} :
    heartbeat ip port cpuUsage memoryUsage now servers = .error message ↔
      servers.get? ⟨ip, port⟩ = none ∧ message = notRegistered := by
  simp only [heartbeat]
  split
  · rename_i hnone
    simp [hnone, eq_comm]
  · rename_i svr hsvr
    simp [hsvr]

/-- A server after monitor passes: removed, or with the services and the timestamp it had. -/
def Monitored (before after : Option Server) : Prop :=
  after = none ∨ ∃ svr svr', before = some svr ∧ after = some svr' ∧
    svr'.services = svr.services ∧ svr'.aliveTimestamp = svr.aliveTimestamp

theorem Monitored.refl (svr : Option Server) : Monitored svr svr := by
  cases svr with
  | none => exact .inl rfl
  | some svr => exact .inr ⟨svr, svr, rfl, rfl, rfl, rfl⟩

/-- What a monitor pass leaves of a server. -/
def afterPass (now : ℚ) (svr : Server) : Option Server :=
  match svr.status with
  | .online =>
    if now - svr.aliveTimestamp > maxInactivityTime then some { svr with status := .offline }
    else some svr
  | .offline =>
    if now - svr.aliveTimestamp > maxInactivityTime + maxOfflineTime then none else some svr

theorem afterPass_monitored (now : ℚ) (svr : Server) :
    Monitored (some svr) (afterPass now svr) := by
  unfold afterPass
  split
  · split
    · exact .inr ⟨svr, _, rfl, rfl, rfl, rfl⟩
    · exact .refl _
  · split
    · exact .inl rfl
    · exact .refl _

theorem monitorServer_get? (now : ℚ) (servers : Registry) (svrId k : ServerId) :
    (monitorServer now servers svrId).get? k =
      if k = svrId then (servers.get? k).bind (afterPass now) else servers.get? k := by
  unfold monitorServer
  split
  · rename_i hnone
    split
    · rename_i hk
      rw [hk, hnone]
      rfl
    · rfl
  · rename_i svr hsvr
    have hself : ∀ after : Registry, after.get? svrId = afterPass now svr →
        (∀ j, j ≠ svrId → after.get? j = servers.get? j) →
        after.get? k = if k = svrId then (servers.get? k).bind (afterPass now)
          else servers.get? k := by
      intro after hid hother
      split
      · rename_i hk
        rw [hk, hid, hsvr, Option.bind_some]
      · exact hother k ‹_›
    split
    · rename_i hstatus
      split
      · rename_i hlate
        refine hself _ ?_ fun j hj => Dict.get?_set_of_ne hj
        simp [afterPass, hstatus, hlate]
      · rename_i hlate
        refine hself _ ?_ fun _ _ => rfl
        simp [afterPass, hstatus, hlate, hsvr]
    · rename_i hstatus
      split
      · rename_i hlate
        refine hself _ ?_ fun j hj => by rw [Dict.get?_pop, if_neg hj]
        simp [afterPass, hstatus, hlate, Dict.get?_pop]
      · rename_i hlate
        refine hself _ ?_ fun _ _ => rfl
        simp [afterPass, hstatus, hlate, hsvr]

/-- The pass comes to every server once. -/
theorem monitorServer_foldl_get? (now : ℚ) {l : List ServerId} (hl : l.Nodup)
    (servers : Registry) (k : ServerId) :
    (l.foldl (monitorServer now) servers).get? k =
      if k ∈ l then (servers.get? k).bind (afterPass now) else servers.get? k := by
  induction l generalizing servers with
  | nil => simp
  | cons svrId rest ih =>
    obtain ⟨hout, hrest⟩ := List.nodup_cons.mp hl
    rw [List.foldl_cons, ih hrest, monitorServer_get?]
    by_cases hk : k = svrId
    · subst hk
      rw [if_neg hout, if_pos rfl, if_pos (List.mem_cons_self ..)]
    · rw [if_neg hk]
      simp [hk]

theorem get?_monitorClients (now : ℚ) (servers : Registry) (k : ServerId) :
    (monitorClients now servers).get? k = (servers.get? k).bind (afterPass now) := by
  have hnodup : servers.keys.Nodup := servers.nodup
  rw [monitorClients, monitorServer_foldl_get? now hnodup]
  split
  · rfl
  · rename_i hout
    have hnone : servers.get? k = none := not_not.mp fun hne => hout (Dict.mem_keys_iff.mpr hne)
    rw [hnone]
    rfl

/-- A monitor pass removes servers or changes their status, and nothing else. -/
theorem monitorClients_get? (now : ℚ) (servers : Registry) (k : ServerId) :
    Monitored (servers.get? k) ((monitorClients now servers).get? k) := by
  rw [get?_monitorClients]
  cases servers.get? k with
  | none => exact .inl rfl
  | some svr => exact afterPass_monitored now svr

/-! ## When a handler changes nothing -/

/-- A `/register` changes nothing exactly if it is answered that the service is a
duplicate. -/
theorem register_keeps_iff {serviceName : String} :
    (∀ servers', register ip port serviceName now servers = .ok servers' → servers' = servers) ↔
      ∃ svr, servers.get? ⟨ip, port⟩ = some svr ∧ serviceName ∈ svr.services := by
  constructor
  · intro hkeeps
    by_cases hdup : serviceName ∈
        ((servers.get? ⟨ip, port⟩).getD (newServer ip port now)).services
    · cases hold : servers.get? ⟨ip, port⟩ with
      | none => simp [hold, newServer] at hdup
      | some svr => exact ⟨svr, rfl, by simpa [hold] using hdup⟩
    · -- the list of its services gets longer
      have hsame := hkeeps _ (by simp only [register, if_neg hdup]; rfl)
      rw [Dict.set_eq_self_iff] at hsame
      have hlength := congrArg (fun svr => svr.map fun svr => svr.services.length) hsame
      cases hold : servers.get? ⟨ip, port⟩ with
      | none => simp [hold] at hlength
      | some svr => simp [hold] at hlength
  · rintro ⟨svr, hsvr, hdup⟩ servers' h
    have hrefused : serviceName ∈
        ((servers.get? ⟨ip, port⟩).getD (newServer ip port now)).services := by
      simpa [hsvr] using hdup
    simp [register, hrefused] at h

/-- The server has just sent the same heartbeat. -/
def repeats (cpuUsage memoryUsage : Option Load) (now : ℚ) (svr : Server) : Bool :=
  decide (svr.aliveTimestamp = now ∧ svr.status = .online ∧ svr.cpuUsage = cpuUsage.getD 0 ∧
    svr.memoryUsage = memoryUsage.getD 0)

/-- A `/heartbeat` changes nothing exactly if the server is not registered, or has just sent
the same. -/
theorem heartbeat_keeps_iff {cpuUsage memoryUsage : Option Load} :
    (∀ servers', heartbeat ip port cpuUsage memoryUsage now servers = .ok servers' →
      servers' = servers) ↔
    ∀ svr, servers.get? ⟨ip, port⟩ = some svr → repeats cpuUsage memoryUsage now svr = true := by
  constructor
  · intro hkeeps svr hsvr
    have hsame := hkeeps _ (by simp only [heartbeat, hsvr]; rfl)
    rw [Dict.set_eq_self_iff, hsvr] at hsame
    obtain ⟨ip', port', services, time, status, cpu, memory⟩ := svr
    simp only [Option.some.injEq, Server.mk.injEq, true_and] at hsame
    obtain ⟨rfl, rfl, rfl, rfl⟩ := hsame
    simp [repeats]
  · intro hrepeats servers' h
    obtain ⟨svr, hsvr, rfl⟩ := heartbeat_eq_ok h
    have hsame := hrepeats svr hsvr
    obtain ⟨ip', port', services, time, status, cpu, memory⟩ := svr
    simp only [repeats, decide_eq_true_eq] at hsame
    obtain ⟨rfl, rfl, rfl, rfl⟩ := hsame
    exact Dict.set_eq_self_iff.mpr hsvr

/-- A server that is in time for the monitor. -/
def inTime (now : ℚ) (svr : Server) : Bool :=
  match svr.status with
  | .online => decide (now - svr.aliveTimestamp ≤ maxInactivityTime)
  | .offline => decide (now - svr.aliveTimestamp ≤ maxInactivityTime + maxOfflineTime)

theorem afterPass_eq_self_iff {svr : Server} : afterPass now svr = some svr ↔ inTime now svr := by
  obtain ⟨ip, port, services, aliveTimestamp, status, cpuUsage, memoryUsage⟩ := svr
  cases status with
  | online =>
    simp only [afterPass, inTime, decide_eq_true_eq, ← not_lt]
    split <;> simp_all
  | offline =>
    simp only [afterPass, inTime, decide_eq_true_eq, ← not_lt]
    split <;> simp_all

/-- A monitor pass changes nothing exactly if every server is in time. -/
theorem monitorClients_eq_self_iff : monitorClients now servers = servers ↔
    ∀ svrId svr, servers.get? svrId = some svr → inTime now svr = true := by
  constructor
  · intro hsame svrId svr hsvr
    have hget := get?_monitorClients now servers svrId
    rw [hsame, hsvr, Option.bind_some, eq_comm] at hget
    exact afterPass_eq_self_iff.mp hget
  · intro hquiet
    have hstep : ∀ svrId, monitorServer now servers svrId = servers := by
      intro svrId
      unfold monitorServer
      split
      · rfl
      · rename_i svr hsvr
        have hin := hquiet svrId svr hsvr
        unfold inTime at hin
        split
        · rename_i hstatus
          simp only [hstatus, decide_eq_true_eq] at hin
          rw [if_neg hin.not_gt]
        · rename_i hstatus
          simp only [hstatus, decide_eq_true_eq] at hin
          rw [if_neg hin.not_gt]
    unfold monitorClients
    induction servers.keys with
    | nil => rfl
    | cons svrId rest ih => rw [List.foldl_cons, hstep, ih]

end DreamboatRpc.Namesvr
