import DreamboatRpc.Namesvr.History
import DreamboatRpc.Namesvr.JsonRegistry

/-!
# The registry of the name server as JSON

The model of the replicated name server keeps records with a field for everything. Written out as
dictionaries of strings they are what the handlers of `run_node.py` work on, and the handlers do
the same to both.

## Main definitions

* `Server.toRecord`, `Registry.toJson` — a record and a registry, written out

## Main results

* `register_toJson`, `heartbeat_toJson`, `monitorClients_toJson` — the handlers do the same
* `held_wellFormed` — every registry in the cluster is well formed when it is written out
-/

namespace DreamboatRpc.Namesvr

open CS Raft

/-- `'ONLINE'` or `'OFFLINE'` -/
def Status.text : Status → String
  | online => "ONLINE"
  | offline => "OFFLINE"

/-- A load, written out; whether the number is an integer or a double makes no difference to what
the handlers do with it. -/
def Load.toJson (usage : Load) : Json := .num usage.value

/-- A record, written out field by field. -/
def Server.toRecord (svr : Server) : Record where
  entries :=
    [("ip", .str svr.ip),
      ("port", .num svr.port),
      ("services", .arr (svr.services.map .str)),
      ("alive_timestamp", .num svr.aliveTimestamp),
      ("status", .str svr.status.text),
      ("cpu_usage", .num svr.cpuUsage.value),
      ("memory_usage", .num svr.memoryUsage.value)]
  nodup := by
    simp only [List.map_cons, List.map_nil]
    decide

/-- `f"{ip}:{port}"` -/
def ServerId.text (svrId : ServerId) : String := svrKey svrId.ip svrId.port

theorem ServerId.text_injective : Function.Injective ServerId.text := by
  intro a b h
  obtain ⟨hip, hport⟩ := svrKey_inj.mp h
  cases a
  cases b
  simp_all

/-- A registry, written out. -/
def Registry.toJson (servers : Registry) : JsonRegistry :=
  Dict.map ServerId.text ServerId.text_injective Server.toRecord servers

variable {servers servers' : Registry} {ip serviceName : String} {port : ℤ} {now : ℚ}
  {svr : Server} {svrId : ServerId}

theorem get?_toJson (svrId : ServerId) : (Registry.toJson servers).get? svrId.text =
    (servers.get? svrId).map Server.toRecord := Dict.get?_map

theorem set_toJson (svrId : ServerId) : (Registry.toJson servers).set svrId.text svr.toRecord =
    Registry.toJson (servers.set svrId svr) := Dict.set_map

theorem pop_toJson : (Registry.toJson servers).pop svrId.text =
    Registry.toJson (servers.pop svrId) := Dict.pop_map

theorem newServer_toRecord : newRecord ip port now = (newServer ip port now).toRecord := by
  simp only [newRecord, Server.toRecord, newServer, List.map_nil, Status.text, Load.value_zero]

theorem registered_toRecord (svr : Server) (serviceName : String) (now : ℚ) :
    ((svr.toRecord.set "services" (.arr (svr.services.map .str ++ [.str serviceName]))).set
      "alive_timestamp" (.num now)).set "status" (.str "ONLINE") =
    { svr with
      services := svr.services ++ [serviceName], aliveTimestamp := now
      status := .online }.toRecord := by
  simp [Server.toRecord, Dict.set, Dict.setEntry, Status.text]

theorem reported_toRecord (svr : Server) (cpuUsage memoryUsage : Load) (now : ℚ) :
    (((svr.toRecord.set "alive_timestamp" (.num now)).set "status" (.str "ONLINE")).set
      "cpu_usage" (.num cpuUsage.value)).set "memory_usage" (.num memoryUsage.value) =
    { svr with
      aliveTimestamp := now, status := .online, cpuUsage := cpuUsage
      memoryUsage := memoryUsage }.toRecord := by
  simp [Server.toRecord, Dict.set, Dict.setEntry, Status.text]

theorem offline_toRecord (svr : Server) :
    svr.toRecord.set "status" (.str "OFFLINE") = { svr with status := .offline }.toRecord := by
  simp [Server.toRecord, Dict.set, Dict.setEntry, Status.text]

/-! ## The handlers -/

theorem services_toRecord (svr : Server) :
    svr.toRecord.get? "services" = some (.arr (svr.services.map .str)) := by
  simp [Server.toRecord, Dict.get?, Dict.lookup_cons_eq]

theorem status_toRecord (svr : Server) :
    svr.toRecord.get? "status" = some (.str svr.status.text) := by
  simp [Server.toRecord, Dict.get?, Dict.lookup_cons_eq]

theorem aliveTimestamp_toRecord (svr : Server) :
    svr.toRecord.get? "alive_timestamp" = some (.num svr.aliveTimestamp) := by
  simp [Server.toRecord, Dict.get?, Dict.lookup_cons_eq]

/-- A `/register` does the same to the registry that is written out. -/
theorem register_toJson (ip : String) (port : ℤ) (serviceName : String) (now : ℚ)
    (servers : Registry) :
    (Registry.toJson servers).register ⟨some ip, some port, some serviceName⟩ now =
      match register ip port serviceName now servers with
      | .ok servers' => (Registry.toJson servers', .success)
      | .error message => (Registry.toJson servers, .error message) := by
  have hfind : (Registry.toJson servers).get? (svrKey ip port) =
      (servers.get? ⟨ip, port⟩).map Server.toRecord := get?_toJson ⟨ip, port⟩
  have hset : ∀ svr : Server, (Registry.toJson servers).set (svrKey ip port) svr.toRecord =
      Registry.toJson (servers.set ⟨ip, port⟩ svr) := fun svr => set_toJson ⟨ip, port⟩
  cases hsvr : servers.get? ⟨ip, port⟩ with
  | none =>
    rw [hsvr, Option.map_none] at hfind
    have hservices := services_toRecord (newServer ip port now)
    have hregistered := registered_toRecord (newServer ip port now) serviceName now
    have hcontains := Json.contains_map_str serviceName (newServer ip port now).services
    have hnew : serviceName ∉ (newServer ip port now).services := List.not_mem_nil
    simp only [JsonRegistry.register, register, hfind, hsvr, Option.isNone_none, if_true,
      Dict.get?_set_self, newServer_toRecord, hservices, hcontains, decide_false, hnew, if_false,
      Option.getD_none, Json.append, Dict.set_set, hregistered]
    rw [hset]
  | some svr =>
    rw [hsvr, Option.map_some] at hfind
    have hcontains := Json.contains_map_str serviceName svr.services
    have hregistered := registered_toRecord svr serviceName now
    by_cases hmem : serviceName ∈ svr.services
    · simp only [JsonRegistry.register, register, hfind, hsvr, Option.isNone_some,
        Bool.false_eq_true, if_false, services_toRecord, hcontains, hmem, decide_true, if_true,
        Option.getD_some]
    · simp only [JsonRegistry.register, register, hfind, hsvr, Option.isNone_some,
        Bool.false_eq_true, if_false, services_toRecord, hcontains, hmem, decide_false,
        Option.getD_some, Json.append, hregistered, hset]

/-- So does a `/heartbeat`. -/
theorem heartbeat_toJson (ip : String) (port : ℤ) (cpuUsage memoryUsage : Option Load) (now : ℚ)
    (servers : Registry) :
    (Registry.toJson servers).heartbeat
        ⟨some ip, some port, cpuUsage.map Load.toJson, memoryUsage.map Load.toJson⟩ now =
      match heartbeat ip port cpuUsage memoryUsage now servers with
      | .ok servers' => (Registry.toJson servers', .success)
      | .error message => (Registry.toJson servers, .error message) := by
  have hfind : (Registry.toJson servers).get? (svrKey ip port) =
      (servers.get? ⟨ip, port⟩).map Server.toRecord := get?_toJson ⟨ip, port⟩
  have hset : ∀ svr : Server, (Registry.toJson servers).set (svrKey ip port) svr.toRecord =
      Registry.toJson (servers.set ⟨ip, port⟩ svr) := fun svr => set_toJson ⟨ip, port⟩
  have husage : ∀ usage : Option Load,
      (usage.map Load.toJson).getD (.num 0) = .num (usage.getD 0).value := by
    intro usage
    cases usage <;> rfl
  cases hsvr : servers.get? ⟨ip, port⟩ with
  | none =>
    rw [hsvr, Option.map_none] at hfind
    simp only [JsonRegistry.heartbeat, heartbeat, hfind, hsvr]
  | some svr =>
    rw [hsvr, Option.map_some] at hfind
    simp only [JsonRegistry.heartbeat, heartbeat, hfind, hsvr, husage, reported_toRecord, hset]

/-- The monitor does the same to every record. -/
theorem monitorServer_toJson (hsvr : servers.get? svrId = some svr) (now : ℚ) :
    (Registry.toJson servers).monitorServer now svrId.text =
      some (Registry.toJson (monitorServer now servers svrId)) := by
  have hfind : (Registry.toJson servers).get? svrId.text = some svr.toRecord := by
    rw [get?_toJson, hsvr, Option.map_some]
  have hread := status_toRecord svr
  have htime := aliveTimestamp_toRecord svr
  cases hstatus : svr.status with
  | online =>
    rw [hstatus] at hread
    by_cases hlate : now - svr.aliveTimestamp > maxInactivityTime
    · simp [JsonRegistry.monitorServer, monitorServer, hfind, hsvr, hread, htime, hstatus, hlate,
        Status.text, Json.isStr, Json.olderThan, offline_toRecord, set_toJson]
    · simp [JsonRegistry.monitorServer, monitorServer, hfind, hsvr, hread, htime, hstatus, hlate,
        Status.text, Json.isStr, Json.olderThan]
  | offline =>
    rw [hstatus] at hread
    by_cases hlate : now - svr.aliveTimestamp > maxInactivityTime + maxOfflineTime
    · simp [JsonRegistry.monitorServer, monitorServer, hfind, hsvr, hread, htime, hstatus, hlate,
        Status.text, Json.isStr, Json.olderThan, pop_toJson]
    · simp [JsonRegistry.monitorServer, monitorServer, hfind, hsvr, hread, htime, hstatus, hlate,
        Status.text, Json.isStr, Json.olderThan]

/-- The rest of a pass, as long as the servers it comes to are there. -/
theorem monitorLoop_toJson (now : ℚ) {svrIds : List ServerId} (hnodup : svrIds.Nodup)
    (hkeys : ∀ svrId ∈ svrIds, (servers.get? svrId).isSome) :
    (JsonRegistry.monitorLoop now (svrIds.map ServerId.text) (Registry.toJson servers)) =
      (Registry.toJson (svrIds.foldl (monitorServer now) servers), true) := by
  induction svrIds generalizing servers with
  | nil => rfl
  | cons svrId rest ih =>
    obtain ⟨hout, hrest⟩ := List.nodup_cons.mp hnodup
    obtain ⟨hfirst, hothers⟩ := List.forall_mem_cons.mp hkeys
    obtain ⟨svr, hsvr⟩ := Option.isSome_iff_exists.mp hfirst
    rw [List.map_cons, JsonRegistry.monitorLoop, monitorServer_toJson hsvr, List.foldl_cons]
    refine ih hrest fun k hk => ?_
    rw [monitorServer_get?, if_neg (ne_of_mem_of_not_mem hk hout)]
    exact hothers k hk

/-- A pass of the monitor does the same, and misses no field. -/
theorem monitorClients_toJson (now : ℚ) (servers : Registry) :
    (Registry.toJson servers).monitorClients now =
      (Registry.toJson (monitorClients now servers), true) := by
  have hkeys : (Registry.toJson servers).keys = servers.keys.map ServerId.text := Dict.keys_map
  rw [JsonRegistry.monitorClients, hkeys]
  refine monitorLoop_toJson now servers.nodup fun svrId hmem => ?_
  rw [Option.isSome_iff_ne_none]
  exact Dict.mem_keys_iff.mp hmem

/-! ## The cluster -/

/-- Wherever there is a registry in the cluster, in a log or a queue or under way, it is well
formed when it is written out. -/
theorem held_wellFormed {n : ℕ} {s : NameServer n}
    (h : (nameServerSystem n).Reachable unguarded s) :
    s.cluster.Holds fun e => (Registry.toJson e.entry.registry).WellFormed := by
  refine holds_of_reachable (P := fun servers => (Registry.toJson servers).WellFormed)
    JsonRegistry.wellFormed_empty ?_ ?_ ?_ h
  · intro servers servers' ip port serviceName now hservers hok
    have hkept := (handle_wellFormed hservers
      (.register ⟨some ip, some port, some serviceName⟩) now).1
    rw [Request.handle, register_toJson, hok] at hkept
    exact hkept
  · intro servers servers' ip port cpuUsage memoryUsage now hservers hok
    have hkept := (handle_wellFormed hservers
      (.heartbeat ⟨some ip, some port, cpuUsage.map Load.toJson, memoryUsage.map Load.toJson⟩)
      now).1
    rw [Request.handle, heartbeat_toJson, hok] at hkept
    exact hkept
  · intro servers now hservers
    have hkept := (JsonRegistry.monitorClients_wellFormed hservers now).2
    rwa [monitorClients_toJson] at hkept

end DreamboatRpc.Namesvr
