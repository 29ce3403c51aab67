import DreamboatRpc.CS.DecimalKey
import DreamboatRpc.CS.Transition
import DreamboatRpc.Namesvr.Registry
import Mathlib.Data.Int.CharZero
import Mathlib.Data.List.Infix

/-!
# The registry as a dictionary of dictionaries

In the program the registry is a Python dictionary from strings to dictionaries from strings to
whatever JSON can hold. A record is made field by field, and every piece of code that reads one
takes for granted that the fields it reads are there. Here nothing is taken for granted: a field
that is missing raises, and a handler that raises leaves what it has changed so far.

## Main definitions

* `Json`, `Record`, `JsonRegistry` — values, records and registries
* `JsonRegistry.register`, `JsonRegistry.heartbeat`, `JsonRegistry.monitorClients` — the handlers
* `Record.WellFormed`, `JsonRegistry.WellFormed` — the shape they take for granted
* `registrySystem` — handlers that work on any value the registry has ever had

## Main results

* `svrKey_inj` — a key has one address
* `handle_wellFormed`, `monitorClients_wellFormed` — what one handler preserves
* `registry_wellFormed` — the shape of every registry, always
-/

namespace DreamboatRpc.Namesvr

open CS

/-! ## Values -/

/-- A JSON value, as Python holds it. Numbers are compared by value, whether they are integers or
not; the last case are `NaN` and the infinities. -/
inductive Json
  | null
  | bool (b : Bool)
  | num (x : ℚ)
  | str (s : String)
  | arr (items : List Json)
  | obj (fields : List (String × Json))
  | nonFinite (name : String)

namespace Json

/-- `v == s` for a string `s` -/
def isStr (s : String) : Json → Bool
  | str t => t == s
  | _ => false

/-- `s in v`; `none` if it raises. -/
def contains (s : String) : Json → Option Bool
  | arr items => some (items.any (isStr s))
  | obj fields => some (fields.any fun field => field.1 == s)
  | str t => some (decide (s.toList <:+: t.toList))
  | null | bool _ | num _ | nonFinite _ => none

/-- `v.append(s)`; `none` if it raises. -/
def append (s : String) : Json → Option Json
  | arr items => some (arr (items ++ [str s]))
  | null | bool _ | num _ | str _ | obj _ | nonFinite _ => none

/-- `now - v > limit`; `none` if it raises. -/
def olderThan (now limit : ℚ) : Json → Option Bool
  | num x => some (decide (now - x > limit))
  | bool b => some (decide (now - (if b then 1 else 0) > limit))
  | nonFinite name => some (name == "-Infinity")
  | null | str _ | arr _ | obj _ => none

end Json

/-- What the registry holds of a server: fields in the order in which they were set. -/
abbrev Record := Dict String Json

/-- `servers`, the committed dictionary. -/
abbrev JsonRegistry := Dict String Record

/-- `f"{ip}:{port}"` -/
def svrKey (ip : String) (port : ℤ) : String := ip ++ ":" ++ toString port

/-! ## Handlers -/

/-- The JSON object of a `/register`; `none` where a field is missing. -/
structure RegisterData where
  ip : Option String
  port : Option ℤ
  serviceName : Option String

/-- The JSON object of a `/heartbeat`. The usages can be any JSON values. -/
structure HeartbeatData where
  ip : Option String
  port : Option ℤ
  cpuUsage : Option Json
  memoryUsage : Option Json

/-- The record of a server that registers for the first time. -/
def newRecord (ip : String) (port : ℤ) (now : ℚ) : Record where
  entries :=
    [("ip", .str ip),
      ("port", .num port),
      ("services", .arr []),
      ("alive_timestamp", .num now),
      ("status", .str "ONLINE"),
      ("cpu_usage", .num 0),
      ("memory_usage", .num 0)]
  nodup := by
    simp only [List.map_cons, List.map_nil]
    decide

namespace JsonRegistry

/-- `register_endpoint`: the dictionary it leaves, and its answer. -/
def register (data : RegisterData) (now : ℚ) (servers : JsonRegistry) : JsonRegistry × Answer :=
  match data.ip, data.port, data.serviceName with
  | some ip, some port, some serviceName =>
    let svrId := svrKey ip port
    -- the new record is there before its services are looked at
    let servers :=
      if (servers.get? svrId).isNone then servers.set svrId (newRecord ip port now) else servers
    match servers.get? svrId with
    | none => (servers, .internalError)
    | some svr =>
      match svr.get? "services" with
      | none => (servers, .internalError)
      | some services =>
        match services.contains serviceName with
        | none => (servers, .internalError)
        | some true => (servers, .error s!"Duplicate service {serviceName} on {ip}:{port}")
        | some false =>
          match services.append serviceName with
          | none => (servers, .internalError)
          | some services =>
            (servers.set svrId (((svr.set "services" services).set "alive_timestamp"
              (.num now)).set "status" (.str "ONLINE")), .success)
  | _, _, _ => (servers, .internalError)

/-- `heartbeat_endpoint` -/
def heartbeat (data : HeartbeatData) (now : ℚ) (servers : JsonRegistry) :
    JsonRegistry × Answer :=
  match data.ip, data.port with
  | some ip, some port =>
    let svrId := svrKey ip port
    match servers.get? svrId with
    | none => (servers, .error notRegistered)
    | some svr =>
      (servers.set svrId ((((svr.set "alive_timestamp" (.num now)).set "status"
        (.str "ONLINE")).set "cpu_usage" (data.cpuUsage.getD (.num 0))).set "memory_usage"
        (data.memoryUsage.getD (.num 0))), .success)
  | _, _ => (servers, .internalError)

/-- The body of the loop of `monitor_clients`; `none` if it raises, which it does before it
changes anything. -/
def monitorServer (now : ℚ) (servers : JsonRegistry) (svrId : String) : Option JsonRegistry := do
  let svr ← servers.get? svrId
  let status ← svr.get? "status"
  if status.isStr "ONLINE" then
    let alive ← svr.get? "alive_timestamp"
    if ← alive.olderThan now maxInactivityTime then
      some (servers.set svrId (svr.set "status" (.str "OFFLINE")))
    else some servers
  else if status.isStr "OFFLINE" then
    let alive ← svr.get? "alive_timestamp"
    if ← alive.olderThan now (maxInactivityTime + maxOfflineTime) then
      some (servers.pop svrId)
    else some servers
  else some servers

/-- The loop of `monitor_clients`: the dictionary it leaves, and whether it comes to its end. -/
def monitorLoop (now : ℚ) : List String → JsonRegistry → JsonRegistry × Bool
  | [], servers => (servers, true)
  | svrId :: rest, servers =>
    match monitorServer now servers svrId with
    | none => (servers, false)
    | some servers => monitorLoop now rest servers

/-- One pass of `monitor_clients` -/
def monitorClients (now : ℚ) (servers : JsonRegistry) : JsonRegistry × Bool :=
  monitorLoop now servers.keys servers

end JsonRegistry

/-- A key has one address, whatever the text of the ip. -/
theorem svrKey_inj {ip ip' : String} {port port' : ℤ} :
    svrKey ip port = svrKey ip' port' ↔ ip = ip' ∧ port = port' :=
  join_inj (c := ':') (by decide) (by decide)

/-! ## The shape of a registry -/

/-- The record is the one of its key, lists services and each of them once, is online or offline,
and has a time and the two usages. -/
structure Record.WellFormed (svrId : String) (svr : Record) : Prop where
  address : ∃ (ip : String) (port : ℤ), svr.get? "ip" = some (.str ip) ∧
    svr.get? "port" = some (.num port) ∧ svrId = svrKey ip port
  services : ∃ names : List String, svr.get? "services" = some (.arr (names.map .str)) ∧
    names ≠ [] ∧ names.Nodup
  status : svr.get? "status" = some (.str "ONLINE") ∨ svr.get? "status" = some (.str "OFFLINE")
  aliveTimestamp : ∃ time : ℚ, svr.get? "alive_timestamp" = some (.num time)
  cpuUsage : ∃ usage, svr.get? "cpu_usage" = some usage
  memoryUsage : ∃ usage, svr.get? "memory_usage" = some usage

/-- All records are well formed. -/
def JsonRegistry.WellFormed (servers : JsonRegistry) : Prop :=
  ∀ svrId svr, servers.get? svrId = some svr → Record.WellFormed svrId svr

variable {servers : JsonRegistry} {svrId : String} {svr : Record}

namespace Record

/-- What `register_endpoint` and `heartbeat_endpoint` build on: a record that is well formed, or
would be if it had services and a status. -/
structure Founded (svrId : String) (svr : Record) (names : List String) : Prop where
  address : ∃ (ip : String) (port : ℤ), svr.get? "ip" = some (.str ip) ∧
    svr.get? "port" = some (.num port) ∧ svrId = svrKey ip port
  services : svr.get? "services" = some (.arr (names.map .str))
  nodup : names.Nodup
  cpuUsage : ∃ usage, svr.get? "cpu_usage" = some usage
  memoryUsage : ∃ usage, svr.get? "memory_usage" = some usage

theorem WellFormed.founded (h : svr.WellFormed svrId) :
    ∃ names, names ≠ [] ∧ Founded svrId svr names := by
  obtain ⟨names, hservices, hne, hnodup⟩ := h.services
  exact ⟨names, hne, h.address, hservices, hnodup, h.cpuUsage, h.memoryUsage⟩

theorem founded_newRecord (ip : String) (port : ℤ) (now : ℚ) :
    Founded (svrKey ip port) (newRecord ip port now) [] :=
  ⟨⟨ip, port, rfl, rfl, rfl⟩, rfl, List.nodup_nil, ⟨_, rfl⟩, ⟨_, rfl⟩⟩

/-- The last lines of `register_endpoint`. -/
theorem Founded.register {names : List String} {serviceName : String}
    (h : Founded svrId svr names) (now : ℚ) (hnew : serviceName ∉ names) :
    WellFormed svrId (((svr.set "services" (.arr (names.map .str ++ [.str serviceName]))).set
      "alive_timestamp" (.num now)).set "status" (.str "ONLINE")) := by
  constructor
  · simpa [Dict.get?_set] using h.address
  · refine ⟨names ++ [serviceName], by simp [Dict.get?_set], by simp, ?_⟩
    exact List.nodup_append.mpr ⟨h.nodup, List.nodup_singleton _,
      fun a ha b hb => by rw [List.mem_singleton.mp hb]; exact ne_of_mem_of_not_mem ha hnew⟩
  · simp
  · simp [Dict.get?_set]
  · simpa [Dict.get?_set] using h.cpuUsage
  · simpa [Dict.get?_set] using h.memoryUsage

/-- The last lines of `heartbeat_endpoint`. -/
theorem WellFormed.heartbeat (h : svr.WellFormed svrId) (now : ℚ) (cpuUsage memoryUsage : Json) :
    WellFormed svrId ((((svr.set "alive_timestamp" (.num now)).set "status"
      (.str "ONLINE")).set "cpu_usage" cpuUsage).set "memory_usage" memoryUsage) := by
  constructor
  · simpa [Dict.get?_set] using h.address
  · simpa [Dict.get?_set] using h.services
  · simp [Dict.get?_set]
  · simp [Dict.get?_set]
  · simp [Dict.get?_set]
  · simp

theorem WellFormed.offline (h : svr.WellFormed svrId) :
    WellFormed svrId (svr.set "status" (.str "OFFLINE")) := by
  constructor
  · simpa [Dict.get?_set] using h.address
  · simpa [Dict.get?_set] using h.services
  · simp
  · simpa [Dict.get?_set] using h.aliveTimestamp
  · simpa [Dict.get?_set] using h.cpuUsage
  · simpa [Dict.get?_set] using h.memoryUsage

end Record

/-! ## What a handler preserves -/

/-- Looking for a string in a list of strings. -/
theorem Json.contains_map_str (s : String) (names : List String) :
    (Json.arr (names.map .str)).contains s = some (decide (s ∈ names)) := by
  have hany : (names.map Json.str).any (Json.isStr s) = decide (s ∈ names) := by
    induction names with
    | nil => rfl
    | cons name names ih =>
      rw [List.map_cons, List.any_cons, ih]
      simp only [Json.isStr, List.mem_cons, Bool.decide_or, eq_comm (a := s), beq_eq_decide]
  rw [Json.contains, hany]

namespace JsonRegistry

theorem wellFormed_empty : WellFormed ∅ := by
  intro svrId svr hsvr
  cases hsvr

theorem WellFormed.set (h : servers.WellFormed) (hsvr : svr.WellFormed svrId) :
    WellFormed (Dict.set servers svrId svr) := by
  intro k found hfound
  rw [Dict.get?_set] at hfound
  split at hfound
  · rename_i hk
    rw [Option.some.injEq] at hfound
    rwa [hk, ← hfound]
  · exact h k found hfound

theorem WellFormed.pop (h : servers.WellFormed) : WellFormed (Dict.pop servers svrId) := by
  intro k found hfound
  rw [Dict.get?_pop] at hfound
  split at hfound
  · cases hfound
  · exact h k found hfound

/-- `/register` answers an error and changes nothing, or puts a well-formed record under the key
of the address. -/
theorem register_cases (h : servers.WellFormed) (data : RegisterData) (now : ℚ) :
    ((register data now servers).2 ≠ .success ∧ (register data now servers).1 = servers) ∨
    ((register data now servers).2 = .success ∧ ∃ svrId svr, Record.WellFormed svrId svr ∧
      (register data now servers).1 = servers.set svrId svr) := by
  obtain ⟨ip, port, serviceName⟩ := data
  rcases ip with _ | ip
  · exact .inl ⟨by simp [register], rfl⟩
  rcases port with _ | port
  · exact .inl ⟨by simp [register], rfl⟩
  rcases serviceName with _ | serviceName
  · exact .inl ⟨by simp [register], rfl⟩
  cases hsvr : servers.get? (svrKey ip port) with
  | none =>
    -- a new record lists nothing yet
    have hfounded := Record.founded_newRecord ip port now
    have hcontains : (Json.arr []).contains serviceName = some false := rfl
    have hnew : serviceName ∉ [] := List.not_mem_nil
    refine .inr ⟨?_, svrKey ip port, _, hfounded.register now hnew, ?_⟩
    · simp [register, hsvr, hfounded.services, hcontains, Json.append]
    · simp [register, hsvr, hfounded.services, hcontains, Json.append, Dict.set_set]
  | some svr =>
    obtain ⟨names, -, hfounded⟩ := (h _ _ hsvr).founded
    have hcontains := Json.contains_map_str serviceName names
    by_cases hmem : serviceName ∈ names
    · refine .inl ⟨?_, ?_⟩ <;> simp [register, hsvr, hfounded.services, hcontains, hmem]
    · refine .inr ⟨?_, svrKey ip port, _, hfounded.register now hmem, ?_⟩ <;>
        simp [register, hsvr, hfounded.services, hcontains, hmem, Json.append]

/-- The same of `/heartbeat`. -/
theorem heartbeat_cases (h : servers.WellFormed) (data : HeartbeatData) (now : ℚ) :
    ((heartbeat data now servers).2 ≠ .success ∧ (heartbeat data now servers).1 = servers) ∨
    ((heartbeat data now servers).2 = .success ∧ ∃ svrId svr, Record.WellFormed svrId svr ∧
      (heartbeat data now servers).1 = servers.set svrId svr) := by
  obtain ⟨ip, port, cpuUsage, memoryUsage⟩ := data
  rcases ip with _ | ip
  · exact .inl ⟨by simp [heartbeat], rfl⟩
  rcases port with _ | port
  · exact .inl ⟨by simp [heartbeat], rfl⟩
  cases hsvr : servers.get? (svrKey ip port) with
  | none => exact .inl ⟨by simp [heartbeat, hsvr], by simp [heartbeat, hsvr]⟩
  | some svr =>
    refine .inr ⟨by simp [heartbeat, hsvr], svrKey ip port, _, (h _ _ hsvr).heartbeat now
      (cpuUsage.getD (.num 0)) (memoryUsage.getD (.num 0)), by simp [heartbeat, hsvr]⟩

/-- The monitor finds all it looks for in a record, and leaves one that is well formed or none. -/
theorem monitorServer_cases (h : servers.WellFormed) (hsvr : servers.get? svrId = some svr)
    (now : ℚ) : ∃ after, monitorServer now servers svrId = some after ∧
      (after = servers ∨ after = servers.set svrId (svr.set "status" (.str "OFFLINE")) ∨
        after = servers.pop svrId) := by
  have hwf := h _ _ hsvr
  obtain ⟨time, htime⟩ := hwf.aliveTimestamp
  rcases hwf.status with hstatus | hstatus
  · by_cases hlate : now - time > maxInactivityTime
    · exact ⟨_, by simp [monitorServer, hsvr, hstatus, htime, Json.isStr, Json.olderThan, hlate],
        .inr (.inl rfl)⟩
    · exact ⟨_, by simp [monitorServer, hsvr, hstatus, htime, Json.isStr, Json.olderThan, hlate],
        .inl rfl⟩
  · by_cases hlate : now - time > maxInactivityTime + maxOfflineTime
    · exact ⟨_, by simp [monitorServer, hsvr, hstatus, htime, Json.isStr, Json.olderThan, hlate],
        .inr (.inr rfl)⟩
    · exact ⟨_, by simp [monitorServer, hsvr, hstatus, htime, Json.isStr, Json.olderThan, hlate],
        .inl rfl⟩

theorem monitorServer_wellFormed (h : servers.WellFormed) (hsvr : servers.get? svrId = some svr)
    (now : ℚ) : ∃ after, monitorServer now servers svrId = some after ∧ after.WellFormed ∧
      ∀ k, k ≠ svrId → after.get? k = servers.get? k := by
  obtain ⟨after, heq, rfl | rfl | rfl⟩ := monitorServer_cases h hsvr now
  · exact ⟨_, heq, h, fun _ _ => rfl⟩
  · exact ⟨_, heq, h.set (h _ _ hsvr).offline, fun _ hk => Dict.get?_set_of_ne hk⟩
  · exact ⟨_, heq, h.pop, fun _ hk => by rw [Dict.get?_pop, if_neg hk]⟩

/-- The loop ends if the keys it still has to come to are there. -/
theorem monitorLoop_wellFormed (now : ℚ) {svrIds : List String} (hnodup : svrIds.Nodup)
    (hkeys : ∀ svrId ∈ svrIds, (servers.get? svrId).isSome) (h : servers.WellFormed) :
    (monitorLoop now svrIds servers).2 = true ∧ (monitorLoop now svrIds servers).1.WellFormed := by
  induction svrIds generalizing servers with
  | nil => exact ⟨rfl, h⟩
  | cons svrId rest ih =>
    obtain ⟨hout, hrest⟩ := List.nodup_cons.mp hnodup
    obtain ⟨hfirst, hothers⟩ := List.forall_mem_cons.mp hkeys
    obtain ⟨svr, hsvr⟩ := Option.isSome_iff_exists.mp hfirst
    obtain ⟨after, heq, hafter, hkept⟩ := monitorServer_wellFormed h hsvr now
    rw [monitorLoop, heq]
    refine ih hrest (fun k hk => ?_) hafter
    rw [hkept k (ne_of_mem_of_not_mem hk hout)]
    exact hothers k hk

/-- A pass of the monitor never misses a field, and leaves a well-formed registry. -/
theorem monitorClients_wellFormed (h : servers.WellFormed) (now : ℚ) :
    (monitorClients now servers).2 = true ∧ (monitorClients now servers).1.WellFormed := by
  refine monitorLoop_wellFormed now servers.nodup (fun svrId hmem => ?_) h
  rw [Option.isSome_iff_ne_none]
  exact Dict.mem_keys_iff.mp hmem

end JsonRegistry

/-! ## Histories of the registry -/

/-- A request to the name server. -/
inductive Request
  | register (data : RegisterData)
  | heartbeat (data : HeartbeatData)

/-- The handler of a request: the dictionary it leaves, and its answer. -/
def Request.handle (now : ℚ) (servers : JsonRegistry) : Request → JsonRegistry × Answer
  | register data => servers.register data now
  | heartbeat data => servers.heartbeat data now

/-- A handler or a pass of the monitor, on one of the values that the registry had so far: the
node may have read any of them as the committed one. -/
inductive RegistryStep
  | request (i : ℕ) (r : Request) (now : ℚ)
  | monitorClients (i : ℕ) (now : ℚ)

/-- The values that the registry had so far, and what the step makes of one of them. It is in the
memory of the node from then on, and submitted unless an error is answered. -/
def handleStep (values : List JsonRegistry) : RegistryStep → Option (List JsonRegistry)
  | .request i r now => values[i]?.map fun servers => values ++ [(r.handle now servers).1]
  | .monitorClients i now =>
    values[i]?.map fun servers => values ++ [(servers.monitorClients now).1]

/-- All values that the registry ever has, from the empty one on. -/
def registrySystem : TransitionSystem (List JsonRegistry) RegistryStep := .ofExec [∅] handleStep

/-- A request keeps the shape; one that is answered with an error keeps the registry. -/
theorem handle_wellFormed (h : servers.WellFormed) (r : Request) (now : ℚ) :
    (r.handle now servers).1.WellFormed ∧
      ((r.handle now servers).2 ≠ .success → (r.handle now servers).1 = servers) := by
  have hcases : ((r.handle now servers).2 ≠ .success ∧ (r.handle now servers).1 = servers) ∨
      ((r.handle now servers).2 = .success ∧ ∃ svrId svr, Record.WellFormed svrId svr ∧
        (r.handle now servers).1 = servers.set svrId svr) := by
    cases r with
    | register data => exact JsonRegistry.register_cases h data now
    | heartbeat data => exact JsonRegistry.heartbeat_cases h data now
  obtain ⟨-, hsame⟩ | ⟨hsuccess, svrId, svr, hsvr, hset⟩ := hcases
  · exact ⟨by rwa [hsame], fun _ => hsame⟩
  · exact ⟨hset ▸ h.set hsvr, fun hne => absurd hsuccess hne⟩

/-- The fields that `discover_endpoint` and `monitor_clients` read. -/
def fieldsRead : List String :=
  ["services", "cpu_usage", "memory_usage", "ip", "port", "status", "alive_timestamp"]

theorem Record.WellFormed.fields (h : svr.WellFormed svrId) :
    ∀ field ∈ fieldsRead, (svr.get? field).isSome := by
  obtain ⟨ip, port, hip, hport, -⟩ := h.address
  obtain ⟨names, hservices, -⟩ := h.services
  obtain ⟨time, htime⟩ := h.aliveTimestamp
  obtain ⟨cpuUsage, hcpu⟩ := h.cpuUsage
  obtain ⟨memoryUsage, hmemory⟩ := h.memoryUsage
  have hstatus : (svr.get? "status").isSome := by
    rcases h.status with hstatus | hstatus <;> rw [hstatus] <;> rfl
  simp [fieldsRead, hip, hport, hservices, htime, hcpu, hmemory, hstatus]

/-- What all code around the registry may take for granted. -/
structure JsonRegistry.Sound (servers : JsonRegistry) : Prop where
  records : servers.WellFormed
  /-- No field is missing where one is read. -/
  fields : ∀ svrId svr, servers.get? svrId = some svr →
    ∀ field ∈ fieldsRead, (svr.get? field).isSome
  /-- Different keys have different addresses. -/
  addresses : ∀ svrId svrId' svr svr', servers.get? svrId = some svr →
    servers.get? svrId' = some svr' → svr.get? "ip" = svr'.get? "ip" →
    svr.get? "port" = svr'.get? "port" → svrId = svrId'
  /-- What is found for an address is the record of that address. -/
  own : ∀ ip (port : ℤ) svr, servers.get? (svrKey ip port) = some svr →
    svr.get? "ip" = some (.str ip) ∧ svr.get? "port" = some (.num port)
  rejected : ∀ (r : Request) now, (r.handle now servers).2 ≠ .success →
    (r.handle now servers).1 = servers
  monitored : ∀ now, (servers.monitorClients now).2 = true

theorem JsonRegistry.WellFormed.sound (h : servers.WellFormed) : servers.Sound where
  records := h
  fields svrId svr hsvr := (h svrId svr hsvr).fields
  addresses svrId svrId' svr svr' hsvr hsvr' hips hports := by
    obtain ⟨ip, port, hip, hport, rfl⟩ := (h svrId svr hsvr).address
    obtain ⟨ip', port', hip', hport', rfl⟩ := (h svrId' svr' hsvr').address
    rw [hip, hip'] at hips
    rw [hport, hport'] at hports
    simp only [Option.some.injEq, Json.str.injEq, Json.num.injEq, Int.cast_inj] at hips hports
    rw [hips, hports]
  own ip port svr hsvr := by
    obtain ⟨ip', port', hip, hport, hkey⟩ := (h _ svr hsvr).address
    obtain ⟨rfl, rfl⟩ := svrKey_inj.mp hkey
    exact ⟨hip, hport⟩
  rejected r now := (handle_wellFormed h r now).2
  monitored now := (monitorClients_wellFormed h now).1

/-- Every value that the registry ever has, submitted or stored, is well formed: whichever of the
earlier values the handlers and the monitor read, and whatever is requested of them. -/
theorem registry_wellFormed : ∀ values, registrySystem.Reachable unguarded values →
    ∀ servers ∈ values, servers.Sound := by
  intro values hvalues
  have hinv : ∀ servers ∈ values, servers.WellFormed := by
    refine TransitionSystem.Reachable.invariant
      (I := fun values => ∀ servers ∈ values, JsonRegistry.WellFormed servers) ?_ ?_ hvalues
    · rintro _ rfl servers hmem
      rw [List.mem_singleton.mp hmem]
      exact JsonRegistry.wellFormed_empty
    · intro values step values' hvalues _ hstep
      have hadd : ∀ (i : ℕ) (handle : JsonRegistry → JsonRegistry),
          (∀ servers, servers.WellFormed → (handle servers).WellFormed) →
          (values[i]?.map fun servers => values ++ [handle servers]) = some values' →
          ∀ servers ∈ values', servers.WellFormed := by
        intro i handle hhandle hi
        obtain ⟨read, hread, rfl⟩ := Option.map_eq_some_iff.mp hi
        have hwf := hvalues read (List.mem_of_getElem? hread)
        intro servers hmem
        rcases List.mem_append.mp hmem with hmem | hmem
        · exact hvalues servers hmem
        · rw [List.mem_singleton.mp hmem]
          exact hhandle read hwf
      cases step with
      | request i r now => exact hadd i _ (fun _ h => (handle_wellFormed h r now).1) hstep
      | monitorClients i now =>
        exact hadd i _ (fun _ h => (JsonRegistry.monitorClients_wellFormed h now).2) hstep
  exact fun servers hmem => (hinv servers hmem).sound

/-- A server registers. -/
def echoRegistration : RegisterData := ⟨some "10.0.0.1", some 8080, some "echo"⟩

/-- It is known after that, and after a late pass of the monitor as well. -/
theorem registry_wellFormed_echoRegistration :
    ∃ values, registrySystem.Reachable unguarded values ∧ values.length = 3 ∧
      (∀ servers ∈ values, servers.Sound) ∧
      ∃ servers ∈ values, (servers.get? (svrKey "10.0.0.1" 8080)).isSome := by
  let registered := (JsonRegistry.register echoRegistration 0 ∅).1
  let monitored := (registered.monitorClients 40).1
  have hregister : registrySystem.step [∅] (.request 0 (.register echoRegistration) 0)
      [∅, registered] := rfl
  have hmonitor : registrySystem.step [∅, registered] (.monitorClients 1 40)
      [∅, registered, monitored] := rfl
  have hreachable : registrySystem.Reachable unguarded [∅, registered, monitored] :=
    ⟨_, .step (.step (.init rfl) trivial hregister) trivial hmonitor⟩
  refine ⟨_, hreachable, rfl, registry_wellFormed _ hreachable, registered, by simp, ?_⟩
  have hfounded := Record.founded_newRecord "10.0.0.1" 8080 0
  have hcontains : (Json.arr []).contains "echo" = some false := rfl
  simp [registered, JsonRegistry.register, echoRegistration, hfounded.services, hcontains,
    Json.append, Dict.get?_empty]

end DreamboatRpc.Namesvr
