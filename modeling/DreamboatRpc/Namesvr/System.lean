import DreamboatRpc.Namesvr.Registry
import DreamboatRpc.Raft.Values

/-!
# The replicated name server

Every node runs the handlers of `run_node.py` next to its Raft thread. A handler gets the
registry by reference: it changes the committed dictionary of its node in place, and then
enqueues that same dictionary. So an entry of the log or of the client queue that refers
to it changes with it. What goes over the network is a copy.

## Main definitions

* `Obj` — a dictionary with the reference by which its node knows it
* `Owed` — what the callers were promised
* `NameServer`, `nameServerSystem` — the cluster with its handlers
-/

namespace DreamboatRpc.Namesvr

open CS Raft

variable {n : ℕ}

/-! ## References -/

/-- A dictionary in the memory of a node, with its address. A dictionary that was just made
or is on the network has none yet. -/
structure Obj where
  address : Option ℕ
  registry : Registry
  deriving DecidableEq

instance : EmptyCollection Obj := ⟨⟨none, ∅⟩⟩

/-- Give a dictionary an address, if it has none. -/
def Obj.allocate (address : ℕ) (o : Obj) : Obj :=
  if o.address = none then { o with address := some address } else o

/-- What is sent of a dictionary. -/
def Obj.copy (o : Obj) : Obj := { o with address := none }

/-- Change the dictionary at an address. -/
def Obj.overwrite (address : Option ℕ) (servers : Registry) (o : Obj) : Obj :=
  if o.address = address then { o with registry := servers } else o

@[simp] theorem Obj.allocate_registry (address : ℕ) (o : Obj) :
    (o.allocate address).registry = o.registry := by
  unfold Obj.allocate
  split <;> rfl

@[simp] theorem Obj.copy_registry (o : Obj) : o.copy.registry = o.registry := rfl

/-! ## Promises -/

/-- What the answers promise: registered services and the times of the last successful
heartbeats, except of servers removed since. -/
structure Owed where
  services : List (ServerId × String)
  heartbeats : List (ServerId × ℚ)
  deriving DecidableEq

namespace Owed

/-- Nothing was promised. -/
def nothing : Owed := ⟨[], []⟩

/-- A successful `/register` -/
def register (o : Owed) (svrId : ServerId) (serviceName : String) : Owed :=
  { o with services := (svrId, serviceName) :: o.services }

/-- A successful `/heartbeat`; only the last one of a server counts. -/
def heartbeat (o : Owed) (svrId : ServerId) (now : ℚ) : Owed :=
  { o with heartbeats := (svrId, now) :: o.heartbeats.filter fun x => x.1 ≠ svrId }

/-- A monitor pass: nothing is promised to the servers it removes. -/
def monitor (o : Owed) (before after : Registry) : Owed where
  services := o.services.filter fun x => (before.get? x.1).isNone || (after.get? x.1).isSome
  heartbeats := o.heartbeats.filter fun x => (before.get? x.1).isNone || (after.get? x.1).isSome

/-- The registry keeps what was promised. -/
def met (o : Owed) (servers : Registry) : Bool :=
  (o.services.all fun x => (servers.get? x.1).any fun svr => decide (x.2 ∈ svr.services)) &&
    o.heartbeats.all fun x => (servers.get? x.1).any fun svr => decide (x.2 ≤ svr.aliveTimestamp)

theorem met_iff (o : Owed) (servers : Registry) : o.met servers = true ↔
    (∀ x ∈ o.services, ∃ svr, servers.get? x.1 = some svr ∧ x.2 ∈ svr.services) ∧
      ∀ x ∈ o.heartbeats, ∃ svr, servers.get? x.1 = some svr ∧ x.2 ≤ svr.aliveTimestamp := by
  simp only [met, Bool.and_eq_true, List.all_eq_true, Option.any_eq_true, decide_eq_true_eq]

end Owed

/-! ## The system -/

/-- An address at which a node has no dictionary. -/
def freshAddress (nd : Node n Obj) : ℕ :=
  ((nd.log ++ nd.clientQueue ++ nd.logHash.map Prod.snd).map
    fun e => e.entry.address.getD 0).foldr max 0 + 1

/-- The state of the name server: the cluster, which monitor threads still run, and, as a
history variable that no node reads, what was promised. -/
structure NameServer (n : ℕ) where
  cluster : Cluster n Obj
  monitors : Fin n → Bool
  owed : Owed

/-- What may happen: a step of the Raft threads or of the network, or a request to a node
or a monitor pass, each with the time `time.time()` returns. -/
inductive Action (n : ℕ)
  | raft (e : Event n Obj)
  | register (p : Fin n) (ip : String) (port : ℤ) (serviceName : String) (now : ℚ)
  | heartbeat (p : Fin n) (ip : String) (port : ℤ) (cpuUsage memoryUsage : Option Load) (now : ℚ)
  | monitorClients (p : Fin n) (now : ℚ)

/-- The events that are not calls of a client; `run_node.py` never pauses a node. -/
def isThread : Event n Obj → Bool
  | .run _ | .follower _ _ _ | .candidate _ _ _ | .leader _ _ _ _ | .lose _ _ _ => true
  | .clientRequest _ _ _ | .pause _ | .unPause _ => false

/-- The answer of a handler that changes the registry it reads. -/
def reply (handle : Registry → Except String Registry) : Option Registry → Answer
  | none => .internalError
  | some servers =>
    match handle servers with
    | .error message => .error message
    | .ok _ => .success

namespace NameServer

/-- Before any node has started. -/
def init : NameServer n where
  cluster := Cluster.init.revalue (fun _ => Obj.allocate 0) Obj.copy
  monitors := fun _ => true
  owed := .nothing

/-- The dictionaries made or received in a step get an address, and what was sent are
copies. A node makes or receives at most one dictionary in a step. -/
def settle (s : NameServer n) (cluster : Cluster n Obj) : NameServer n :=
  { s with
    cluster := cluster.revalue (fun q => Obj.allocate (freshAddress (cluster.nodes q)))
      Obj.copy }

/-- `node.check_committed_entry()`; `none` where it raises. -/
def read (s : NameServer n) (p : Fin n) : Option Registry :=
  (s.cluster.nodes p).checkCommittedEntry.map Obj.registry

/-- The end of a handler of node `p`: the committed dictionary has become `servers`, and
`node.client_request` enqueues it. -/
def submit (s : NameServer n) (p : Fin n) (servers : Registry) : NameServer n :=
  match (s.cluster.nodes p).checkCommittedEntry with
  | none => s
  | some o =>
    -- the handler has changed the committed dictionary in place, and all that shares it
    let cluster := s.cluster.revalue
      (fun q => if q = p then Obj.overwrite o.address servers else id) id
    { s with
      cluster := cluster.setNode p
        ((cluster.nodes p).clientRequest { o with registry := servers } (-1)) }

/-- A request to node `p`. Where the handler answers an error, nothing has changed. -/
def call (s : NameServer n) (p : Fin n) (handle : Registry → Except String Registry)
    (owe : Owed → Owed) : NameServer n :=
  match s.read p with
  | none => s
  | some servers =>
    match handle servers with
    | .error _ => s
    | .ok servers' => { s.submit p servers' with owed := owe s.owed }

/-- One round of the monitor thread of node `p`, which ends with the first exception. -/
def monitor (s : NameServer n) (p : Fin n) (now : ℚ) : NameServer n :=
  match s.read p with
  -- the exception ends the thread of the monitor
  | none => { s with monitors := Function.update s.monitors p false }
  | some servers =>
    { s.submit p (monitorClients now servers) with
      owed := s.owed.monitor servers (monitorClients now servers) }

/-- What an action does; `none` if it cannot happen. The monitor thread of a node that does
not lead does nothing. -/
def exec (s : NameServer n) : Action n → Option (NameServer n)
  | .raft e => if isThread e then (s.cluster.exec e).map s.settle else none
  | .register p ip port serviceName now =>
    some (s.call p (Namesvr.register ip port serviceName now)
      fun owed => owed.register ⟨ip, port⟩ serviceName)
  | .heartbeat p ip port cpuUsage memoryUsage now =>
    some (s.call p (Namesvr.heartbeat ip port cpuUsage memoryUsage now)
      fun owed => owed.heartbeat ⟨ip, port⟩ now)
  | .monitorClients p now =>
    if s.monitors p ∧ (s.cluster.nodes p).currentRole = .leader then some (s.monitor p now)
    else none

end NameServer

/-- The transition system of the name server. -/
def nameServerSystem (n : ℕ) : TransitionSystem (NameServer n) (Action n) :=
  .ofExec NameServer.init NameServer.exec

end DreamboatRpc.Namesvr
