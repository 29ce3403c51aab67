import DreamboatRpc.CS.PubSub
import DreamboatRpc.CS.Simulation
import DreamboatRpc.Raft.ThreadsAlive
import DreamboatRpc.Raft.Wire

/-!
# The cluster as it is deployed

Each node has a `Talker`, a process that broadcasts what the node queues, and a `Listener`,
one that keeps what it receives and is addressed to the node; what travels is JSON. A
broadcast does not reach a listener that is not connected, and what is under way may get lost.

All this is one way for the channels of the cluster to behave: whatever state the deployed
nodes reach, the nodes of the cluster reach it too, with the same messages under way.

## Main definitions

* `Deployment` — the nodes, and the messages in queues and pipes
* `Deployment.Handles` — an iteration on the message the listener has, if it has one
* `deploymentSystem` — the deployed cluster
* `Carries` — the dictionary on the wire is one of a message

## Main results

* `thread_step` — an iteration of a deployed node is one of the node of the cluster
* `deployment_simulates` — so is every step, up to the loss of messages
* `deployment_refines` — the reachable states, and that every message can be read
-/

namespace DreamboatRpc.Raft

open CS FifoNetwork Namesvr

variable {n : ℕ}

/-- The nodes with their talkers and listeners. What a node has sent in an iteration is in
the queue of its talker, and no longer in the node. -/
structure Deployment (n : ℕ) where
  nodes : Fin n → Node n Json
  bus : PubSub (Fin n) Json

/-- What can happen next: an iteration of the thread of a node, which finds a message or not; a
call of the client interface; a step of a talker or a listener; or the loss of a message. -/
inductive DeploymentEvent (n : ℕ)
  | run (p : Fin n)
  | follower (p : Fin n) (found timeout : Bool)
  | candidate (p : Fin n) (found timeout : Bool)
  | leader (p : Fin n) (heartbeat : Bool) (expired : Fin n → Bool) (found : Bool)
  | clientRequest (p : Fin n) (value : Json) (idNum : ℤ)
  | pause (p : Fin n)
  | unPause (p : Fin n)
  | publish (p : Fin n) (connected : Fin n → Bool)
  | deliver (src dst : Fin n)
  | drop (src dst : Fin n) (i : ℕ)

/-- The dictionary is one that node `p` makes of a message for a receiver, in some state. -/
def Written (ids : Fin n → String) (p : Fin n) (m : Option (Fin n) × Packet n Json)
    (wire : Json) : Prop :=
  ∃ (nd : Node n Json) (now : ℤ), nd.myId = p ∧
    wire = (nd.wire ids now m.1 m.2.message).jsonify

namespace Deployment

/-- No process has started. -/
def init : Deployment n where
  nodes := Node.init
  bus := PubSub.empty

/-- What `listener.get_message` leaves and returns; the queue may seem to be empty. -/
def getMessage (d : Deployment n) (p : Fin n) :
    Bool → Option (PubSub (Fin n) Json × Option Json)
  | false => some (d.bus, none)
  | true => (d.bus.get? p).map fun (bus, _, wire) => (bus, some wire)

/-- The thread of `p` looks for a message and runs `body`, and what it sends is queued. A
message that cannot be read may do anything to the node. -/
def Handles (ids : Fin n → String) (d d' : Deployment n) (p : Fin n) (found : Bool)
    (body : Option (Fin n × Message n Json) → Node n Json) : Prop :=
  ∃ bus wire nd out, d.getMessage p found = some (bus, wire) ∧
    (match wire with
    | none => nd = body none
    | some wire => ∀ m, receiveJson ids wire = some m → nd = body (some m)) ∧
    List.Forall₂ (Written ids p) nd.talker out ∧
    d' = ⟨Function.update d.nodes p { nd with talker := [], incomingMessage := none },
      bus.put p out⟩

/-- After an iteration without a message that has made `nd` of the node, at the time `now`. -/
def iterated (ids : Fin n → String) (d : Deployment n) (p : Fin n) (now : ℤ) (nd : Node n Json) :
    Deployment n :=
  ⟨Function.update d.nodes p { nd with talker := [], incomingMessage := none },
    d.bus.put p (nd.talker.map fun m => (nd.wire ids now m.1 m.2.message).jsonify)⟩

theorem handles_iterated {ids : Fin n → String} {d : Deployment n} {p : Fin n} (now : ℤ)
    (body : Option (Fin n × Message n Json) → Node n Json) (hid : (body none).myId = p) :
    d.Handles ids (d.iterated ids p now (body none)) p false body := by
  refine ⟨d.bus, none, body none, _, rfl, rfl, ?_, rfl⟩
  rw [List.forall₂_map_right_iff, List.forall₂_same]
  exact fun m _ => ⟨body none, now, hid, rfl⟩

/-- A call of the client interface. -/
def setNode (d : Deployment n) (p : Fin n) (nd : Node n Json) : Deployment n :=
  { d with nodes := Function.update d.nodes p nd }

/-- What an event can do. -/
def Step (ids : Fin n → String) (d : Deployment n) :
    DeploymentEvent n → Deployment n → Prop
  | .run p, d' => (d.nodes p).loop = .run ∧ d.Handles ids d' p false fun _ => (d.nodes p).run
  | .follower p found timeout, d' =>
    (d.nodes p).loop = .follower ∧ (found = false ∨ (d.nodes p).currentRole = .follower) ∧
      d.Handles ids d' p found fun incoming => (d.nodes p).follower incoming timeout
  | .candidate p found timeout, d' =>
    ∃ votesForMe totalVotes, (d.nodes p).loop = .candidate votesForMe totalVotes ∧
      (found = false ∨ (d.nodes p).currentRole = .candidate) ∧
      d.Handles ids d' p found fun incoming =>
        (d.nodes p).candidate votesForMe totalVotes incoming timeout
  -- the resend loop comes before `_get_message`, and may raise
  | .leader p heartbeat expired found, d' =>
    (d.nodes p).loop = .leader ∧ (found = false ∨ (d.nodes p).currentRole = .leader ∧
        ((d.nodes p).leaderSends heartbeat expired).loop = .leader) ∧
      d.Handles ids d' p found fun incoming => (d.nodes p).leader heartbeat expired incoming
  | .clientRequest p value idNum, d' =>
    d' = d.setNode p ((d.nodes p).clientRequest value idNum)
  | .pause p, d' => d' = d.setNode p (d.nodes p).pause
  | .unPause p, d' => d' = d.setNode p (d.nodes p).unPause
  | .publish p connected, d' => ∃ bus, d.bus.publish p connected = some bus ∧ d' = { d with bus }
  | .deliver src dst, d' =>
    ∃ bus, d.bus.deliver (accepts ids) src dst = some bus ∧ d' = { d with bus }
  | .drop src dst i, d' => d' = { d with bus := d.bus.drop src dst i }

end Deployment

/-- The deployed cluster, with the addresses of its nodes. -/
def deploymentSystem (ids : Fin n → String) :
    TransitionSystem (Deployment n) (DeploymentEvent n) where
  init d := d = Deployment.init
  step := Deployment.Step ids

/-! ## The channels -/

section Channels

variable {ids : Fin n → String} {p q : Fin n} {d d' : Deployment n} {s : Cluster n Json}

/-- A packet of the cluster is on the wire as one of its dictionaries. -/
def Carries (ids : Fin n → String) (p : Fin n) (packet : Packet n Json) (wire : Json) : Prop :=
  ∃ receiver, Written ids p (receiver, packet) wire

/-- What is carried can be read. -/
theorem Carries.receive {packet : Packet n Json} {wire : Json} (hids : Function.Injective ids)
    (h : Carries ids p packet wire) : receiveJson ids wire = some (p, packet.message) := by
  obtain ⟨receiver, nd, now, rfl, rfl⟩ := h
  exact receiveJson_wire hids nd now receiver packet.message

/-- The cluster is in the state of the deployment: the nodes are the same, and every channel
holds what is carried by the queues and pipes. -/
structure Deployed (ids : Fin n → String) (d : Deployment n) (s : Cluster n Json) : Prop where
  nodes : s.nodes = d.nodes
  net : ∀ p q, List.Forall₂ (Carries ids p) (s.net p q) (d.bus.channel (accepts ids) p q)

/-- Of what a node has queued, a listener keeps what the channel to its node is given. -/
theorem forall₂_addressedTo (hids : Function.Injective ids)
    {out : List (Option (Fin n) × Packet n Json)} {wires : List Json}
    (h : List.Forall₂ (Written ids p) out wires) (q : Fin n) :
    List.Forall₂ (Carries ids p) (addressedTo q out) (wires.filter (accepts ids q)) := by
  induction h with
  | nil => exact .nil
  | @cons m wire out wires hm _ ih =>
    have haccepts : accepts ids q wire = decide (m.1 = none ∨ m.1 = some q) := by
      obtain ⟨nd, now, -, rfl⟩ := hm
      exact accepts_wire hids nd now m.1 m.2.message q
    have hcarries : Carries ids p m.2 wire := ⟨m.1, hm⟩
    by_cases hq : m.1 = none ∨ m.1 = some q
    · rw [List.filter_cons_of_pos (by rw [haccepts, decide_eq_true hq])]
      simp only [addressedTo, List.filterMap_cons, if_pos hq]
      exact .cons hcarries ih
    · rw [List.filter_cons_of_neg (by rw [haccepts, decide_eq_false hq]; simp)]
      simp only [addressedTo, List.filterMap_cons, if_neg hq]
      exact ih

/-- A sublist of what is on the wire is that of a sublist of the packets. -/
theorem sublist_of_forall₂ {α β : Type*} {R : α → β → Prop} {l : List α} {k k' : List β}
    (h : List.Forall₂ R l k) (hsub : k'.Sublist k) :
    ∃ l', l'.Sublist l ∧ List.Forall₂ R l' k' := by
  induction hsub generalizing l with
  | slnil => exact ⟨[], List.nil_sublist _, .nil⟩
  | cons b _ ih =>
    cases h with
    | @cons a _ l _ _ hrest =>
      obtain ⟨l', hl', hR⟩ := ih hrest
      exact ⟨l', hl'.cons a, hR⟩
  | cons_cons b _ ih =>
    cases h with
    | @cons a _ l _ hab hrest =>
      obtain ⟨l', hl', hR⟩ := ih hrest
      exact ⟨a :: l', hl'.cons_cons a, .cons hab hR⟩

/-- When queues and pipes lose messages, the cluster loses them one by one. -/
theorem Deployed.lose {bus : PubSub (Fin n) Json} (h : Deployed ids d s)
    (hsub : ∀ p q, (bus.channel (accepts ids) p q).Sublist (d.bus.channel (accepts ids) p q)) :
    ∃ s', (clusterSystem n Json).Steps s s' ∧ Deployed ids { d with bus } s' := by
  choose net hnet hcarries using fun p q => sublist_of_forall₂ (h.net p q) (hsub p q)
  refine ⟨{ s with net := net }, ?_, h.nodes, hcarries⟩
  exact (Cluster.loses (G := unguarded) (fun _ _ _ _ => trivial) hnet).steps

/-! ## One iteration -/

/-- An iteration on what the listener has found is one on the oldest message of a channel. -/
theorem thread_step (hids : Function.Injective ids) (h : Deployed ids d s) {found : Bool}
    {body : Option (Fin n × Message n Json) → Node n Json} (hd : d.Handles ids d' p found body) :
    ∃ source s', (found = false → source = none) ∧ s.thread p source body = some s' ∧
      Deployed ids d' s' := by
  obtain ⟨bus, wire, nd, out, hget, hnd, hout, rfl⟩ := hd
  -- what the cluster takes, and what is left of its channels
  have htake : ∃ source taken incoming, (found = false → source = none) ∧
      s.take p source = some (taken, incoming) ∧ taken.nodes = s.nodes ∧
      nd = body (incoming.map fun (q, packet) => (q, packet.message)) ∧
      ∀ a b, List.Forall₂ (Carries ids a) (taken.net a b) (bus.channel (accepts ids) a b) := by
    cases found with
    | false =>
      simp only [Deployment.getMessage, Option.some.injEq, Prod.mk.injEq] at hget
      obtain ⟨rfl, rfl⟩ := hget
      exact ⟨none, s, none, fun _ => rfl, rfl, rfl, hnd, h.net⟩
    | true =>
      simp only [Deployment.getMessage, Option.map_eq_some_iff, Prod.mk.injEq] at hget
      obtain ⟨⟨bus', q, wire'⟩, hget, rfl, rfl⟩ := hget
      obtain ⟨hhead, hother⟩ := PubSub.get?_channel hget
      -- the oldest message of the listener is the oldest of the channel from its sender
      have hchannel := h.net q p
      rw [hhead] at hchannel
      obtain ⟨packet, rest, hcarries, hrest, hnet⟩ := List.forall₂_cons_right_iff.mp hchannel
      refine ⟨some q, { s with net := s.net.setChannel q p rest }, some (q, packet), by simp,
        by simp only [Cluster.take, hnet], rfl, hnd _ (hcarries.receive hids), fun a b => ?_⟩
      by_cases hab : a = q ∧ b = p
      · obtain ⟨rfl, rfl⟩ := hab
        simp only [setChannel_same]
        exact hrest
      · simp only
        rw [setChannel_of_ne _ _ hab, hother a b hab]
        exact h.net a b
  obtain ⟨source, taken, incoming, hsource, htake, hnodes, rfl, hnet⟩ := htake
  refine ⟨source, _, hsource, by rw [Cluster.thread, htake]; rfl, ?_, fun a b => ?_⟩
  · rw [← h.nodes, ← hnodes]
    simp only [Cluster.publish, Cluster.setNode, Function.update_idem, Function.update_self]
  · rw [PubSub.channel_put]
    simp only [Cluster.publish, Cluster.setNode, Function.update_self, send]
    split
    · rename_i ha
      subst ha
      exact List.rel_append (hnet a b) (forall₂_addressedTo hids hout b)
    · exact hnet a b

/-- A call of the client interface. -/
theorem Deployed.setNode (h : Deployed ids d s) (p : Fin n) (nd : Node n Json) :
    Deployed ids (d.setNode p nd) (s.setNode p nd) := by
  refine ⟨?_, h.net⟩
  rw [Cluster.setNode, Deployment.setNode, h.nodes]

end Channels

/-! ## All steps -/

section Simulation

variable {ids : Fin n → String} {d d' : Deployment n} {s : Cluster n Json}

theorem deployed_init : Deployed ids Deployment.init (Cluster.init : Cluster n Json) :=
  ⟨rfl, fun _ _ => .nil⟩

theorem step_of_exec {e : Event n Json} {s' : Cluster n Json} (h : s.exec e = some s') :
    (clusterSystem n Json).Steps s s' :=
  .single ⟨e, h⟩

/-- Every step of the deployed cluster is one of the cluster, or some of its messages get lost,
or one gets on its way. -/
theorem deployment_step (hids : Function.Injective ids) {e : DeploymentEvent n}
    (h : Deployed ids d s) (hd : d.Step ids e d') :
    ∃ s', (clusterSystem n Json).Steps s s' ∧ Deployed ids d' s' := by
  cases e with
  | run p =>
    obtain ⟨hloop, hd⟩ := hd
    obtain ⟨source, s', hsource, hthread, hs'⟩ := thread_step hids h hd
    rw [← h.nodes] at hloop hthread
    obtain rfl := hsource rfl
    exact ⟨s', step_of_exec (e := .run p) (by simp only [Cluster.exec, if_pos hloop, hthread]), hs'⟩
  | follower p found timeout =>
    obtain ⟨hloop, hrole, hd⟩ := hd
    obtain ⟨source, s', hsource, hthread, hs'⟩ := thread_step hids h hd
    rw [← h.nodes] at hloop hrole hthread
    have hcond := And.intro hloop (hrole.imp_left hsource)
    exact ⟨s', step_of_exec (e := .follower p source timeout)
      (by simp only [Cluster.exec, if_pos hcond, hthread]), hs'⟩
  | candidate p found timeout =>
    obtain ⟨k, m, hloop, hrole, hd⟩ := hd
    obtain ⟨source, s', hsource, hthread, hs'⟩ := thread_step hids h hd
    rw [← h.nodes] at hloop hrole hthread
    have hcond := hrole.imp_left hsource
    exact ⟨s', step_of_exec (e := .candidate p source timeout)
      (by simp only [Cluster.exec, hloop, if_pos hcond, hthread]), hs'⟩
  | leader p heartbeat expired found =>
    obtain ⟨hloop, hrole, hd⟩ := hd
    obtain ⟨source, s', hsource, hthread, hs'⟩ := thread_step hids h hd
    rw [← h.nodes] at hloop hrole hthread
    have hcond := And.intro hloop (hrole.imp_left hsource)
    exact ⟨s', step_of_exec (e := .leader p heartbeat expired source)
      (by simp only [Cluster.exec, if_pos hcond, hthread]), hs'⟩
  | clientRequest p value idNum =>
    obtain rfl := hd
    rw [← h.nodes]
    exact ⟨_, step_of_exec (e := .clientRequest p value idNum) rfl, h.setNode p _⟩
  | pause p =>
    obtain rfl := hd
    rw [← h.nodes]
    exact ⟨_, step_of_exec (e := .pause p) rfl, h.setNode p _⟩
  | unPause p =>
    obtain rfl := hd
    rw [← h.nodes]
    exact ⟨_, step_of_exec (e := .unPause p) rfl, h.setNode p _⟩
  | publish p connected =>
    obtain ⟨bus, hbus, rfl⟩ := hd
    exact h.lose fun a b => PubSub.publish_channel hbus
  | deliver src dst =>
    obtain ⟨bus, hbus, rfl⟩ := hd
    refine ⟨s, .refl, h.nodes, fun a b => ?_⟩
    rw [PubSub.deliver_channel hbus]
    exact h.net a b
  | drop src dst i =>
    obtain rfl := hd
    exact h.lose fun a b => PubSub.drop_channel i

theorem deployment_simulates (hids : Function.Injective ids) :
    TransitionSystem.Simulates (deploymentSystem ids) (clusterSystem n Json) (Deployed ids) where
  init d hd := by
    obtain rfl : d = Deployment.init := hd
    exact ⟨Cluster.init, rfl, deployed_init⟩
  step _ _ _ _ h _ hd := deployment_step hids h hd

/-- Whatever state the deployed nodes reach, if no two have the same address: the nodes of the
cluster reach it with the same messages under way. In particular no thread has ended, and every
message in the queue of a listener is taken for what its sender said. -/
theorem deployment_refines (hids : Function.Injective ids)
    (h : (deploymentSystem ids).Reachable unguarded d) :
    (∃ s, (clusterSystem n Json).Reachable unguarded s ∧ Deployed ids d s) ∧
    (∀ p, (d.nodes p).loop ≠ .crashed) ∧
    ∀ p, ∀ m ∈ d.bus.inbox p, ∃ message, receiveJson ids m.2 = some (m.1, message) := by
  obtain ⟨s, hs, hdeployed⟩ := (deployment_simulates hids).reachable h
  refine ⟨⟨s, hs, hdeployed⟩, fun p => ?_, fun p m hm => ?_⟩
  · obtain ⟨history, hrun⟩ := hs
    rw [← hdeployed.nodes]
    exact (Cluster.alive_of_reachable ⟨_, unreliable_run hrun⟩).loop p
  · have hchannel : m.2 ∈ d.bus.channel (accepts ids) m.1 p := by
      refine List.mem_append_left _ (List.mem_filterMap.mpr ⟨m, hm, ?_⟩)
      rw [if_pos rfl]
    obtain ⟨packets, -, hcarried⟩ :=
      sublist_of_forall₂ (hdeployed.net m.1 p) (List.singleton_sublist.mpr hchannel)
    obtain ⟨packet, _, hcarries, -, -⟩ := List.forall₂_cons_right_iff.mp hcarried
    exact ⟨_, hcarries.receive hids⟩

end Simulation

/-- Node `0` of two has asked for votes: its talker has published the request, and the listener of
node `1` has got it. -/
theorem deployment_refines_requestVotes : ∃ d : Deployment 2, (d.bus.inbox 1).length = 1 ∧
    (∃ s, (clusterSystem 2 Json).Reachable unguarded s ∧ Deployed localAddress d s) ∧
      ∀ m ∈ d.bus.inbox 1, ∃ message, receiveJson localAddress m.2 = some (m.1, message) := by
  let started := Deployment.init.iterated localAddress 0 100 (Node.init (0 : Fin 2)).run
  let waited := started.iterated localAddress 0 101 ((started.nodes 0).follower none true)
  let asked := waited.iterated localAddress 0 101 (waited.nodes 0).run
  have hstarted : (deploymentSystem localAddress).step Deployment.init (.run 0) started :=
    ⟨rfl, Deployment.handles_iterated 100 (fun _ => (Node.init (0 : Fin 2)).run) rfl⟩
  have hwaited : (deploymentSystem localAddress).step started (.follower 0 false true) waited :=
    ⟨rfl, .inl rfl,
      Deployment.handles_iterated 101 (fun m => (started.nodes 0).follower m true) rfl⟩
  have hasked : (deploymentSystem localAddress).step waited (.run 0) asked :=
    ⟨rfl, Deployment.handles_iterated 101 (fun _ => (waited.nodes 0).run) rfl⟩
  have harrives : ((asked.bus.publish 0 fun _ => true).bind fun b =>
      b.deliver (accepts localAddress) 0 1).any (fun b => (b.inbox 1).length == 1) = true := by
    decide +kernel
  simp only [Option.any_eq_true, Option.bind_eq_some_iff, beq_iff_eq] at harrives
  obtain ⟨bus, ⟨published, hpublish, hdeliver⟩, hinbox⟩ := harrives
  have hpublished : (deploymentSystem localAddress).step asked (.publish 0 fun _ => true)
      { asked with bus := published } := ⟨published, hpublish, rfl⟩
  have hdelivered : (deploymentSystem localAddress).step { asked with bus := published }
      (.deliver 0 1) { asked with bus := bus } := ⟨bus, hdeliver, rfl⟩
  have hrun : (deploymentSystem localAddress).Run unguarded _ { asked with bus := bus } :=
    .step (.step (.step (.step (.step (.init rfl) trivial hstarted) trivial hwaited) trivial hasked)
      trivial hpublished) trivial hdelivered
  obtain ⟨hreached, -, hread⟩ := deployment_refines localAddress_injective ⟨_, hrun⟩
  exact ⟨_, hinbox, hreached, hread 1⟩

end DreamboatRpc.Raft
