import DreamboatRpc.CS.FifoNetwork
import DreamboatRpc.CS.Transition
import DreamboatRpc.Raft.Roles

/-!
# The cluster

The nodes run their loops independently and talk over FIFO channels that may
delay and lose messages. An event is one iteration of the thread of one node, with
the channel it takes a message from and the timers that have expired, a call of
the client interface, or the loss of a message.
-/

namespace DreamboatRpc.Raft

open CS

/-! The nodes of a cluster of two, or of three, are written as numerals. -/

instance neZero_two : NeZero 2 := ⟨by decide⟩

instance neZero_three : NeZero 3 := ⟨by decide⟩

/-- A cluster: its nodes and the packets under way between them. -/
structure Cluster (n : ℕ) (V : Type*) where
  nodes : Fin n → Node n V
  net : FifoNetwork (Fin n) (Packet n V)

/-- What can happen next in a cluster. -/
inductive Event (n : ℕ) (V : Type*)
  | run (p : Fin n)
  | follower (p : Fin n) (source : Option (Fin n)) (timeout : Bool)
  | candidate (p : Fin n) (source : Option (Fin n)) (timeout : Bool)
  | leader (p : Fin n) (heartbeat : Bool) (expired : Fin n → Bool) (source : Option (Fin n))
  | clientRequest (p : Fin n) (value : V) (idNum : ℤ)
  | pause (p : Fin n)
  | unPause (p : Fin n)
  | lose (src dst : Fin n) (i : ℕ)

namespace Cluster

variable {n : ℕ} {V : Type*}

/-- The cluster before any node has started. -/
def init [EmptyCollection V] : Cluster n V where
  nodes := Node.init
  net := FifoNetwork.empty

/-- Replace one node. -/
def setNode (s : Cluster n V) (p : Fin n) (nd : Node n V) : Cluster n V :=
  { s with nodes := Function.update s.nodes p nd }

/-- Hand what node `p` has put in its talker to the network. -/
def publish (s : Cluster n V) (p : Fin n) : Cluster n V where
  nodes := Function.update s.nodes p
    { s.nodes p with talker := [], incomingMessage := none }
  net := s.net.send p (s.nodes p).talker

/-- Node `p` takes the oldest message of a channel, if it takes one. -/
def take (s : Cluster n V) (p : Fin n) :
    Option (Fin n) → Option (Cluster n V × Option (Fin n × Packet n V))
  | none => some (s, none)
  | some q =>
    match s.net q p with
    | [] => none
    | packet :: rest => some ({ s with net := s.net.setChannel q p rest }, some (q, packet))

/-- The thread of `p` takes a message, if it takes one, and runs `body`; then
everything it sent is on its way. -/
def thread (s : Cluster n V) (p : Fin n) (source : Option (Fin n))
    (body : Option (Fin n × Message n V) → Node n V) : Option (Cluster n V) :=
  (s.take p source).map fun (taken, incoming) =>
    (taken.setNode p (body (incoming.map fun (q, packet) => (q, packet.message)))).publish p

/-- What an event does; `none` if it cannot happen. A loop whose condition fails, or
that ends before it looks for a message, takes none. -/
def exec [EmptyCollection V] (s : Cluster n V) : Event n V → Option (Cluster n V)
  | .run p =>
    if (s.nodes p).loop = .run then s.thread p none fun _ => (s.nodes p).run else none
  | .follower p source timeout =>
    if (s.nodes p).loop = .follower ∧ (source = none ∨ (s.nodes p).currentRole = .follower) then
      s.thread p source fun incoming => (s.nodes p).follower incoming timeout
    else none
  | .candidate p source timeout =>
    match (s.nodes p).loop with
    | .candidate votesForMe totalVotes =>
      if source = none ∨ (s.nodes p).currentRole = .candidate then
        s.thread p source fun incoming =>
          (s.nodes p).candidate votesForMe totalVotes incoming timeout
      else none
    | _ => none
  -- the resend loop comes before `_get_message`, and may raise
  | .leader p heartbeat expired source =>
    if (s.nodes p).loop = .leader ∧ (source = none ∨ (s.nodes p).currentRole = .leader ∧
        ((s.nodes p).leaderSends heartbeat expired).loop = .leader) then
      s.thread p source fun incoming => (s.nodes p).leader heartbeat expired incoming
    else none
  -- these come from other threads than that of the node, at any time
  | .clientRequest p value idNum => some (s.setNode p ((s.nodes p).clientRequest value idNum))
  | .pause p => some (s.setNode p (s.nodes p).pause)
  | .unPause p => some (s.setNode p (s.nodes p).unPause)
  | .lose src dst i => some { s with net := s.net.lose src dst i }

end Cluster

/-- The transition system of a cluster of `n` nodes. -/
def clusterSystem (n : ℕ) (V : Type*) [EmptyCollection V] :
    TransitionSystem (Cluster n V) (Event n V) :=
  .ofExec Cluster.init Cluster.exec

end DreamboatRpc.Raft
