import Mathlib.Data.Int.Notation
import Mathlib.Data.Fin.Basic

/-!
# The messages of the name-service cluster

The name service (`namesvr/raft`) is a cluster of `n` nodes. A node is named by
its position in `all_ids`; every node is given the same list. `V` is the type of
the values that clients submit.

`protocol.py` has two message classes and tells messages apart by `type` and
`direction`. Here each combination that is ever sent is a constructor, which
carries the fields some handler reads. The sender is the channel a message
arrives on, and the receiver the channel it is put on.
-/

namespace DreamboatRpc.Raft

/-- A log entry: a dict with the fields `term`, `entry` and `id`. -/
structure Entry (V : Type*) where
  term : ℕ
  entry : V
  id : ℤ
  deriving DecidableEq, Repr

/-- The messages nodes exchange. -/
inductive Message (n : ℕ) (V : Type*)
  /-- `RequestVotes`, direction `Request`: a candidate asks for votes. -/
  | requestVotes (term lastLogIndex lastLogTerm : ℕ)
  /-- `RequestVotes`, direction `Response`: a vote for or against the receiver. -/
  | vote (term : ℕ) (voteGranted : Bool)
  | heartbeat (term : ℕ) (leaderId : Fin n)
  | appendEntries (term : ℕ) (leaderId : Fin n) (prevLogIndex prevLogTerm : ℕ)
      (entries : Entry V) (leaderCommit : ℕ)
  | committal (term prevLogIndex prevLogTerm : ℕ)
  | acknowledge (term : ℕ) (success : Bool)
  | clientRequest (term : ℕ) (entries : Entry V)
  deriving DecidableEq, Repr

/-- The term a message is stamped with. -/
def Message.term {n : ℕ} {V : Type*} : Message n V → ℕ
  | .requestVotes term _ _ | .vote term _ | .heartbeat term _ | .committal term _ _
  | .acknowledge term _ | .clientRequest term _ => term
  | .appendEntries term _ _ _ _ _ => term

/-- The entry of a client request. -/
def Message.request {n : ℕ} {V : Type*} : Message n V → Option (Entry V)
  | .clientRequest _ entries => some entries
  | _ => none

/-- A message under way. `cause` is a history variable that no node reads: the
message whose handling sent this one. -/
structure Packet (n : ℕ) (V : Type*) where
  message : Message n V
  cause : Option (Message n V)
  deriving DecidableEq, Repr

/-- The roles of a node; `none` is the role of a paused one. -/
inductive Role
  | follower
  | candidate
  | leader
  | none
  deriving DecidableEq, Repr

/-- Where the thread of a node is: in the loop of `run`, in one of the role loops
with its local variables, or ended by an exception. -/
inductive Loop
  | run
  | follower
  | candidate (votesForMe totalVotes : ℕ)
  | leader
  | crashed
  deriving DecidableEq, Repr

end DreamboatRpc.Raft
