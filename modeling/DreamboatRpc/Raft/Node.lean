import Mathlib.Algebra.Ring.Nat
import Mathlib.Data.List.FinRange
import Mathlib.Data.List.Sort
import Mathlib.Logic.Function.Basic
import DreamboatRpc.Raft.Protocol

/-!
# The state of a `RaftNode` and its helper methods

Every method of `RaftNode` that changes the node is a function from node to
node; what it sends is appended to `talker`, the queue of the outgoing process.
Timers are not modelled: whether one has expired is an input of the role loops.
-/

namespace DreamboatRpc.Raft

/-- The attributes of a `RaftNode`. `nextIndex` and `matchIndex` are indexed by the
position of a node in `all_ids`; the heads of `logHash` are the latest bindings. -/
structure Node (n : ℕ) (V : Type*) where
  myId : Fin n
  currentRole : Role
  leaderId : Option (Fin n)
  currentTerm : ℕ
  votedFor : Option (Fin n)
  log : List (Entry V)
  logHash : List (ℤ × Entry V)
  commitIndex : ℕ
  lastAppliedIndex : ℕ
  lastAppliedTerm : ℕ
  nextIndex : Fin n → Option ℕ
  matchIndex : Fin n → ℕ
  clientQueue : List (Entry V)
  talker : List (Option (Fin n) × Packet n V)
  /-- The message in hand, a local variable of the role loops. -/
  incomingMessage : Option (Message n V)
  loop : Loop

namespace Node

variable {n : ℕ} {V : Type*}

section Init

variable [EmptyCollection V]

/-- The entry every log starts with. -/
def initialEntry : Entry V := { term := 1, entry := {}, id := -1 }

/-- The state `__init__` leaves a node in. -/
def init (myId : Fin n) : Node n V where
  myId := myId
  currentRole := .follower
  leaderId := none
  currentTerm := 1
  votedFor := none
  log := [initialEntry]
  logHash := []
  commitIndex := 0
  lastAppliedIndex := 0
  lastAppliedTerm := 1
  nextIndex := fun _ => none
  matchIndex := fun _ => 0
  clientQueue := []
  talker := []
  incomingMessage := none
  loop := .run

end Init

/-! ## Client interface -/

/-- `client_request`: enqueue a value, stamped with the present term. -/
def clientRequest (nd : Node n V) (value : V) (idNum : ℤ) : Node n V :=
  { nd with clientQueue := nd.clientQueue ++ [⟨nd.currentTerm, value, idNum⟩] }

/-- `check_committed_entry` without an id: the value at the commit index, or
`none` where the index is outside the log and Python raises. -/
def checkCommittedEntry (nd : Node n V) : Option V :=
  nd.log[nd.commitIndex]?.map Entry.entry

/-- `check_committed_entry` with an id: the entry that `log_hash` has for it. -/
def checkCommittedEntryById (nd : Node n V) (idNum : ℤ) : Option (Entry V) :=
  nd.logHash.lookup idNum

/-- `pause` -/
def pause (nd : Node n V) : Node n V := { nd with currentRole := .none }

/-- `un_pause` -/
def unPause (nd : Node n V) : Node n V :=
  if nd.currentRole = .none then { nd with currentRole := .follower } else nd

/-! ## Log and term -/

/-- `_log_max_index` -/
def logMaxIndex (nd : Node n V) : ℕ := nd.log.length - 1

/-- `_increment_term`: clear the vote and move to the given term, the next one by default. -/
def incrementTerm (nd : Node n V) (term : Option ℕ) : Node n V :=
  { nd with votedFor := none, currentTerm := term.getD (nd.currentTerm + 1) }

/-- `_verify_entry` -/
def verifyEntry (nd : Node n V) (prevIndex prevTerm : ℕ) : Bool :=
  match nd.log[prevIndex]? with
  | none => false
  | some e => e.term == prevTerm

/-- `_commit_entry` -/
def commitEntry (nd : Node n V) (index term : ℕ) : Node n V :=
  { nd with lastAppliedIndex := index, lastAppliedTerm := term, commitIndex := index }

/-- `self.log[-1]['term']`; a log is never empty. -/
def lastLogTerm (nd : Node n V) : ℕ := (nd.log.getLast?.map Entry.term).getD 0

/-- The cut `_append_entry` makes when it is given an index. -/
def cutLog (nd : Node n V) : Option ℕ → Node n V
  | none => nd
  | some prevIndex => { nd with log := nd.log.take (prevIndex + 1) }

/-- `_append_entry`; returns the node, `prev_index` and `prev_term`. -/
def appendEntry (nd : Node n V) (entry : Entry V) (commit : Bool) (prevIndex : Option ℕ) :
    Node n V × ℕ × ℕ :=
  -- the length is read before the cut, the last term after it
  let index := prevIndex.getD (nd.log.length - 1)
  let cut := nd.cutLog prevIndex
  let appended :=
    { cut with log := cut.log ++ [entry], logHash := (entry.id, entry) :: cut.logHash }
  (if commit then appended.commitEntry index entry.term else appended, index, cut.lastLogTerm)

/-! ## Messages -/

/-- `_send_message`; a message without a receiver goes to every node. -/
def sendMessage (nd : Node n V) (receiver : Option (Fin n)) (message : Message n V) :
    Node n V :=
  { nd with talker := nd.talker ++ [(receiver, ⟨message, nd.incomingMessage⟩)] }

/-- `_send_request_vote` -/
def sendRequestVote (nd : Node n V) : Node n V :=
  nd.sendMessage none (.requestVotes nd.currentTerm nd.lastAppliedIndex nd.lastAppliedTerm)

/-- `_send_vote`; a refusal, too, is recorded in `voted_for`. -/
def sendVote (nd : Node n V) (candidate : Fin n) (voteGranted : Bool) : Node n V :=
  { nd.sendMessage (some candidate) (.vote nd.currentTerm voteGranted) with
    votedFor := some candidate }

/-- `_send_heartbeat` -/
def sendHeartbeat (nd : Node n V) : Node n V :=
  nd.sendMessage none (.heartbeat nd.currentTerm nd.myId)

/-- `_send_append_entries` -/
def sendAppendEntries (nd : Node n V) (index term : ℕ) (entries : Entry V)
    (receiver : Fin n) : Node n V :=
  nd.sendMessage (some receiver)
    (.appendEntries nd.currentTerm nd.myId index term entries nd.commitIndex)

/-- `_send_committal`; the index the caller passes is not used. -/
def sendCommittal (nd : Node n V) (receiver : Fin n) : Node n V :=
  nd.sendMessage (some receiver)
    (.committal nd.currentTerm nd.lastAppliedIndex nd.lastAppliedTerm)

/-- `_send_acknowledge` -/
def sendAcknowledge (nd : Node n V) (receiver : Fin n) (success : Bool) : Node n V :=
  nd.sendMessage (some receiver) (.acknowledge nd.currentTerm success)

/-- `_send_client_request` -/
def sendClientRequest (nd : Node n V) (receiver : Fin n) (entry : Entry V) : Node n V :=
  nd.sendMessage (some receiver) (.clientRequest nd.currentTerm entry)

/-! ## Broadcasts of a leader -/

/-- The body of the loop in `_broadcast_append_entries`: only nodes that are up to
date are sent the new entry, and from then on they are not. -/
def offerEntry (prevIndex prevTerm : ℕ) (entry : Entry V) (nd : Node n V) (node : Fin n) :
    Node n V :=
  match nd.nextIndex node with
  | none =>
    { nd.sendAppendEntries prevIndex prevTerm entry node with
      nextIndex := Function.update nd.nextIndex node (some nd.logMaxIndex) }
  | some _ => nd

/-- The end of `_broadcast_append_entries`: the node itself is up to date. -/
def updateOwnIndices (nd : Node n V) : Node n V :=
  { nd with
    nextIndex := Function.update nd.nextIndex nd.myId none
    matchIndex := Function.update nd.matchIndex nd.myId nd.logMaxIndex }

/-- `_broadcast_append_entries` -/
def broadcastAppendEntries (nd : Node n V) (entry : Entry V) : Node n V :=
  let (appended, prevIndex, prevTerm) := nd.appendEntry entry false none
  ((List.finRange n).foldl (offerEntry prevIndex prevTerm entry) appended).updateOwnIndices

/-- `_broadcast_commmit_entries`. Its test `index >= index` is always true, so every
node is told. Reading the log outside its range ends the thread. -/
def broadcastCommmitEntries (nd : Node n V) (index : ℕ) : Node n V :=
  match nd.log[index]? with
  | none => { nd with loop := .crashed }
  | some e => (List.finRange n).foldl sendCommittal (nd.commitEntry index e.term)

end Node

end DreamboatRpc.Raft
