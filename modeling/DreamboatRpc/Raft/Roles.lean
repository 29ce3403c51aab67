import DreamboatRpc.Raft.Node

/-!
# The role loops of a `RaftNode`

`run` and one iteration each of the loops `_follower`, `_candidate` and `_leader`,
with the code before a loop in `enterCandidate` and `enterLeader`. An iteration is
given the message `_get_message` returns, with its sender, and which of its timers
have expired.
-/

namespace DreamboatRpc.Raft.Node

variable {n : ℕ} {V : Type*}

/-! ## `_follower` -/

/-- `_follower`, on a `RequestVotes` request -/
def followerRequestVotes (nd : Node n V) (sender : Fin n)
    (term lastLogIndex lastLogTerm : ℕ) : Node n V :=
  let nd := if term > nd.currentTerm then nd.incrementTerm (some term) else nd
  -- what counts as up to date is what has been committed, not the end of the log
  if nd.votedFor = none ∧ lastLogIndex ≥ nd.lastAppliedIndex ∧
      lastLogTerm ≥ nd.lastAppliedTerm then
    nd.sendVote sender true
  else
    nd.sendVote sender false

/-- Forward the oldest queued client request, if there is one. -/
def forwardClientRequest (nd : Node n V) (leaderId : Fin n) : Node n V :=
  match nd.clientQueue with
  | [] => nd
  | entry :: rest => { nd with clientQueue := rest }.sendClientRequest leaderId entry

/-- `_follower`, on a `Heartbeat` -/
def followerHeartbeat (nd : Node n V) (term : ℕ) (leaderId : Fin n) : Node n V :=
  let nd := if term > nd.currentTerm then nd.incrementTerm (some term) else nd
  { nd with leaderId := some leaderId }.forwardClientRequest leaderId

/-- Whether `_follower` appends the entry of an `AppendEntries`. -/
def acceptsAppendEntries (nd : Node n V) (term prevLogIndex prevLogTerm : ℕ) : Bool :=
  !decide (term < nd.currentTerm) && nd.verifyEntry prevLogIndex prevLogTerm

/-- `_follower`, on an `AppendEntries` -/
def followerAppendEntries (nd : Node n V) (term : ℕ) (leaderId : Fin n)
    (prevLogIndex prevLogTerm : ℕ) (entries : Entry V) (leaderCommit : ℕ) : Node n V :=
  if nd.acceptsAppendEntries term prevLogIndex prevLogTerm then
    -- committed is the predecessor, whatever index the leader has committed
    let commit := decide (leaderCommit > nd.commitIndex)
    (nd.appendEntry entries commit (some prevLogIndex)).1.sendAcknowledge leaderId true
  else
    nd.sendAcknowledge leaderId false

/-- The requests `_follower` handles; it ignores responses. -/
def followerMessage (nd : Node n V) (sender : Fin n) : Message n V → Node n V
  | .requestVotes term lastLogIndex lastLogTerm =>
    nd.followerRequestVotes sender term lastLogIndex lastLogTerm
  | .heartbeat term leaderId => nd.followerHeartbeat term leaderId
  | .appendEntries term leaderId prevLogIndex prevLogTerm entries leaderCommit =>
    nd.followerAppendEntries term leaderId prevLogIndex prevLogTerm entries leaderCommit
  -- neither the term nor the log is looked at
  | .committal _ prevLogIndex prevLogTerm => nd.commitEntry prevLogIndex prevLogTerm
  | .vote _ _ | .acknowledge _ _ | .clientRequest _ _ => nd

/-- Handle the message a loop received, if any. -/
def receive (nd : Node n V) (handle : Node n V → Fin n → Message n V → Node n V) :
    Option (Fin n × Message n V) → Node n V
  | none => nd
  | some (sender, message) => handle { nd with incomingMessage := some message } sender message

/-- One iteration of `_follower`. -/
def follower (nd : Node n V) (incoming : Option (Fin n × Message n V)) (timeout : Bool) :
    Node n V :=
  if nd.currentRole = .follower then
    let nd := nd.receive followerMessage incoming
    if timeout then { nd with currentRole := .candidate, loop := .run } else nd
  else
    { nd with loop := .run }

/-! ## `_candidate` -/

/-- `_candidate` before its loop: a new term, a call for votes and a vote for itself. -/
def enterCandidate (nd : Node n V) : Node n V :=
  let nd := (nd.incrementTerm none).sendRequestVote
  -- its own vote is a message like any other, and is counted when it arrives
  { nd.sendVote nd.myId true with loop := .candidate 0 0 }

/-- `_candidate`, on a vote. The cluster of one node is won by any vote. -/
def candidateVote (nd : Node n V) (votesForMe totalVotes : ℕ) (voteGranted : Bool) :
    Node n V :=
  let votesForMe := if voteGranted then votesForMe + 1 else votesForMe
  if votesForMe > n / 2 ∨ n = 1 then
    { nd with currentRole := .leader, loop := .run }
  else
    { nd with loop := .candidate votesForMe (totalVotes + 1) }

/-- What `_candidate` and `_leader` do on a `RequestVotes` of a higher term: adopt
the term, vote for the sender and step down. -/
def yieldTo (nd : Node n V) (sender : Fin n) (term : ℕ) : Node n V :=
  { (nd.incrementTerm (some term)).sendVote sender true with
    currentRole := .follower, loop := .run }

/-- The messages `_candidate` handles. -/
def candidateMessage (nd : Node n V) (votesForMe totalVotes : ℕ) (sender : Fin n) :
    Message n V → Node n V
  -- a vote of an earlier term counts as well
  | .vote _ voteGranted => nd.candidateVote votesForMe totalVotes voteGranted
  | .requestVotes term _ _ => if term > nd.currentTerm then nd.yieldTo sender term else nd
  | .heartbeat term leaderId =>
    if term ≥ nd.currentTerm then
      -- the vote is cleared even where the term stays the same
      { nd.incrementTerm (some term) with
        leaderId := some leaderId, currentRole := .follower, loop := .run }
    else nd
  | .appendEntries _ _ _ _ _ _ | .committal _ _ _ | .acknowledge _ _ | .clientRequest _ _ => nd

/-- One iteration of `_candidate`; it has not returned while `loop` is not `run`. -/
def candidate (nd : Node n V) (votesForMe totalVotes : ℕ)
    (incoming : Option (Fin n × Message n V)) (timeout : Bool) : Node n V :=
  if nd.currentRole = .candidate then
    let nd := nd.receive (fun nd => nd.candidateMessage votesForMe totalVotes) incoming
    -- a handler that returned has left the loop before the timer is looked at
    if timeout ∧ nd.loop ≠ .run then { nd with currentRole := .candidate, loop := .run } else nd
  else
    { nd with loop := .run }

/-! ## `_leader` -/

/-- `_leader` before its loop -/
def enterLeader [EmptyCollection V] (nd : Node n V) : Node n V :=
  let nd := nd.sendHeartbeat
  let nd := { nd with
    leaderId := some nd.myId
    matchIndex := fun _ => nd.commitIndex
    nextIndex := fun _ => none }
  let entry := { term := nd.currentTerm, entry := {}, id := -1 }
  { nd.broadcastAppendEntries entry with loop := .leader }

/-- Send a node the entry at `index`; reading the log outside its range ends the thread. -/
def sendEntryAt (nd : Node n V) (node : Fin n) (index : ℕ) : Node n V :=
  match nd.log[index - 1]?, nd.log[index]? with
  | some prev, some entry => nd.sendAppendEntries (index - 1) prev.term entry node
  | _, _ => { nd with loop := .crashed }

/-- The body of the resend loop of `_leader`. -/
def resendTo (expired : Fin n → Bool) (nd : Node n V) (node : Fin n) : Node n V :=
  match nd.nextIndex node with
  | some index =>
    if expired node ∧ nd.loop ≠ .crashed then nd.sendEntryAt node index else nd
  | none => nd

/-- `_leader` sends the entry at `next_index` again to every node that is not up to
date and has not been heard from for `resend_time`. -/
def resend (nd : Node n V) (expired : Fin n → Bool) : Node n V :=
  (List.finRange n).foldl (resendTo expired) nd

/-- The number of nodes whose match index is at least `index`. -/
def replicatedOn (logLengths : List ℕ) (index : ℕ) : ℕ :=
  (logLengths.map fun i => if index ≤ i then 1 else 0).sum

/-- The loop over the sorted match indices that determines `max_committable_index`. -/
def maxCommittableIndex (nd : Node n V) : ℕ :=
  let logLengths := (List.ofFn nd.matchIndex).insertionSort (· ≥ ·)
  logLengths.foldl
    (fun acc index => if replicatedOn logLengths index ≥ n / 2 + 1 then index else acc) 0

/-- `next_index` and `match_index` after an acknowledge of a node whose next index is
`index`. -/
def creditAcknowledge (nd : Node n V) (sender : Fin n) (index : ℕ) (success : Bool) :
    Node n V :=
  if success then
    -- the acknowledge does not say which entry it is about
    { nd with
      matchIndex := Function.update nd.matchIndex sender index
      nextIndex := Function.update nd.nextIndex sender (some (index + 1)) }
  else if index ≠ 1 then
    { nd with nextIndex := Function.update nd.nextIndex sender (some (index - 1)) }
  else nd

/-- Send a node its next entry, or mark it up to date when there is none. -/
def bringUpToDate (nd : Node n V) (node : Fin n) : Node n V :=
  match nd.nextIndex node with
  | none => nd
  | some next =>
    if next > nd.logMaxIndex then
      { nd with nextIndex := Function.update nd.nextIndex node none }
    else nd.sendEntryAt node next

/-- Commit the largest index the match indices allow, if it is new. -/
def commitCommittable (nd : Node n V) : Node n V :=
  if nd.maxCommittableIndex > nd.commitIndex then
    nd.broadcastCommmitEntries nd.maxCommittableIndex
  else nd

/-- `_leader`, on an `Acknowledge` -/
def leaderAcknowledge (nd : Node n V) (sender : Fin n) (success : Bool) : Node n V :=
  match nd.nextIndex sender with
  | none => nd
  | some index =>
    let nd := (nd.creditAcknowledge sender index success).bringUpToDate sender
    if nd.loop = .crashed then nd else nd.commitCommittable

/-- The messages `_leader` handles. -/
def leaderMessage (nd : Node n V) (sender : Fin n) : Message n V → Node n V
  | .acknowledge _ success => nd.leaderAcknowledge sender success
  | .clientRequest _ entries => nd.broadcastAppendEntries entries
  | .requestVotes term _ _ => if term > nd.currentTerm then nd.yieldTo sender term else nd
  | .vote _ _ | .heartbeat _ _ | .appendEntries _ _ _ _ _ _ | .committal _ _ _ => nd

/-- The end of an iteration of `_leader`: append the oldest queued client request. -/
def leaderClientRequest (nd : Node n V) : Node n V :=
  match nd.clientQueue with
  | [] => nd
  | entry :: rest => { nd with clientQueue := rest }.broadcastAppendEntries entry

/-- The part of an iteration of `_leader` before it looks for a message: a heartbeat, if
one is due, and the resend loop. -/
def leaderSends (nd : Node n V) (heartbeat : Bool) (expired : Fin n → Bool) : Node n V :=
  (if heartbeat then nd.sendHeartbeat else nd).resend expired

/-- One iteration of `_leader`; it goes on only while the thread is still in the loop. -/
def leader (nd : Node n V) (heartbeat : Bool) (expired : Fin n → Bool)
    (incoming : Option (Fin n × Message n V)) : Node n V :=
  if nd.currentRole = .leader then
    let nd := nd.leaderSends heartbeat expired
    if nd.loop = .leader then
      let nd := nd.receive leaderMessage incoming
      -- a handler may have stepped down, or raised
      if nd.loop = .leader then nd.leaderClientRequest else nd
    else nd
  else
    { nd with loop := .run }

/-! ## `run` -/

/-- One iteration of `run`: enter the loop of the present role. -/
def run [EmptyCollection V] (nd : Node n V) : Node n V :=
  match nd.currentRole with
  | .leader => nd.enterLeader
  | .follower => { nd with loop := .follower }
  | .candidate => nd.enterCandidate
  | .none => nd

end DreamboatRpc.Raft.Node
