import Mathlib.Data.Fintype.Basic
import DreamboatRpc.Namesvr.JsonRegistry
import DreamboatRpc.Raft.Cluster

/-!
# Messages as JSON

`protocol.py` turns its two message classes into dictionaries and back. Nothing checks the
values on the way back, and a handler takes out of a message what it needs. The fields a
sender fills in depend on its kind and on the state of the sender; those that no handler
reads do not come through.

## Main definitions

* `WireMessage` — `RequestVotesMessage` and `AppendEntriesMessage`
* `WireMessage.jsonify`, `parseJsonMessage` — to a dictionary and back
* `Node.wire` — the message each of the `_send_` methods makes
* `WireMessage.read` — what the role loops take a message for

## Main results

* `parseJsonMessage_jsonify` — a message of either class comes back as it was
* `read_wire` — every message that is sent is taken for what it is, whatever the other fields
* `accepts_wire` — and is put in the queue of those it is addressed to
* `wire_round_trip` — from one node to another
-/

namespace DreamboatRpc.Namesvr.Json

/-! ## Values -/

/-- `{}` -/
instance : EmptyCollection Json := ⟨.obj []⟩

/-- `v[key]`; `none` where it raises. -/
def get? (key : String) : Json → Option Json
  | obj fields => fields.lookup key
  | null | bool _ | num _ | str _ | arr _ | nonFinite _ => none

/-- `v == k` for an integer `k`; to Python `False` is `0` and `True` is `1`. -/
def isInt (k : ℤ) : Json → Bool
  | num x => x == k
  | bool b => (if b then 1 else 0) == k
  | null | str _ | arr _ | obj _ | nonFinite _ => false

/-- An integer. -/
def int? : Json → Option ℤ
  | num x => if x.den = 1 then some x.num else none
  | null | bool _ | str _ | arr _ | obj _ | nonFinite _ => none

/-- An index or a term. -/
def nat? (v : Json) : Option ℕ :=
  v.int?.bind fun k => if 0 ≤ k then some k.toNat else none

def bool? : Json → Option Bool
  | bool b => some b
  | null | num _ | str _ | arr _ | obj _ | nonFinite _ => none

@[simp] theorem isInt_num (k m : ℤ) : isInt k (.num m) = decide (m = k) := by
  simp [isInt, beq_eq_decide]

@[simp] theorem int?_num (k : ℤ) : int? (.num k) = some k := by
  simp [int?]

@[simp] theorem nat?_num (k : ℕ) : nat? (.num k) = some k := by
  have hint : int? (.num (k : ℚ)) = some (k : ℤ) := int?_num k
  simp [nat?, hint]

@[simp] theorem bool?_bool (b : Bool) : bool? (.bool b) = some b := rfl

end DreamboatRpc.Namesvr.Json

namespace DreamboatRpc.Raft

open Namesvr

/-- A log entry is a dictionary already. -/
def Entry.toJson (e : Entry Json) : Json :=
  .obj [("term", .num e.term), ("entry", e.entry), ("id", .num e.id)]

/-- What is taken out of the dictionary of an entry. -/
def Entry.ofJson? (v : Json) : Option (Entry Json) := do
  let term ← (← v.get? "term").nat?
  let entry ← v.get? "entry"
  let idNum ← (← v.get? "id").int?
  return ⟨term, entry, idNum⟩

@[simp] theorem Entry.ofJson?_toJson (e : Entry Json) : Entry.ofJson? e.toJson = some e := by
  simp [Entry.ofJson?, Entry.toJson, Json.get?, List.lookup_cons]

/-! ## The message classes -/

inductive MessageType
  | requestVotes
  | requestVoteResponse
  | heartbeat
  | acknowledge
  | appendEntries
  | committal
  | clientRequest
  deriving DecidableEq, Repr

def MessageType.code : MessageType → ℤ
  | .requestVotes => 0
  | .requestVoteResponse => 1
  | .heartbeat => 2
  | .acknowledge => 3
  | .appendEntries => 4
  | .committal => 5
  | .clientRequest => 6

@[simp] theorem MessageType.code_inj {a b : MessageType} : a.code = b.code ↔ a = b := by
  cases a <;> cases b <;> decide

inductive MessageDirection
  | request
  | response
  deriving DecidableEq, Repr

def MessageDirection.code : MessageDirection → ℤ
  | .request => 0
  | .response => 1

@[simp] theorem MessageDirection.code_inj {a b : MessageDirection} : a.code = b.code ↔ a = b := by
  cases a <;> cases b <;> decide

/-- The attributes of a `BaseMessage`, less its results. -/
structure BaseMessage where
  type : Json
  term : Json
  timestamp : Json
  sender : Json
  receiver : Json
  direction : Json

structure RequestVotesResults where
  term : Json
  voteGranted : Json

structure AppendEntriesResults where
  term : Json
  success : Json

/-- `RequestVotesResults.jsonify` -/
def RequestVotesResults.jsonify (results : RequestVotesResults) : Json :=
  .obj [("term", results.term), ("vote_granted", results.voteGranted)]

/-- `AppendEntriesResults.jsonify` -/
def AppendEntriesResults.jsonify (results : AppendEntriesResults) : Json :=
  .obj [("term", results.term), ("success", results.success)]

/-- A `RequestVotesMessage` or an `AppendEntriesMessage`. -/
inductive WireMessage
  | requestVotes (base : BaseMessage) (results : RequestVotesResults)
      (candidateId lastLogIndex lastLogTerm : Json)
  | appendEntries (base : BaseMessage) (results : AppendEntriesResults)
      (leaderId prevLogIndex prevLogTerm entries leaderCommit : Json)

namespace WireMessage

def base : WireMessage → BaseMessage
  | requestVotes base _ _ _ _ | appendEntries base _ _ _ _ _ _ => base

/-- The fields of `BaseMessage.jsonify`. -/
def baseFields (base : BaseMessage) (results : Json) : List (String × Json) :=
  [("type", base.type), ("term", base.term), ("timestamp", base.timestamp),
    ("sender", base.sender), ("receiver", base.receiver), ("direction", base.direction),
    ("results", results)]

/-- `jsonify` -/
def jsonify : WireMessage → Json
  | requestVotes base results candidateId lastLogIndex lastLogTerm =>
    .obj (baseFields base results.jsonify ++
      [("candidate_id", candidateId), ("last_log_index", lastLogIndex),
        ("last_log_term", lastLogTerm)])
  | appendEntries base results leaderId prevLogIndex prevLogTerm entries leaderCommit =>
    .obj (baseFields base results.jsonify ++
      [("leader_id", leaderId), ("prev_log_index", prevLogIndex),
        ("prev_log_term", prevLogTerm), ("entries", entries), ("leader_commit", leaderCommit)])

/-- The class of a message is that of its type. -/
def Consistent (w : WireMessage) : Prop :=
  w.base.type.isInt MessageType.requestVotes.code = match w with
    | requestVotes _ _ _ _ _ => true
    | appendEntries _ _ _ _ _ _ _ => false

end WireMessage

/-- `BaseMessage.un_jsonify`, less the results; `none` on a `KeyError`. -/
def unJsonifyBase (message : Json) : Option BaseMessage := do
  let type ← message.get? "type"
  let term ← message.get? "term"
  let timestamp ← message.get? "timestamp"
  let sender ← message.get? "sender"
  let receiver ← message.get? "receiver"
  let direction ← message.get? "direction"
  return ⟨type, term, timestamp, sender, receiver, direction⟩

/-- `RequestVotesResults(message=message)`: without a message the attributes are `None`. -/
def RequestVotesResults.ofMessage : Json → Option RequestVotesResults
  | .null => some ⟨.null, .null⟩
  | message => do
    let term ← message.get? "term"
    let voteGranted ← message.get? "vote_granted"
    return ⟨term, voteGranted⟩

/-- `AppendEntriesResults(message=message)` -/
def AppendEntriesResults.ofMessage : Json → Option AppendEntriesResults
  | .null => some ⟨.null, .null⟩
  | message => do
    let term ← message.get? "term"
    let success ← message.get? "success"
    return ⟨term, success⟩

/-- `parse_json_message`, on a dictionary; `none` on a `KeyError`. -/
def parseJsonMessage (message : Json) : Option WireMessage := do
  let base ← unJsonifyBase message
  let results ← message.get? "results"
  if base.type.isInt MessageType.requestVotes.code then
    let results ← RequestVotesResults.ofMessage results
    let candidateId ← message.get? "candidate_id"
    let lastLogIndex ← message.get? "last_log_index"
    let lastLogTerm ← message.get? "last_log_term"
    return .requestVotes base results candidateId lastLogIndex lastLogTerm
  else
    let results ← AppendEntriesResults.ofMessage results
    let leaderId ← message.get? "leader_id"
    let prevLogIndex ← message.get? "prev_log_index"
    let prevLogTerm ← message.get? "prev_log_term"
    let entries ← message.get? "entries"
    let leaderCommit ← message.get? "leader_commit"
    return .appendEntries base results leaderId prevLogIndex prevLogTerm entries leaderCommit

@[simp] theorem RequestVotesResults.ofMessage_jsonify (results : RequestVotesResults) :
    RequestVotesResults.ofMessage results.jsonify = some results := by
  simp [RequestVotesResults.ofMessage, RequestVotesResults.jsonify, Json.get?, List.lookup_cons]

@[simp] theorem AppendEntriesResults.ofMessage_jsonify (results : AppendEntriesResults) :
    AppendEntriesResults.ofMessage results.jsonify = some results := by
  simp [AppendEntriesResults.ofMessage, AppendEntriesResults.jsonify, Json.get?, List.lookup_cons]

theorem parseJsonMessage_jsonify {w : WireMessage} (h : w.Consistent) :
    parseJsonMessage w.jsonify = some w := by
  cases w with
  | requestVotes base results candidateId lastLogIndex lastLogTerm =>
    have htype : base.type.isInt MessageType.requestVotes.code = true := h
    simp [parseJsonMessage, unJsonifyBase, WireMessage.jsonify, WireMessage.baseFields,
      Json.get?, List.lookup_cons, htype]
  | appendEntries base results leaderId prevLogIndex prevLogTerm entries leaderCommit =>
    have htype : base.type.isInt MessageType.requestVotes.code = false := h
    simp [parseJsonMessage, unJsonifyBase, WireMessage.jsonify, WireMessage.baseFields,
      Json.get?, List.lookup_cons, htype]

/-- What is parsed is of the class of its type. -/
theorem consistent_of_parse {message : Json} {w : WireMessage}
    (h : parseJsonMessage message = some w) : w.Consistent := by
  unfold parseJsonMessage at h
  simp only [Option.bind_eq_bind, Option.bind_eq_some_iff] at h
  obtain ⟨base, -, results, -, h⟩ := h
  split at h
  · rename_i htype
    simp only [Option.bind_eq_some_iff, Option.pure_def, Option.some.injEq] at h
    obtain ⟨_, -, _, -, _, -, _, -, rfl⟩ := h
    exact htype
  · rename_i htype
    simp only [Option.bind_eq_some_iff, Option.pure_def, Option.some.injEq] at h
    obtain ⟨_, -, _, -, _, -, _, -, _, -, _, -, rfl⟩ := h
    exact Bool.eq_false_iff.mpr htype

/-! ## What is sent -/

section Addresses

variable {n : ℕ} (ids : Fin n → String)

namespace Node

variable (nd : Node n Json)

/-- What every message of a node carries. -/
def baseMessage (now : ℤ) (type : MessageType) (receiver : Option (Fin n))
    (direction : MessageDirection) (term : ℕ) : BaseMessage where
  type := .num type.code
  term := .num term
  timestamp := .num now
  sender := .str (ids nd.myId)
  receiver := receiver.elim .null fun q => .str (ids q)
  direction := .num direction.code

/-- The message that a `_send_` method makes, given what it says and whom it is for. -/
def wire (now : ℤ) (receiver : Option (Fin n)) : Message n Json → WireMessage
  -- `_send_request_vote`
  | .requestVotes term lastLogIndex lastLogTerm =>
    .requestVotes (nd.baseMessage ids now .requestVotes receiver .request term)
      ⟨.null, .null⟩ (.str (ids nd.myId)) (.num lastLogIndex) (.num lastLogTerm)
  -- `_send_vote`; the candidate is the receiver
  | .vote term voteGranted =>
    .requestVotes (nd.baseMessage ids now .requestVotes receiver .response term)
      ⟨.num term, .bool voteGranted⟩ (receiver.elim .null fun q => .str (ids q))
      (.num nd.lastAppliedIndex) (.num nd.lastAppliedTerm)
  -- `_send_heartbeat`
  | .heartbeat term leaderId =>
    .appendEntries (nd.baseMessage ids now .heartbeat receiver .request term)
      ⟨.null, .null⟩ (.str (ids leaderId)) .null .null .null (.num nd.commitIndex)
  -- `_send_append_entries`
  | .appendEntries term leaderId prevLogIndex prevLogTerm entries leaderCommit =>
    .appendEntries (nd.baseMessage ids now .appendEntries receiver .request term)
      ⟨.null, .null⟩ (.str (ids leaderId)) (.num prevLogIndex) (.num prevLogTerm)
      entries.toJson (.num leaderCommit)
  -- `_send_committal`
  | .committal term prevLogIndex prevLogTerm =>
    .appendEntries (nd.baseMessage ids now .committal receiver .request term)
      ⟨.null, .null⟩ (.str (ids nd.myId)) (.num prevLogIndex) (.num prevLogTerm) .null
      (.num nd.commitIndex)
  -- `_send_acknowledge`
  | .acknowledge term success =>
    .appendEntries (nd.baseMessage ids now .acknowledge receiver .response term)
      ⟨.num term, .bool success⟩ (nd.leaderId.elim .null fun q => .str (ids q))
      (.num nd.lastAppliedIndex) (.num nd.lastAppliedTerm) .null (.num nd.commitIndex)
  -- `_send_client_request`
  | .clientRequest term entries =>
    .appendEntries (nd.baseMessage ids now .clientRequest receiver .response term)
      ⟨.null, .null⟩ (nd.leaderId.elim .null fun q => .str (ids q))
      (.num nd.lastAppliedIndex) (.num nd.lastAppliedTerm) entries.toJson (.num nd.commitIndex)

end Node

theorem wire_consistent (nd : Node n Json) (now : ℤ) (receiver : Option (Fin n))
    (message : Message n Json) : (nd.wire ids now receiver message).Consistent := by
  cases message <;> simp [WireMessage.Consistent, WireMessage.base, Node.wire, Node.baseMessage]

/-! ## What is received -/

/-- `all_ids.index(v)`; `none` where it raises. -/
def position (v : Json) : Option (Fin n) := (List.finRange n).find? fun p => v.isStr (ids p)

/-- The test of `Listener.run`: the message is for the node, or for every node. -/
def accepts (q : Fin n) (message : Json) : Bool :=
  match message.get? "receiver" with
  | some .null => true
  | some receiver => receiver.isStr (ids q)
  | none => false

/-- What the role loops take a message for: they look at its direction and its type, and then
read what they need. `none` where reading raises, and for what they do not handle. -/
def WireMessage.read (w : WireMessage) : Option (Fin n × Message n Json) := do
  let sender ← position ids w.base.sender
  let term ← w.base.term.nat?
  let request := w.base.direction.isInt MessageDirection.request.code
  let response := w.base.direction.isInt MessageDirection.response.code
  let is := fun type : MessageType => w.base.type.isInt type.code
  match w with
  | .requestVotes _ results _ lastLogIndex lastLogTerm =>
    if request && is .requestVotes then
      return (sender, .requestVotes term (← lastLogIndex.nat?) (← lastLogTerm.nat?))
    else if response && is .requestVotes then
      return (sender, .vote term (← results.voteGranted.bool?))
    else none
  | .appendEntries _ results leaderId prevLogIndex prevLogTerm entries leaderCommit =>
    if request && is .heartbeat then
      return (sender, .heartbeat term (← position ids leaderId))
    else if request && is .appendEntries then
      return (sender, .appendEntries term (← position ids leaderId) (← prevLogIndex.nat?)
        (← prevLogTerm.nat?) (← Entry.ofJson? entries) (← leaderCommit.nat?))
    else if request && is .committal then
      return (sender, .committal term (← prevLogIndex.nat?) (← prevLogTerm.nat?))
    else if response && is .acknowledge then
      return (sender, .acknowledge term (← results.success.bool?))
    else if response && is .clientRequest then
      return (sender, .clientRequest term (← Entry.ofJson? entries))
    else none

/-- `_get_message`, as the role loops take it: `parse_json_message`, then what they read. -/
def receiveJson (wire : Json) : Option (Fin n × Message n Json) :=
  (parseJsonMessage wire).bind (WireMessage.read ids)

variable {ids}

/-- A node is found at its address. -/
@[simp] theorem position_str (hids : Function.Injective ids) (p : Fin n) :
    position ids (.str (ids p)) = some p := by
  unfold position
  rw [List.find?_eq_some_iff_append]
  refine ⟨by simp [Json.isStr], ?_⟩
  obtain ⟨before, after, heq⟩ := List.append_of_mem (List.mem_finRange p)
  refine ⟨before, after, heq, fun q hq => ?_⟩
  -- the nodes before it have other addresses
  have hne : q ≠ p := by
    rintro rfl
    have hnodup := List.nodup_finRange n
    rw [heq] at hnodup
    exact (List.disjoint_of_nodup_append hnodup) hq (List.mem_cons_self ..)
  simp [Json.isStr, hids.eq_iff, hne.symm]

/-- A message that was sent is taken for what it is; what the sender puts in the other fields
does not matter. -/
theorem read_wire (hids : Function.Injective ids) (nd : Node n Json) (now : ℤ)
    (receiver : Option (Fin n)) (message : Message n Json) :
    (nd.wire ids now receiver message).read ids = some (nd.myId, message) := by
  cases message <;>
    simp [WireMessage.read, WireMessage.base, Node.wire, Node.baseMessage, hids]

theorem receiveJson_wire (hids : Function.Injective ids) (nd : Node n Json) (now : ℤ)
    (receiver : Option (Fin n)) (message : Message n Json) :
    receiveJson ids (nd.wire ids now receiver message).jsonify = some (nd.myId, message) := by
  rw [receiveJson, parseJsonMessage_jsonify (wire_consistent ids nd now receiver message),
    Option.bind_some, read_wire hids]

theorem accepts_wire (hids : Function.Injective ids) (nd : Node n Json) (now : ℤ)
    (receiver : Option (Fin n)) (message : Message n Json) (q : Fin n) :
    accepts ids q (nd.wire ids now receiver message).jsonify =
      decide (receiver = none ∨ receiver = some q) := by
  have hreceiver : (nd.wire ids now receiver message).jsonify.get? "receiver" =
      some (receiver.elim .null fun r => .str (ids r)) := by
    cases message <;> simp [Node.wire, Node.baseMessage, WireMessage.jsonify,
      WireMessage.baseFields, Json.get?, List.lookup_cons]
  rw [accepts, hreceiver]
  cases receiver with
  | none => simp
  | some r => simp [Json.isStr, beq_eq_decide, hids.eq_iff]

/-- From one node to another through JSON, if no two nodes have the same address: a message is
kept by the listeners of the nodes it is for, all or one, and by no other; each reads in it the
sender and all that it says, whatever state the sender was in. Whatever can be parsed at all, from
whom it may be, can be made a dictionary again, and is parsed to the same. -/
theorem wire_round_trip (hids : Function.Injective ids) (nd : Node n Json) (now : ℤ)
    (receiver : Option (Fin n)) (message : Message n Json) :
    (∀ q, accepts ids q (nd.wire ids now receiver message).jsonify = true ↔
      receiver = none ∨ receiver = some q) ∧
    receiveJson ids (nd.wire ids now receiver message).jsonify = some (nd.myId, message) ∧
    ∀ wire w, parseJsonMessage wire = some w → parseJsonMessage w.jsonify = some w := by
  refine ⟨fun q => ?_, receiveJson_wire hids nd now receiver message, fun wire w hw => ?_⟩
  · rw [accepts_wire hids, decide_eq_true_eq]
  · exact parseJsonMessage_jsonify (consistent_of_parse hw)

end Addresses

/-- The addresses of two nodes on one machine. -/
def localAddress : Fin 2 → String
  | 0 => "127.0.0.1:5557"
  | 1 => "127.0.0.1:5558"

theorem localAddress_injective : Function.Injective localAddress
  | 0, 0, _ => rfl
  | 1, 1, _ => rfl
  | 0, 1, h => absurd h (by decide)
  | 1, 0, h => absurd h (by decide)

/-- A vote of node `1` for node `0`, which node `1` does not keep for itself. -/
theorem wire_round_trip_vote :
    receiveJson localAddress ((Node.init 1).wire localAddress 0 (some 0) (.vote 2 true)).jsonify =
        some (1, .vote 2 true) ∧
      ¬ accepts localAddress 1
        ((Node.init 1).wire localAddress 0 (some 0) (.vote 2 true)).jsonify = true := by
  obtain ⟨hkept, hread, -⟩ :=
    wire_round_trip localAddress_injective (Node.init 1) 0 (some 0) (.vote 2 true)
  exact ⟨hread, fun h => absurd ((hkept 1).mp h) (by decide)⟩

end DreamboatRpc.Raft
