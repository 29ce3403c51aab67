import DreamboatRpc.CS.ByteStream
import DreamboatRpc.Client.System

/-!
# Results in a byte stream

The results come back one behind the other on the connection of the client, and `recv` may
cut the stream anywhere. The handler zeroes a buffer, calls `recv` once and takes whatever it
got for a result: it executes the callback in the slot that the first four bytes name. So the
callbacks of the results are executed if and only if every `recv` gets one whole result.

## Main definitions

* `receivedResult` — the buffer after `recv`
* `execCall` — the callback that is called, and its argument
* `ResultStream`, `resultStream` — the table of the handler and its connection
* `Executes` — a read executes the callback of a result
* `takesResult` — the condition on the calls of `recv`

## Main results

* `handle_read` — the handler in the client does the same
* `results_executed_iff` — when the callbacks of the results are executed
-/

namespace DreamboatRpc.Client

open CS Rpc TransitionSystem

/-- `res` after `bzero` and `recv` -/
def receivedResult (received : List UInt8) : RpcResult :=
  .ofBytes (received ++ (List.replicate RpcResult.size 0).drop received.length)

/-- `CallidCallbackMapping[res.seqno]->Exec(res.return_buffer)`: the slot, or `none` outside
the table, and the argument. -/
def execCall (slots : List Slot) (res : RpcResult) :
    Option Slot × CharArray maxRpcReturnValue :=
  (slotAt slots (resultId res), res.returnBuffer)

/-- A call of `HandleReadEvent` in which `recv` got bytes, with the table at that time. -/
structure Reading where
  slots : List Slot
  received : List UInt8

/-- As many bytes were received as a result has, and there is a callback for the result. -/
def Reading.Whole (x : Reading) : Prop :=
  x.received.length = RpcResult.size ∧ Registered x.slots (resultId (.ofBytes x.received))

instance (x : Reading) : Decidable x.Whole := by
  unfold Reading.Whole
  infer_instance

/-- The handler executes the callback of this result, with all of its return buffer. -/
def Executes (x : Reading) (res : RpcResult) : Prop :=
  ∃ call, slotAt x.slots (resultId res) = some (.callback call) ∧
    execCall x.slots (receivedResult x.received) = (some (.callback call), res.returnBuffer)

/-- The table of the handler and the bytes on its connection that it has not read. The results
that were written and the calls of the handler are history. -/
structure ResultStream where
  slots : List Slot
  unread : List UInt8
  written : List RpcResult
  readings : List Reading

/-- What can happen: the server writes a result, a callback is registered, or the handler reads
some of the bytes there are. -/
inductive StreamEvent
  | write (res : RpcResult)
  | register (id : ℤ) (call : ℕ)
  | read (received : List UInt8)

namespace ResultStream

/-- Before any result. -/
def init : ResultStream := ⟨List.replicate maxRequests .null, [], [], []⟩

/-- What an event does; `none` if `recv` cannot return these bytes. -/
def exec (s : ResultStream) : StreamEvent → Option ResultStream
  | .write res =>
    some { s with unread := s.unread ++ res.toBytes, written := s.written ++ [res] }
  | .register id call => some { s with slots := setSlot s.slots id (.callback call) }
  | .read received =>
    if received ≠ [] ∧ received.length ≤ RpcResult.size ∧ received <+: s.unread then
      some { s with
        -- if there is no callback the behaviour is undefined, here the handler goes on
        slots := setSlot s.slots (resultId (receivedResult received)) .null
        unread := s.unread.drop received.length
        readings := s.readings ++ [⟨s.slots, received⟩] }
    else none

/-- The condition on the calls of `recv`. -/
def takesResult (s : ResultStream) : StreamEvent → Prop
  | .read received => (⟨s.slots, received⟩ : Reading).Whole
  | .write _ | .register _ _ => True

instance (s : ResultStream) (e : StreamEvent) : Decidable (s.takesResult e) :=
  match e with
  | .read _ => by dsimp only [takesResult]; infer_instance
  | .write _ | .register _ _ => instDecidableTrue

end ResultStream

/-- The runs of the handler and the server on a connection. -/
def resultStream : TransitionSystem ResultStream StreamEvent :=
  .ofExec ResultStream.init ResultStream.exec

/-! ## One record -/

/-- What was received is all there is in the buffer if it is as long. -/
theorem receivedResult_of_length {received : List UInt8}
    (h : received.length = RpcResult.size) : receivedResult received = .ofBytes received := by
  rw [receivedResult, List.drop_eq_nil_of_le (by rw [List.length_replicate, h]),
    List.append_nil]

theorem receivedResult_toBytes (res : RpcResult) : receivedResult res.toBytes = res := by
  rw [receivedResult_of_length (RpcResult.length_toBytes res)]
  simpa using RpcResult.ofBytes_toBytes res []

/-- A reading that got a result executes its callback iff it has one. -/
theorem executes_iff_whole {x : Reading} {res : RpcResult} (h : x.received = res.toBytes) :
    Executes x res ↔ x.Whole := by
  have hlength : x.received.length = RpcResult.size := by rw [h, RpcResult.length_toBytes]
  have hbuffer : receivedResult x.received = res := by rw [h, receivedResult_toBytes]
  have hres : RpcResult.ofBytes x.received = res := by
    rw [← receivedResult_of_length hlength, hbuffer]
  rw [Executes, Reading.Whole, hbuffer, hres, execCall]
  constructor
  · rintro ⟨call, hslot, -⟩
    exact ⟨hlength, call, hslot⟩
  · rintro ⟨-, call, hslot⟩
    exact ⟨call, hslot, by rw [hslot]⟩

/-! ## All records -/

/-- The readings of a stream of results execute the callbacks of the results, one each and in
order, iff every one of them got a result that has a callback. -/
theorem executes_iff {readings : List Reading} {results : List RpcResult}
    (hfit : ∀ x ∈ readings, x.received.length ≤ RpcResult.size)
    (hstream : (readings.map Reading.received).flatten =
      (results.map RpcResult.toBytes).flatten) :
    List.Forall₂ Executes readings results ↔ ∀ x ∈ readings, x.Whole := by
  have hrecords : ∀ r ∈ results.map RpcResult.toBytes, r.length = RpcResult.size :=
    List.forall_mem_map.mpr fun res _ => RpcResult.length_toBytes res
  have hpos : 0 < RpcResult.size := by decide
  have hcount := length_chunks_iff hpos hrecords (List.forall_mem_map.mpr hfit) hstream
  rw [List.length_map, List.length_map, List.forall_mem_map] at hcount
  -- if all readings are as long as a result, they are the results
  have hsame : (∀ x ∈ readings, x.received.length = RpcResult.size) →
      List.Forall₂ (fun x res => x.received = RpcResult.toBytes res) readings results := by
    intro hlength
    have heq := chunks_eq hpos hrecords (List.forall_mem_map.mpr hlength) hstream
    rw [← List.forall₂_eq_eq_eq] at heq
    rwa [List.forall₂_map_left_iff, List.forall₂_map_right_iff] at heq
  constructor
  · intro hexecutes
    have hreceived := hsame (hcount.mp hexecutes.length_eq)
    have hwhole : List.Forall₂ (fun x _ => Reading.Whole x ∧ True) readings results :=
      hreceived.mp (fun x res h hx => ⟨(executes_iff_whole h).mp hx, trivial⟩) hexecutes
    exact ((List.forall₂_and_left _ _).mp hwhole).1
  · intro hwhole
    have hreceived := hsame fun x hx => (hwhole x hx).1
    refine List.Forall₂.imp (fun x res h => ?_)
      ((List.forall₂_and_left _ _).mpr ⟨hwhole, hreceived⟩)
    exact (executes_iff_whole h.2).mpr h.1

/-! ## Runs -/

namespace ResultStream

variable {s t : ResultStream} {e : StreamEvent}

/-- What was read and what is unread is what was written, and no reading is longer than a
result. -/
structure Streamed (s : ResultStream) : Prop where
  fit : ∀ x ∈ s.readings, x.received.length ≤ RpcResult.size
  stream : (s.readings.map Reading.received).flatten ++ s.unread =
    (s.written.map RpcResult.toBytes).flatten

theorem Streamed.exec (h : s.Streamed) (hs : s.exec e = some t) : t.Streamed := by
  cases e with
  | write res =>
    obtain rfl := Option.some.inj hs
    refine ⟨h.fit, ?_⟩
    rw [← List.append_assoc, h.stream]
    simp
  | register id call =>
    obtain rfl := Option.some.inj hs
    exact ⟨h.fit, h.stream⟩
  | read received =>
    obtain ⟨⟨-, hfit, hprefix⟩, hread⟩ := Option.ite_none_right_eq_some.mp hs
    obtain rfl := Option.some.inj hread
    obtain ⟨rest, hrest⟩ := hprefix
    refine ⟨List.forall_mem_append.mpr ⟨h.fit, List.forall_mem_singleton.mpr hfit⟩, ?_⟩
    simp only [List.map_append, List.map_cons, List.map_nil, List.flatten_append,
      List.flatten_singleton, List.append_assoc]
    rw [← h.stream, ← hrest, List.drop_left' rfl]

/-- The readings so far are whole, also after this step, iff it meets the condition. -/
theorem whole_iff (hs : s.exec e = some t) :
    (∀ x ∈ t.readings, x.Whole) ↔ (∀ x ∈ s.readings, x.Whole) ∧ s.takesResult e := by
  cases e with
  | write res =>
    obtain rfl := Option.some.inj hs
    exact (and_iff_left trivial).symm
  | register id call =>
    obtain rfl := Option.some.inj hs
    exact (and_iff_left trivial).symm
  | read received =>
    obtain ⟨-, hread⟩ := Option.ite_none_right_eq_some.mp hs
    obtain rfl := Option.some.inj hread
    rw [List.forall_mem_append, List.forall_mem_singleton]
    rfl

end ResultStream

/-- Once everything the server wrote was read, the handler has executed the callbacks of the
results, one each, in order and with all of their return buffers, iff every `recv` got a whole
result that had a callback in the table. -/
theorem results_executed_iff {s : ResultStream}
    {history : List (Transition ResultStream StreamEvent)}
    (hrun : resultStream.Run unguarded history s) (hread : s.unread = []) :
    List.Forall₂ Executes s.readings s.written ↔
      ∀ x ∈ history, x.source.takesResult x.event := by
  have hstreamed : s.Streamed := by
    refine Reachable.invariant (fun s hs => ?_) (fun s e t h _ hstep => ?_) ⟨history, hrun⟩
    · rw [ofExec_init.mp hs]
      exact ⟨by simp [ResultStream.init], by simp [ResultStream.init]⟩
    · exact h.exec (ofExec_step.mp hstep)
  have hwhole : (∀ x ∈ s.readings, x.Whole) ↔ ∀ x ∈ history, x.source.takesResult x.event := by
    refine hrun.invariant (I := fun history s => (∀ x ∈ s.readings, x.Whole) ↔
      ∀ x ∈ history, x.source.takesResult x.event) (fun s hs => ?_) ?_
    · rw [ofExec_init.mp hs]
      simp [ResultStream.init]
    · intro history s e t ih _ hstep
      rw [ResultStream.whole_iff (ofExec_step.mp hstep), ih, List.forall_mem_cons, and_comm]
  have hstream := hstreamed.stream
  rw [hread, List.append_nil] at hstream
  rw [executes_iff hstreamed.fit hstream, hwhole]

/-! ## The handler in the client -/

/-- In the client, the handler that finds a callback executes it, and leaves the table as here,
if the callback calls no service. -/
theorem handle_read {τ : Type*} [DecidableEq τ] {s : System τ} {x : Reading} {res : RpcResult}
    (hloop : s.loop = .dispatching) (hidle : s.threads none = .idle) (hslots : s.slots = x.slots)
    (h : Executes x res) :
    ∃ s' call, [.read (.other (receivedResult x.received)), .exec, .delete, .null,
        .recycle].foldlM System.exec s = some s' ∧
      s'.executed = (call, none) :: s.executed ∧
      slotAt x.slots (resultId res) = some (.callback call) ∧
      s'.slots = setSlot x.slots (resultId (receivedResult x.received)) .null := by
  obtain ⟨call, hslot, hexec⟩ := h
  have hfound : slotAt s.slots (resultId (receivedResult x.received)) = some (.callback call) := by
    rw [hslots]
    exact (Prod.mk.inj hexec).1
  set received := receivedResult x.received
  -- the callback is executed and deleted, its slot cleared and its id recycled
  set executing := { s with
    loop := .executing call received, executed := (call, none) :: s.executed }
  have hstart : s.exec (.read (.other received)) =
      some { s with loop := .received none received } := if_pos hloop
  have hexecute : System.exec { s with loop := .received none received } .exec =
      some executing := by
    simp [System.exec, System.execCallback, hfound, executing]
  have hdelete : executing.exec .delete = some { executing with
      slots := setSlot s.slots (resultId received) .dangling, loop := .deleted received } := by
    simp [System.exec, System.deleteCallback, hfound, hidle, executing]
  refine ⟨System.recycle { executing with
    slots := setSlot s.slots (resultId received) .null, loop := .nulled received } received,
    call, ?_, rfl, hslot, congrArg (setSlot · _ _) hslots⟩
  simp only [List.foldlM_cons, hstart, hexecute, hdelete, Option.bind_eq_bind, Option.bind_some]
  simp [System.exec, System.clearSlot, setSlot_setSlot]

/-! ## A stream that is cut and one that is not -/

/-- A result whose buffer is not all zeros. -/
def someResult (seqno : Int32) : RpcResult :=
  ⟨seqno, .ofBytes maxRpcReturnValue (List.replicate maxRpcReturnValue 7)⟩

/-- Two calls register their callbacks, and the server writes both results before the handler
reads the first. -/
def twoResults : List StreamEvent :=
  [.register 1 0, .register 2 1, .write (someResult 2), .write (someResult 1),
    .read (someResult 2).toBytes, .read (someResult 1).toBytes]

/-- All was read, in two calls that met the condition. -/
def readsTwo (history : List (Transition ResultStream StreamEvent)) (s : ResultStream) : Bool :=
  s.unread.isEmpty && s.readings.length == 2 &&
    history.all fun x => decide (x.source.takesResult x.event)

theorem results_executed_iff_twoResults :
    ∃ s : ResultStream, s.readings.length = 2 ∧ List.Forall₂ Executes s.readings s.written := by
  have hreplay : (replay ResultStream.exec (fun _ _ => true) [] ResultStream.init
      twoResults).any (fun r => readsTwo r.1 r.2) = true := by decide +kernel
  obtain ⟨history, s, hrun, htest⟩ := exists_run_of_replay readsTwo hreplay
  simp only [readsTwo, Bool.and_eq_true, List.isEmpty_iff, beq_iff_eq, List.all_eq_true,
    decide_eq_true_eq] at htest
  obtain ⟨⟨hread, hlength⟩, hcond⟩ := htest
  exact ⟨s, hlength,
    (results_executed_iff (hrun.mono fun _ _ _ => trivial) hread).mpr hcond⟩

/-- A call registers its callback, and its result comes in two parts, of which the first ends
in the return buffer. -/
def resultInParts : List StreamEvent :=
  [.register 1 0, .write (someResult 1), .read ((someResult 1).toBytes.take 100),
    .read ((someResult 1).toBytes.drop 100)]

/-- The server writes results of calls only. -/
def writesAnswer (s : ResultStream) : StreamEvent → Bool
  | .write res => decide (Registered s.slots (resultId res))
  | .register _ _ | .read _ => true

/-- All was read, but not with one call for each result. -/
def readsMore (s : ResultStream) : Bool :=
  s.unread.isEmpty && s.readings.length != s.written.length

/-- A result that comes in two parts is taken for two. -/
theorem result_torn : ¬ ∀ s : ResultStream,
    resultStream.Reachable (fun s e => writesAnswer s e = true) s → s.unread = [] →
      List.Forall₂ Executes s.readings s.written := by
  intro hexecutes
  have hreplay : (replay ResultStream.exec writesAnswer [] ResultStream.init
      resultInParts).any (fun r => readsMore r.2) = true := by decide +kernel
  obtain ⟨history, s, hrun, htest⟩ := exists_run_of_replay (fun _ s => readsMore s) hreplay
  simp only [readsMore, Bool.and_eq_true, List.isEmpty_iff, bne_iff_ne, ne_eq] at htest
  exact htest.2 (hexecutes s ⟨history, hrun⟩ htest.1).length_eq

end DreamboatRpc.Client
