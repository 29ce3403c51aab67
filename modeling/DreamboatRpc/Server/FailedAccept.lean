import DreamboatRpc.Server.HandlerSlots

/-!
# A client that is gone before it is accepted

`Accept` returns -1 where a call of it fails, and the descriptor it returns goes into the handler
table and to the poller, whatever it is. Here the three calls can each fail, and the indexes that
are written are kept beside the table.

## Main definitions

* `AcceptCalls` — what the calls of `Accept` return, and `AcceptCalls.run`
* `ServerTransport` — the table, the poller and the handlers to attach
* `ServerTransport.handleReadEvent` — an event of the listening socket
* `Handled.Intact` — it left table, memory and poller alone

## Main results

* `failed_keeps_table`, `failed_keeps_poller` — what a failed `Accept` leaves alone
* `failed_indexes` — where it writes
* `failed_not_intact` — it never leaves all alone
* `handleReadEvent_asServer` — the server's model accepts in the same way
-/

namespace DreamboatRpc.Server

open SlotTable

/-! ## Accepting -/

/-- What `accept` and the two calls of `setsockopt` return. -/
structure AcceptCalls where
  accept : BitVec 32
  rcvbuf : BitVec 32
  sndbuf : BitVec 32
  deriving DecidableEq

namespace AcceptCalls

/-- `ServerTransport::Accept`: what it returns, and what it closes. -/
def run (calls : AcceptCalls) : BitVec 32 × List (BitVec 32) :=
  if calls.accept.toInt < 0 then (-1, [])
  else if calls.rcvbuf.toInt < 0 then (-1, [calls.accept])
  else if calls.sndbuf.toInt < 0 then (-1, [calls.accept])
  else (calls.accept, [])

/-- A connection is created: no call fails. -/
def Connects (calls : AcceptCalls) : Prop :=
  0 ≤ calls.accept.toInt ∧ 0 ≤ calls.rcvbuf.toInt ∧ 0 ≤ calls.sndbuf.toInt

instance (calls : AcceptCalls) : Decidable calls.Connects :=
  inferInstanceAs (Decidable (_ ∧ _ ∧ _))

variable {calls : AcceptCalls}

theorem run_of_connects (h : calls.Connects) : calls.run = (calls.accept, []) := by
  obtain ⟨haccept, hrcvbuf, hsndbuf⟩ := h
  rw [run, if_neg (by omega), if_neg (by omega), if_neg (by omega)]

/-- All three ways to fail look the same to the caller. -/
theorem run_of_not_connects (h : ¬ calls.Connects) : calls.run.1 = -1 := by
  unfold run
  split
  · rfl
  split
  · rfl
  split
  · rfl
  · exact absurd ⟨by omega, by omega, by omega⟩ h

end AcceptCalls

/-- The members of `ServerTransport` that an event of the listening socket uses, with what epoll
holds for each descriptor. -/
structure ServerTransport (H : Type*) where
  manager : SlotTable H
  socketReader : Option H
  socketWriter : Option H
  this : H
  listenfd : BitVec 32
  interest : ℤ → Interest

/-- The transport after an event, the indexes of `_list` that were written, and the descriptors
that were closed. -/
structure Handled (H : Type*) where
  transport : ServerTransport H
  indexes : List (BitVec 32)
  closed : List (BitVec 32)

namespace ServerTransport

variable {H : Type*} (s : ServerTransport H)

/-- `Poller::AddEvent` with `EPOLL_FLAGS_IN_ONESHOT`. It fails for a negative descriptor. -/
def addEvent (fd : BitVec 32) : ServerTransport H :=
  if 0 ≤ fd.toInt then { s with interest := Function.update s.interest fd.toInt (.armed false) }
  else s

/-- `Poller::ModEvent` with `EPOLL_FLAGS_IN_ONESHOT`. It fails for a descriptor that was not
added. -/
def modEvent (fd : BitVec 32) : ServerTransport H :=
  if s.interest fd.toInt = .absent then s
  else { s with interest := Function.update s.interest fd.toInt (.armed false) }

/-- The indexes that `AttachEventHandler` writes. -/
def attachIndexes (fd : BitVec 32) (e : Event) (handler : Option H) : List (BitVec 32) :=
  if handler.isSome then setIndexes fd e.bit else []

/-- The three calls of `AttachEventHandler`. -/
def attachAll (connfd : BitVec 32) : SlotTable H :=
  let manager := s.manager.attachEventHandler connfd Event.read.bit s.socketReader
  let manager := manager.attachEventHandler connfd Event.write.bit s.socketWriter
  manager.attachEventHandler connfd Event.close.bit (some s.this)

/-- `ServerTransport::HandleReadEvent`; `none` if it exits. -/
def handleReadEvent (fd : BitVec 32) (calls : AcceptCalls) : Option (Handled H) :=
  if fd ≠ s.listenfd then none
  else
    -- what `Accept` returns is not checked
    let connfd := calls.run.1
    some
      { transport :=
          ({ s with manager := s.attachAll connfd }.addEvent connfd).modEvent s.listenfd
        indexes := attachIndexes connfd .read s.socketReader ++
          attachIndexes connfd .write s.socketWriter ++ attachIndexes connfd .close (some s.this)
        closed := calls.run.2 }

end ServerTransport

/-- No slot of the table has changed, no index was outside it, and the poller has no descriptor
that it did not have and at most listens again. -/
structure Handled.Intact {H : Type*} (s : ServerTransport H) (handled : Handled H) : Prop where
  slots : ∀ i, handled.transport.manager.read i = s.manager.read i
  inside : ∀ i ∈ handled.indexes, 0 ≤ i.toInt ∧ i.toInt < maxEventHandlers
  poller : ∀ fd, handled.transport.interest fd = s.interest fd ∨
    fd = s.listenfd.toInt ∧ s.interest fd ≠ .absent ∧ handled.transport.interest fd = .armed false

/-! ## A failed accept -/

namespace ServerTransport

variable {H : Type*} {s : ServerTransport H} {calls : AcceptCalls} {handled : Handled H}

@[simp] theorem addEvent_manager (fd : BitVec 32) : (s.addEvent fd).manager = s.manager := by
  unfold addEvent
  split <;> rfl

@[simp] theorem modEvent_manager (fd : BitVec 32) : (s.modEvent fd).manager = s.manager := by
  unfold modEvent
  split <;> rfl

/-- A write behind the end of the array, where all negative indexes are, is not one to a slot. -/
theorem write_outside {m : SlotTable H} {i : BitVec 32} (handler : Option H)
    (h : maxEventHandlers ≤ i.toNat) : m.write i handler = m := by
  obtain ⟨list, hlength⟩ := m
  simp only [SlotTable.write, List.set_eq_of_length_le (hlength.trans_le h)]

/-- All indexes of the descriptor -1 are negative. -/
theorem slot_failed (e : Event) : maxEventHandlers ≤ (slot (-1) e).toNat := by
  cases e <;> decide

theorem attachEventHandler_failed (m : SlotTable H) (e : Event) (handler : Option H) :
    m.attachEventHandler (-1) e.bit handler = m := by
  have hwrites : ∀ indexes : List (BitVec 32), (∀ i ∈ indexes, maxEventHandlers ≤ i.toNat) →
      indexes.foldl (fun m i => m.write i handler) m = m := by
    intro indexes h
    induction indexes with
    | nil => rfl
    | cons i indexes ih =>
      obtain ⟨hi, hindexes⟩ := List.forall_mem_cons.mp h
      rw [List.foldl_cons, write_outside handler hi, ih hindexes]
  unfold attachEventHandler
  split
  · rw [setEventHandler_eq]
    refine hwrites _ fun i hi => ?_
    obtain ⟨e', -, rfl⟩ := mem_setIndexes.mp hi
    exact slot_failed e'
  · rfl

/-- Where an `Accept` that failed makes the transport write: before the array. -/
theorem failed_indexes (h : ¬ calls.Connects) (hhandled : s.handleReadEvent s.listenfd calls =
    some handled) : handled.indexes.map BitVec.toInt =
      (if s.socketReader.isSome then [-4] else []) ++
        (if s.socketWriter.isSome then [-3] else []) ++ [-2] := by
  rw [handleReadEvent, if_neg (not_not.mpr rfl), AcceptCalls.run_of_not_connects h] at hhandled
  obtain rfl := Option.some.inj hhandled
  simp only [attachIndexes, List.map_append, Option.isSome_some, if_true]
  have hread : (setIndexes (-1) Event.read.bit).map BitVec.toInt = [-4] := by decide
  have hwrite : (setIndexes (-1) Event.write.bit).map BitVec.toInt = [-3] := by decide
  have hclose : (setIndexes (-1) Event.close.bit).map BitVec.toInt = [-2] := by decide
  rw [hclose]
  split <;> split <;> simp only [hread, hwrite, List.map_nil]

/-- The slots keep their handlers. -/
theorem failed_keeps_table (h : ¬ calls.Connects) (hhandled : s.handleReadEvent s.listenfd calls =
    some handled) : handled.transport.manager = s.manager := by
  rw [handleReadEvent, if_neg (not_not.mpr rfl), AcceptCalls.run_of_not_connects h] at hhandled
  obtain rfl := Option.some.inj hhandled
  simp only [modEvent_manager, addEvent_manager, attachAll, attachEventHandler_failed]

/-- The poller listens again if it did, and has no other descriptor than before. -/
theorem failed_keeps_poller (h : ¬ calls.Connects) (hhandled : s.handleReadEvent s.listenfd calls =
    some handled) (fd : ℤ) : handled.transport.interest fd = s.interest fd ∨
      fd = s.listenfd.toInt ∧ s.interest fd ≠ .absent ∧
        handled.transport.interest fd = .armed false := by
  rw [handleReadEvent, if_neg (not_not.mpr rfl), AcceptCalls.run_of_not_connects h] at hhandled
  obtain rfl := Option.some.inj hhandled
  have hnegative : ¬ (0 : ℤ) ≤ (-1 : BitVec 32).toInt := by decide
  simp only [addEvent, if_neg hnegative, modEvent]
  split
  · exact .inl rfl
  · rename_i hpresent
    by_cases hfd : fd = s.listenfd.toInt
    · subst hfd
      exact .inr ⟨rfl, hpresent, Function.update_self ..⟩
    · exact .inl (Function.update_of_ne hfd _ _)

/-- Whenever no connection was created, the slots keep their handlers and the poller at most
listens again, but two or three pointers were written before the array: the last of them is the
transport itself. -/
theorem failed_not_intact (s : ServerTransport H) (calls : AcceptCalls) (h : ¬ calls.Connects) :
    ∃ handled, s.handleReadEvent s.listenfd calls = some handled ∧
      handled.transport.manager = s.manager ∧
      (∀ fd, handled.transport.interest fd = s.interest fd ∨ fd = s.listenfd.toInt ∧
        s.interest fd ≠ .absent ∧ handled.transport.interest fd = .armed false) ∧
      handled.indexes.map BitVec.toInt = (if s.socketReader.isSome then [-4] else []) ++
        (if s.socketWriter.isSome then [-3] else []) ++ [-2] ∧
      ¬ handled.Intact s := by
  obtain ⟨handled, hhandled⟩ : ∃ handled, s.handleReadEvent s.listenfd calls = some handled :=
    ⟨_, by rw [handleReadEvent, if_neg (not_not.mpr rfl)]⟩
  have hindexes := failed_indexes h hhandled
  refine ⟨handled, hhandled, failed_keeps_table h hhandled, failed_keeps_poller h hhandled,
    hindexes, fun hintact => ?_⟩
  have hlast : (-2 : ℤ) ∈ handled.indexes.map BitVec.toInt := by
    rw [hindexes]
    exact List.mem_append_right _ (List.mem_singleton_self _)
  obtain ⟨i, hi, htoInt⟩ := List.mem_map.mp hlast
  have hinside := hintact.inside i hi
  omega

/-- A server that listens on descriptor 3, and whose handlers are numbered. -/
def listening : ServerTransport ℕ where
  manager := SlotTable.empty.attachEventHandler 3 Event.read.bit (some 0)
  socketReader := some 1
  socketWriter := some 2
  this := 0
  listenfd := 3
  interest := Function.update (fun _ => .absent) 3 .disarmed

/-- The process has no descriptor left. -/
def noDescriptor : AcceptCalls := ⟨-1, 0, 0⟩

theorem failed_not_intact_noDescriptor :
    ∃ handled, listening.handleReadEvent 3 noDescriptor = some handled ∧
      handled.indexes.map BitVec.toInt = [-4, -3, -2] ∧ ¬ handled.Intact listening := by
  obtain ⟨handled, hhandled, -, -, hindexes, hintact⟩ :=
    failed_not_intact listening noDescriptor (by decide)
  exact ⟨handled, hhandled, hindexes, hintact⟩

/-- The transport writes outside the table when there is nothing to accept. -/
theorem writes_beforeTable : ¬ ∀ (s : ServerTransport ℕ) (calls : AcceptCalls), ¬ calls.Connects →
    ∀ handled, s.handleReadEvent s.listenfd calls = some handled → handled.Intact s := by
  intro hall
  have hwritten : ∃ handled, listening.handleReadEvent 3 noDescriptor = some handled ∧
      (-2 : BitVec 32) ∈ handled.indexes :=
    ⟨_, rfl, by decide⟩
  obtain ⟨handled, hhandled, hmem⟩ := hwritten
  have hinside := (hall listening noDescriptor (by decide) handled hhandled).inside _ hmem
  exact absurd hinside.1 (by decide)

end ServerTransport

/-! ## The server's model -/

namespace ServerTransport

variable {Service : Type} {s : ServerTransport EventHandler} {calls : AcceptCalls}
  {handled : Handled EventHandler}

/-- The transport as a part of the server. -/
def asServer (s : ServerTransport EventHandler) (dictionary : CS.Dict (List UInt8) Service)
    (returnValues : ℤ → List Rpc.RpcResult) : RpcServer Service where
  dictionary := dictionary
  list := s.manager.asTable
  returnValues := returnValues
  interest := s.interest
  listenfd := s.listenfd.toInt

theorem toInt_eq_toNat {fd : BitVec 32} (h : InTable fd.toInt) : fd.toInt = fd.toNat := by
  have hcond := BitVec.toInt_eq_toNat_cond fd
  have hlt := toNat_lt_of_inTable h
  split at hcond <;> omega

/-- The table of the server as its array holds it, after the handlers of a connection were
attached. -/
theorem asTable_attachAll {connfd : BitVec 32} (hfd : InTable connfd.toInt)
    (hreader : s.socketReader = some .requestHandler)
    (hwriter : s.socketWriter = some .resultSender)
    (hthis : s.this = .serverTransport) :
    (s.attachAll connfd).asTable = RpcServer.attachAll s.manager.asTable connfd.toNat := by
  simp only [attachAll, RpcServer.attachAll, hreader, hwriter, hthis, attachEventHandler,
    HandlerTable.attachEventHandler, Option.isSome_some, if_true, asTable_setEventHandler hfd]
  rfl

/-- With the handlers of the server, an event of the listening socket is what the server's model
makes of it, but for the memory before the array. -/
theorem handleReadEvent_asServer {dictionary : CS.Dict (List UInt8) Service}
    {returnValues : ℤ → List Rpc.RpcResult} {input : Input Service}
    (hreader : s.socketReader = some .requestHandler)
    (hwriter : s.socketWriter = some .resultSender)
    (hthis : s.this = .serverTransport) (hfd : calls.Connects → InTable calls.accept.toInt)
    (hinput : input.accepted = if calls.Connects then some calls.accept.toInt else none)
    (hhandled : s.handleReadEvent s.listenfd calls = some handled) :
    ∃ t, (s.asServer dictionary returnValues).accept s.listenfd.toInt input = .finished t ∧
      t.interest = handled.transport.interest ∧
      ∀ i, 0 ≤ i → t.list i = handled.transport.manager.asTable i := by
  rw [handleReadEvent, if_neg (not_not.mpr rfl)] at hhandled
  obtain rfl := Option.some.inj hhandled
  -- what `Accept` returned is the same in both
  have hconnfd : input.accepted.getD (-1) = calls.run.1.toInt := by
    rw [hinput]
    by_cases h : calls.Connects
    · rw [if_pos h, AcceptCalls.run_of_connects h]
      rfl
    · rw [if_neg h, AcceptCalls.run_of_not_connects h]
      rfl
  have hlisten : (s.asServer dictionary returnValues).listenfd = s.listenfd.toInt := rfl
  rw [RpcServer.accept, hlisten, if_neg (not_not.mpr rfl), hconnfd]
  refine ⟨_, rfl, ?_, fun i hi => ?_⟩
  · simp only [RpcServer.modEvent, RpcServer.addEvent, modEvent, addEvent, asServer]
    split_ifs <;> rfl
  · rw [RpcServer.modEvent_list, RpcServer.addEvent_list]
    simp only [modEvent_manager, addEvent_manager]
    by_cases h : calls.Connects
    · have htoNat := toInt_eq_toNat (hfd h)
      rw [AcceptCalls.run_of_connects h, asTable_attachAll (hfd h) hreader hwriter hthis, htoNat]
      rfl
    · -- the three slots of -1 are before the array
      have htoInt : (-1 : BitVec 32).toInt = -1 := by decide
      rw [AcceptCalls.run_of_not_connects h, htoInt, RpcServer.attachAll_apply,
        if_neg (by omega), if_neg (by omega), if_neg (by omega)]
      simp only [attachAll, attachEventHandler_failed]
      rfl

end ServerTransport

end DreamboatRpc.Server
