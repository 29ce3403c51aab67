import DreamboatRpc.Server.FaultIsolation

/-!
# The slots of the handler table

`EventHandlerManager` keeps a pointer for each descriptor and event, in one array. Where it sets
pointers it shifts the descriptor by two bits and sets the lowest bits itself; where it looks one
up, a table turns the mask of the events that were reported into these bits. Here both work on
the bits of an `int`, as they do in the code.

## Main definitions

* `SlotTable` — the array, with `setEventHandler` and `handleEvent`
* `Event`, `highest` — an event, and which event of a mask counts
* `held` — the handler that was attached last and not detached

## Main results

* `handler_slots` — what is looked up is what is held
* `asTable_setEventHandler`, `handleEvent_eq_asTable` — the table of the server is this array
-/

namespace DreamboatRpc.Server

open CS

/-! ## Indexes -/

/-- `READ_EVENT`, `WRITE_EVENT` or `CLOSE_EVENT` -/
inductive Event
  | read
  | write
  | close
  deriving DecidableEq

namespace Event

/-- Its value in `EventType`. -/
def bit : Event → BitVec 32
  | read => 1
  | write => 2
  | close => 4

/-- Its place among the slots of a descriptor. -/
def id : Event → BitVec 32
  | read => 0
  | write => 1
  | close => 2

/-- `Type & e` -/
def isIn (e : Event) (type : BitVec 32) : Bool := type &&& e.bit != 0

end Event

namespace SlotTable

/-- `MAX_EVENT_HANDLERS` -/
def maxEventHandlers : ℕ := maxFileDescriptors.toNat <<< 2

/-- `LookUpTable` -/
def lookUpTable : List (BitVec 32) := [-1, 0, 1, 1, 2, 2, 2, 2]

/-- `EventHandler::EventTypeToEventId(Type)` -/
def eventTypeToEventId (type : BitVec 32) : BitVec 32 :=
  lookUpTable.getD (type &&& 7).toNat (-1)

/-- `GetEventId(Fd, Type)` -/
def getEventId (fd type : BitVec 32) : BitVec 32 := fd <<< 2 ||| eventTypeToEventId type

/-- The indexes that `SetEventHandler(Fd, Type, Handler)` writes to. -/
def setIndexes (fd type : BitVec 32) : List (BitVec 32) :=
  (if Event.read.isIn type then [fd <<< 2] else []) ++
    ((if Event.write.isIn type then [fd <<< 2 ||| 1] else []) ++
      if Event.close.isIn type then [fd <<< 2 ||| 2] else [])

/-- The slot of a descriptor and an event. -/
def slot (fd : BitVec 32) (e : Event) : BitVec 32 := fd <<< 2 ||| e.id

/-- The event of a mask whose handler is called: close, then write, then read. -/
def highest (type : BitVec 32) : Option Event :=
  if Event.close.isIn type then some .close
  else if Event.write.isIn type then some .write
  else if Event.read.isIn type then some .read
  else none

variable {fd fd' type : BitVec 32} {e e' : Event}

/-- A descriptor of the table is not negative and has sixteen bits. -/
theorem toNat_lt_of_inTable (h : InTable fd.toInt) : fd.toNat < 65536 := by
  obtain ⟨hnonneg, hlt⟩ := h
  rw [maxFileDescriptors] at hlt
  have hmsb := BitVec.toInt_eq_toNat_cond fd
  split at hmsb <;> omega

/-- The two bits of the event are below those of the descriptor. -/
theorem toNat_slot (h : InTable fd.toInt) (e : Event) :
    (slot fd e).toNat = 4 * fd.toNat + e.id.toNat := by
  have hfd := toNat_lt_of_inTable h
  have hid : e.id.toNat < 2 ^ 2 := by cases e <;> decide
  have hshift : (fd <<< 2).toNat = fd.toNat <<< 2 := by
    rw [BitVec.toNat_shiftLeft, Nat.mod_eq_of_lt]
    rw [Nat.shiftLeft_eq]
    omega
  rw [slot, BitVec.toNat_or, hshift, ← Nat.shiftLeft_add_eq_or_of_lt hid, Nat.shiftLeft_eq]
  omega

theorem slot_lt (h : InTable fd.toInt) (e : Event) : (slot fd e).toNat < maxEventHandlers := by
  have hfd := toNat_lt_of_inTable h
  have hid : e.id.toNat < 4 := by cases e <;> decide
  have hmax : maxEventHandlers = 4 * 65536 := by decide
  rw [toNat_slot h, hmax]
  omega

/-- Different descriptors or events have different slots. -/
theorem slot_inj (h : InTable fd.toInt) (h' : InTable fd'.toInt) :
    slot fd e = slot fd' e' ↔ fd = fd' ∧ e = e' := by
  refine ⟨fun heq => ?_, fun heq => by rw [heq.1, heq.2]⟩
  have hnat := congrArg BitVec.toNat heq
  rw [toNat_slot h, toNat_slot h'] at hnat
  have hid : e.id.toNat < 4 := by cases e <;> decide
  have hid' : e'.id.toNat < 4 := by cases e' <;> decide
  refine ⟨BitVec.eq_of_toNat_eq (by omega), ?_⟩
  have hsame : e.id.toNat = e'.id.toNat := by omega
  cases e <;> cases e' <;> first | rfl | exact absurd hsame (by decide)

/-- Only the lowest three bits of a mask count. -/
theorem isIn_and_seven (e : Event) (type : BitVec 32) : e.isIn (type &&& 7) = e.isIn type := by
  rw [Event.isIn, Event.isIn, BitVec.and_assoc]
  cases e <;> rfl

theorem highest_and_seven (type : BitVec 32) : highest (type &&& 7) = highest type := by
  simp only [highest, isIn_and_seven]

theorem eventTypeToEventId_and_seven (type : BitVec 32) :
    eventTypeToEventId (type &&& 7) = eventTypeToEventId type := by
  rw [eventTypeToEventId, eventTypeToEventId, BitVec.and_assoc, BitVec.and_self]

/-- The table finds the bits of the event that counts. -/
theorem eventTypeToEventId_of_highest (h : highest type = some e) :
    eventTypeToEventId type = e.id := by
  have hall : ∀ k < 8, ∀ e ∈ highest (BitVec.ofNat 32 k),
      eventTypeToEventId (BitVec.ofNat 32 k) = e.id := by decide
  have hlt : (type &&& 7).toNat < 8 := by
    rw [BitVec.toNat_and]
    exact Nat.lt_succ_of_le Nat.and_le_right
  have hlow := hall _ hlt e
  rw [BitVec.ofNat_toNat, BitVec.setWidth_eq, highest_and_seven,
    eventTypeToEventId_and_seven] at hlow
  exact hlow h

/-- So the slot that is looked up is that of the event that counts. -/
theorem getEventId_of_highest (h : highest type = some e) : getEventId fd type = slot fd e := by
  rw [getEventId, eventTypeToEventId_of_highest h, slot]

theorem highest_bit (e : Event) : highest e.bit = some e := by
  cases e <;> decide

/-- An index that is set is the slot of an event in the mask. -/
theorem mem_setIndexes {i : BitVec 32} :
    i ∈ setIndexes fd type ↔ ∃ e : Event, e.isIn type = true ∧ i = slot fd e := by
  have hread : slot fd .read = fd <<< 2 := BitVec.or_zero
  constructor
  · intro h
    rcases List.mem_append.mp h with h | h
    · split at h
      · rename_i hin
        exact ⟨.read, hin, by rw [hread]; exact List.mem_singleton.mp h⟩
      · cases h
    rcases List.mem_append.mp h with h | h
    · split at h
      · rename_i hin
        exact ⟨.write, hin, List.mem_singleton.mp h⟩
      · cases h
    · split at h
      · rename_i hin
        exact ⟨.close, hin, List.mem_singleton.mp h⟩
      · cases h
  · rintro ⟨e, hin, rfl⟩
    cases e with
    | read => simp [setIndexes, hin, hread]
    | write => simp [setIndexes, hin, slot, Event.id]
    | close => simp [setIndexes, hin, slot, Event.id]

end SlotTable

/-! ## The array -/

/-- `_list`, with `nullptr` as `none`. -/
structure SlotTable (H : Type*) where
  list : List (Option H)
  length_list : list.length = SlotTable.maxEventHandlers

namespace SlotTable

variable {H : Type*}

section Slots

/-- The constructor fills the array with `nullptr`. -/
def empty : SlotTable H := ⟨List.replicate maxEventHandlers none, List.length_replicate⟩

variable (m : SlotTable H)

/-- `_list[i] = Handler` -/
def write (i : BitVec 32) (handler : Option H) : SlotTable H :=
  ⟨m.list.set i.toNat handler, by rw [List.length_set, m.length_list]⟩

/-- `_list[i]`; `none` outside the array. -/
def read (i : BitVec 32) : Option (Option H) := m.list[i.toNat]?

/-- `EventHandlerManager::SetEventHandler` -/
def setEventHandler (fd type : BitVec 32) (handler : Option H) : SlotTable H :=
  let m := if Event.read.isIn type then m.write (fd <<< 2) handler else m
  let m := if Event.write.isIn type then m.write (fd <<< 2 ||| 1) handler else m
  if Event.close.isIn type then m.write (fd <<< 2 ||| 2) handler else m

/-- `EventHandlerManager::AttachEventHandler` -/
def attachEventHandler (fd type : BitVec 32) (handler : Option H) : SlotTable H :=
  if handler.isSome then m.setEventHandler fd type handler else m

/-- `EventHandlerManager::DetachEventHandler` -/
def detachEventHandler (fd type : BitVec 32) : SlotTable H := m.setEventHandler fd type none

/-- `EventHandlerManager::HandleEvent`: the handler that is called, if any; `none` if the array is
left. -/
def handleEvent (fd type : BitVec 32) : Option (Option H) :=
  if type = 0 then some none else m.read (getEventId fd type)

variable {m} {fd fd' type i j : BitVec 32} {e : Event} {handler : Option H}

/-- What is read after a write. -/
theorem read_write (hi : i.toNat < maxEventHandlers) :
    (m.write i handler).read j = if j = i then some handler else m.read j := by
  rw [read, write, List.getElem?_set]
  by_cases hij : j = i
  · subst hij
    rw [if_pos rfl, if_pos rfl, if_pos (by rw [m.length_list]; exact hi)]
  · have hne : i.toNat ≠ j.toNat := fun h => hij (BitVec.eq_of_toNat_eq h.symm)
    rw [if_neg hne, if_neg hij, read]

/-- Writing to several indexes. -/
theorem read_foldl_write {indexes : List (BitVec 32)}
    (h : ∀ i ∈ indexes, i.toNat < maxEventHandlers) :
    (indexes.foldl (fun m i => m.write i handler) m).read j =
      if j ∈ indexes then some handler else m.read j := by
  induction indexes generalizing m with
  | nil => rfl
  | cons i indexes ih =>
    obtain ⟨hi, hindexes⟩ := List.forall_mem_cons.mp h
    rw [List.foldl_cons, ih hindexes, read_write hi]
    by_cases hj : j ∈ indexes
    · rw [if_pos hj, if_pos (List.mem_cons_of_mem _ hj)]
    · rw [if_neg hj]
      by_cases hji : j = i
      · rw [if_pos hji, if_pos (hji ▸ List.mem_cons_self ..)]
      · rw [if_neg hji, if_neg (by simp [hji, hj])]

theorem setEventHandler_eq : m.setEventHandler fd type handler =
    (setIndexes fd type).foldl (fun m i => m.write i handler) m := by
  rw [setEventHandler, setIndexes, List.foldl_append, List.foldl_append]
  cases Event.read.isIn type <;> cases Event.write.isIn type <;> cases Event.close.isIn type <;> rfl

/-- Setting a handler changes the slots of its descriptor and its events. -/
theorem read_setEventHandler (h : InTable fd.toInt) (h' : InTable fd'.toInt) :
    (m.setEventHandler fd type handler).read (slot fd' e) =
      if fd' = fd ∧ e.isIn type then some handler else m.read (slot fd' e) := by
  have hindexes : ∀ i ∈ setIndexes fd type, i.toNat < maxEventHandlers := by
    intro i hi
    obtain ⟨e, -, rfl⟩ := mem_setIndexes.mp hi
    exact slot_lt h e
  have hmem : slot fd' e ∈ setIndexes fd type ↔ fd' = fd ∧ e.isIn type := by
    rw [mem_setIndexes]
    constructor
    · rintro ⟨e', hin, heq⟩
      obtain ⟨rfl, rfl⟩ := (slot_inj h' h).mp heq
      exact ⟨rfl, hin⟩
    · rintro ⟨rfl, hin⟩
      exact ⟨e, hin, rfl⟩
  rw [setEventHandler_eq, read_foldl_write hindexes]
  simp only [hmem]

/-- An event that counts is looked up in its slot. -/
theorem handleEvent_of_highest (h : highest type = some e) :
    m.handleEvent fd type = m.read (slot fd e) := by
  have hne : type ≠ 0 := by
    rintro rfl
    exact absurd h (by decide +revert)
  rw [handleEvent, if_neg hne, getEventId_of_highest h]

end Slots

/-! ## A map -/

/-- A call of `AttachEventHandler` or `DetachEventHandler`. -/
inductive Call (H : Type*)
  | attach (fd type : BitVec 32) (handler : Option H)
  | detach (fd type : BitVec 32)

/-- The descriptor of a call. -/
def Call.fd : Call H → BitVec 32
  | attach fd _ _ => fd
  | detach fd _ => fd

/-- The table after a call. -/
def exec (m : SlotTable H) : Call H → SlotTable H
  | .attach fd type handler => m.attachEventHandler fd type handler
  | .detach fd type => m.detachEventHandler fd type

/-- The table after calls, of which the last comes first. -/
def after : List (Call H) → SlotTable H
  | [] => empty
  | call :: earlier => (after earlier).exec call

/-- What a call makes of the handler of a descriptor and an event: attaching no handler changes
nothing. -/
def heldAfter (before : Option H) (fd : BitVec 32) (e : Event) : Call H → Option H
  | .attach fd' type (some handler) => if fd = fd' ∧ e.isIn type then some handler else before
  | .attach _ _ none => before
  | .detach fd' type => if fd = fd' ∧ e.isIn type then none else before

/-- The handler that was attached last for a descriptor and an event, unless it was detached
since. -/
def held (fd : BitVec 32) (e : Event) : List (Call H) → Option H
  | [] => none
  | call :: earlier => heldAfter (held fd e earlier) fd e call

variable {m : SlotTable H} {fd : BitVec 32} {e : Event}

/-- A call changes what is found as it changes what is held. -/
theorem read_exec {call : Call H} {before : Option H} (hcall : InTable call.fd.toInt)
    (hfd : InTable fd.toInt) (h : m.read (slot fd e) = some before) :
    (m.exec call).read (slot fd e) = some (heldAfter before fd e call) := by
  cases call with
  | attach fd' type handler =>
    cases handler with
    | none => exact h
    | some handler =>
      have hfd' : InTable fd'.toInt := hcall
      change (m.setEventHandler fd' type (some handler)).read (slot fd e) = _
      rw [read_setEventHandler hfd' hfd, heldAfter, h]
      split <;> rfl
  | detach fd' type =>
    have hfd' : InTable fd'.toInt := hcall
    change (m.setEventHandler fd' type none).read (slot fd e) = _
    rw [read_setEventHandler hfd' hfd, heldAfter, h]
    split <;> rfl

/-- What is found is what is held. -/
theorem read_after {calls : List (Call H)} (hcalls : ∀ call ∈ calls, InTable call.fd.toInt)
    (hfd : InTable fd.toInt) (e : Event) :
    (after calls).read (slot fd e) = some (held fd e calls) := by
  induction calls with
  | nil =>
    rw [after, held, read, empty, List.getElem?_replicate, if_pos (slot_lt hfd e)]
  | cons call calls ih =>
    obtain ⟨hcall, hbefore⟩ := List.forall_mem_cons.mp hcalls
    exact read_exec hcall hfd (ih hbefore)

/-- An index in the array, as an `int`. -/
theorem toInt_slot (h : InTable fd.toInt) (e : Event) :
    0 ≤ (slot fd e).toInt ∧ (slot fd e).toInt < maxEventHandlers := by
  have hlt := slot_lt h e
  have hmax : maxEventHandlers = 4 * 65536 := by decide
  have hcond := BitVec.toInt_eq_toNat_cond (slot fd e)
  split at hcond <;> omega

/-- After any calls on descriptors of the table: an event of a descriptor finds the handler that
was attached last for both and not detached since, and attaching no handler changes nothing; the
slots of different descriptors or events are different; every index that is set, or looked up for
a mask with an event, is in the array; and a mask of several events finds what its highest event
finds. -/
theorem handler_slots (calls : List (Call H)) (hcalls : ∀ call ∈ calls, InTable call.fd.toInt) :
    (∀ fd e, InTable fd.toInt → (after calls).handleEvent fd e.bit = some (held fd e calls)) ∧
    (∀ fd type, (after calls).attachEventHandler fd type none = after calls) ∧
    (∀ fd fd' (e e' : Event), InTable fd.toInt → InTable fd'.toInt →
      (getEventId fd e.bit = getEventId fd' e'.bit ↔ fd = fd' ∧ e = e')) ∧
    (∀ fd type i, InTable fd.toInt →
      i ∈ setIndexes fd type ∨ (highest type).isSome ∧ i = getEventId fd type →
        0 ≤ i.toInt ∧ i.toInt < maxEventHandlers) ∧
    ∀ fd type e, InTable fd.toInt → highest type = some e →
      getEventId fd type = getEventId fd e.bit ∧
        (after calls).handleEvent fd type = some (held fd e calls) := by
  refine ⟨fun fd e hfd => ?_, fun fd type => rfl, fun fd fd' e e' hfd hfd' => ?_,
    fun fd type i hfd hi => ?_, fun fd type e hfd he => ⟨?_, ?_⟩⟩
  · rw [handleEvent_of_highest (highest_bit e)]
    exact read_after hcalls hfd e
  · rw [getEventId_of_highest (highest_bit e), getEventId_of_highest (highest_bit e')]
    exact slot_inj hfd hfd'
  · rcases hi with hi | ⟨hsome, rfl⟩
    · obtain ⟨e, -, rfl⟩ := mem_setIndexes.mp hi
      exact toInt_slot hfd e
    · obtain ⟨e, he⟩ := Option.isSome_iff_exists.mp hsome
      rw [getEventId_of_highest he]
      exact toInt_slot hfd e
  · rw [getEventId_of_highest he, getEventId_of_highest (highest_bit e)]
  · rw [handleEvent_of_highest he]
    exact read_after hcalls hfd e

/-- Descriptor 5 gets a handler for reading and closing, then another for reading, and the first
is detached for closing. -/
def replacesReader : List (Call ℕ) := [.detach 5 4, .attach 5 1 (some 8), .attach 5 5 (some 7)]

theorem handler_slots_replacesReader :
    (after replacesReader).handleEvent 5 1 = some (some 8) ∧
      (after replacesReader).handleEvent 5 5 = some none := by
  have h := handler_slots replacesReader (by decide)
  exact ⟨h.1 5 .read (by decide), (h.2.2.2.2 5 5 .close (by decide) (by decide)).2⟩

/-! ## The table of the server -/

/-- The array as the memory from `_list` on. -/
def asTable (m : SlotTable EventHandler) : HandlerTable :=
  fun i => if 0 ≤ i then (m.list[i.toNat]?).join else none

theorem asTable_toNat (m : SlotTable EventHandler) (i : BitVec 32) :
    m.asTable i.toNat = (m.read i).join := by
  rw [asTable, if_pos (Int.natCast_nonneg _), Int.toNat_natCast, read]

/-- A mask has an event if its bit is set. -/
theorem isIn_eq_testBit (e : Event) (type : BitVec 32) :
    e.isIn type = type.toNat.testBit e.id.toNat := by
  have hbit : e.bit = BitVec.twoPow 32 e.id.toNat := by cases e <;> rfl
  have hne : BitVec.twoPow 32 e.id.toNat ≠ 0 := by cases e <;> decide
  rw [Event.isIn, hbit, BitVec.and_twoPow, BitVec.testBit_toNat]
  split
  · rename_i hset
    rw [hset]
    exact bne_iff_ne.mpr hne
  · rename_i hclear
    rw [Bool.not_eq_true] at hclear
    rw [hclear]
    rfl

theorem asTable_write {m : SlotTable EventHandler} {i : BitVec 32} {handler : Option EventHandler}
    (hi : i.toNat < maxEventHandlers) :
    (m.write i handler).asTable = Function.update m.asTable i.toNat handler := by
  funext j
  rw [Function.update_apply]
  by_cases hj : 0 ≤ j
  · lift j to ℕ using hj
    have hlength : i.toNat < m.list.length := by rwa [m.length_list]
    simp only [asTable, write, Int.natCast_nonneg, if_true, Int.toNat_natCast, List.getElem?_set,
      hlength, Nat.cast_inj]
    by_cases hij : i.toNat = j
    · simp [hij]
    · simp [hij, Ne.symm hij]
  · have hne : j ≠ i.toNat := by omega
    simp [asTable, hj, hne]

/-- Setting a handler in the array is setting it in the table of the server. -/
theorem asTable_setEventHandler {m : SlotTable EventHandler} {fd type : BitVec 32}
    {handler : Option EventHandler} (h : InTable fd.toInt) :
    (m.setEventHandler fd type handler).asTable =
      m.asTable.setEventHandler fd.toNat type.toNat handler := by
  have hwrite : ∀ (e : Event) (m : SlotTable EventHandler), (m.write (slot fd e) handler).asTable =
      Function.update m.asTable (4 * fd.toNat + e.id.toNat : ℕ) handler := by
    intro e m
    rw [asTable_write (slot_lt h e), toNat_slot h]
  have hread : ∀ m : SlotTable EventHandler, (m.write (fd <<< 2) handler).asTable =
      Function.update m.asTable (4 * fd.toNat) handler := by
    intro m
    rw [show fd <<< 2 = slot fd .read from BitVec.or_zero.symm, hwrite]
    rfl
  have hwritten : ∀ m : SlotTable EventHandler, (m.write (fd <<< 2 ||| 1) handler).asTable =
      Function.update m.asTable (4 * fd.toNat + 1) handler := hwrite .write
  have hclosed : ∀ m : SlotTable EventHandler, (m.write (fd <<< 2 ||| 2) handler).asTable =
      Function.update m.asTable (4 * fd.toNat + 2) handler := hwrite .close
  simp only [SlotTable.setEventHandler, HandlerTable.setEventHandler,
    ← show Event.read.isIn type = type.toNat.testBit 0 from isIn_eq_testBit .read type,
    ← show Event.write.isIn type = type.toNat.testBit 1 from isIn_eq_testBit .write type,
    ← show Event.close.isIn type = type.toNat.testBit 2 from isIn_eq_testBit .close type]
  cases Event.read.isIn type <;> cases Event.write.isIn type <;> cases Event.close.isIn type <;>
    simp only [hread, hwritten, hclosed, if_true, if_false, Bool.false_eq_true]

/-- The server's model counts the same event of a mask. -/
theorem serverEventId_of_highest {type : BitVec 32} {e : Event} (he : highest type = some e) :
    Server.eventTypeToEventId type.toNat = e.id.toNat := by
  have hall : ∀ k < 8, ∀ e ∈ highest (BitVec.ofNat 32 k),
      Server.eventTypeToEventId k = e.id.toNat := by decide
  have hlow : (type &&& 7).toNat = type.toNat % 8 := by
    rw [BitVec.toNat_and]
    exact Nat.and_two_pow_sub_one_eq_mod type.toNat 3
  have hfound := hall (type.toNat % 8) (Nat.mod_lt _ (by decide)) e
  rw [← hlow, BitVec.ofNat_toNat, BitVec.setWidth_eq, highest_and_seven, hlow] at hfound
  rw [← hfound he, Server.eventTypeToEventId, Server.eventTypeToEventId, Nat.mod_mod]

theorem serverGetEventId_of_highest {fd type : BitVec 32} {e : Event} (h : InTable fd.toInt)
    (he : highest type = some e) :
    Server.getEventId fd.toNat type.toNat = (slot fd e).toNat := by
  have hne : ¬ (e.id.toNat : ℤ) = -1 := by omega
  rw [Server.getEventId, serverEventId_of_highest he, if_neg hne, toNat_slot h]
  rfl

/-- Looking up a handler in the array is looking it up in the table of the server. -/
theorem handleEvent_eq_asTable {m : SlotTable EventHandler} {fd type : BitVec 32} {e : Event}
    (h : InTable fd.toInt) (he : highest type = some e) :
    m.handleEvent fd type = some (m.asTable (Server.getEventId fd.toNat type.toNat)) := by
  have hlt : (slot fd e).toNat < m.list.length := by
    rw [m.length_list]
    exact slot_lt h e
  rw [handleEvent_of_highest he, serverGetEventId_of_highest h he, asTable_toNat, read,
    List.getElem?_eq_getElem hlt, Option.join_some]

end SlotTable

end DreamboatRpc.Server
