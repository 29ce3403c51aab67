import DreamboatRpc.Client.Allocation
import DreamboatRpc.Client.ReplyMatching
import DreamboatRpc.Client.ResultFraming

/-!
# The table and what the peer sends

The handler uses the number it received four times: to find the callback, to delete it, to
clear its slot and to recycle the id. It does not check it, whatever the peer has sent and
however much of it has arrived. If the number names a slot that is not empty, all four are
safe, since only ids in use have one; otherwise the first is not. The slots that are not empty
are those of the ids under which a callback was registered and no result was received since.

## Main definitions

* `Occupied` — a slot of the table that is not null
* `TableSafe` — what the handler does next to the table and the allocator is safe
* `Outstanding` — what was registered in the table and not received since
* `findsSlot` — what is received names a slot that is not empty
* `Sound` — the table, the ids in use, and what threads and event loop have in hand

## Main results

* `Sound.exec_heard` — an action keeps a client sound, up to what it received
* `Sound.exec` — an action that finds its slot keeps a client sound
* `Tracked.exec` — such an action keeps the table in step with what is outstanding
* `table_safe_iff` — when the handler is safe
-/

namespace DreamboatRpc.Client

open CS Rpc TransitionSystem

variable {τ : Type*}

/-- `CallidCallbackMapping[id]` is in the table and not null. -/
def Occupied (slots : List Slot) (id : ℤ) : Prop :=
  ∃ slot, slotAt slots id = some slot ∧ slot ≠ .null

instance (slots : List Slot) (id : ℤ) : Decidable (Occupied slots id) :=
  decidable_of_iff ((slotAt slots id).any (fun slot => decide (slot ≠ .null)) = true)
    (by simp [Occupied, Option.any_eq_true])

/-- The handler calls and deletes a callback in the table, clears a slot of the table, and
recycles an id that is in use and then no longer is. -/
def TableSafe (s : System τ) : Prop :=
  match s.loop with
  | .dispatching => True
  | .received _ res | .executing _ res => Occupied s.slots (resultId res)
  | .deleted res => (slotAt s.slots (resultId res)).isSome = true
  | .nulled res => resultId res ∈ s.live ∧ resultId res ∉ s.live.erase (resultId res)

/-- The id under which a step registers a callback. -/
def registeredId (x : Transition (System τ) (Action τ)) : Option ℤ :=
  match x.event with
  | .invoke t =>
    match x.source.threads t with
    | .numbered _ _ true message => some (messageId message)
    | _ => none
  | _ => none

/-- The number in what a step receives. -/
def receivedId (x : Transition (System τ) (Action τ)) : Option ℤ :=
  match x.event with
  | .read .answer => x.source.answers.head?.map fun answer => resultId answer.result
  | .read (.other res) => some (resultId res)
  | _ => none

/-- A callback was registered under the id, which is in the table, and no result with that
number was received since. -/
def Outstanding : List (Transition (System τ) (Action τ)) → ℤ → Prop
  | [], _ => False
  | x :: earlier, id =>
    (registeredId x = some id ∧ 0 ≤ id ∧ id < maxRequests) ∨
      (receivedId x ≠ some id ∧ Outstanding earlier id)

instance Outstanding.decidable :
    (history : List (Transition (System τ) (Action τ))) → (id : ℤ) →
      Decidable (Outstanding history id)
  | [], _ => instDecidableFalse
  | _ :: earlier, id =>
    have := Outstanding.decidable earlier id
    inferInstanceAs (Decidable (_ ∨ _))

/-- The number in what is received names a slot that is not empty. -/
def findsSlot (s : System τ) : Action τ → Prop
  | .read .answer => ∀ answer ∈ s.answers.head?, Occupied s.slots (resultId answer.result)
  | .read (.other res) => Occupied s.slots (resultId res)
  | _ => True

/-! ## Slots -/

section Slots

variable {slots : List Slot} {id i : ℤ} {slot a : Slot}

/-- What is in the table after a slot was set. -/
theorem eq_of_slotAt_setSlot (h : slotAt (setSlot slots id slot) i = some a) :
    (i = id ∧ a = slot) ∨ (i ≠ id ∧ slotAt slots i = some a) := by
  by_cases hi : i = id
  · subst hi
    left
    refine ⟨rfl, ?_⟩
    unfold setSlot at h
    split at h
    · rename_i hneg
      rw [slotAt, if_pos hneg] at h
      cases h
    · rename_i hnonneg
      rw [slotAt, if_neg hnonneg] at h
      obtain ⟨hlt, heq⟩ := List.getElem?_eq_some_iff.mp h
      rw [← heq, List.getElem_set_self]
  · rw [slotAt_setSlot_of_ne hi] at h
    exact .inr ⟨hi, h⟩

theorem Registered.occupied (h : Registered slots id) : Occupied slots id := by
  obtain ⟨call, hslot⟩ := h
  exact ⟨_, hslot, by simp⟩

/-- A slot that is set to anything else stays as it was. -/
theorem occupied_setSlot_of_ne (h : i ≠ id) :
    Occupied (setSlot slots id slot) i ↔ Occupied slots i := by
  rw [Occupied, slotAt_setSlot_of_ne h, ← Occupied]

theorem not_occupied_clear : ¬ Occupied (setSlot slots id .null) id := by
  rintro ⟨a, ha, hne⟩
  rcases eq_of_slotAt_setSlot ha with ⟨-, rfl⟩ | ⟨hself, -⟩
  · exact hne rfl
  · exact hself rfl

/-- A callback stays registered while others are registered. -/
theorem Registered.register (h : Registered slots i) (call : ℕ) :
    Registered (setSlot slots id (.callback call)) i := by
  obtain ⟨c, hslot⟩ := h
  by_cases hi : i = id
  · subst hi
    exact ⟨call, slotAt_setSlot_self hslot⟩
  · exact ⟨c, by rw [slotAt_setSlot_of_ne hi, hslot]⟩

end Slots

/-! ## The invariant -/

/-- What was received and not yet used is left out. -/
def LoopPoint.heard : LoopPoint → LoopPoint
  | received _ _ => dispatching
  | point => point

/-- The client without what it received and has not used. -/
def System.heard (s : System τ) : System τ := { s with loop := s.loop.heard }

/-- The thread has this id, and has not registered its callback. -/
def HasId (threads : Option τ → CallPoint) (t : Option τ) (id : ℤ) : Prop :=
  ∃ call, (threads t).inHand = some (id, false, call)

/-- What the event loop relies on: the slot of its result has a callback, or the deleted one;
or it is empty, while the id is still in use and no thread has it. -/
def LoopSound (slots : List Slot) (live : List ℤ) (threads : Option τ → CallPoint) :
    LoopPoint → Prop
  | .dispatching => True
  | .received _ res | .executing _ res => Registered slots (resultId res)
  | .deleted res => slotAt slots (resultId res) = some .dangling
  | .nulled res => resultId res ∈ live ∧ ¬ Occupied slots (resultId res) ∧
      ∀ t, ¬ HasId threads t (resultId res)

/-- The ids are accounted for; only ids in use have a slot that is not empty; a thread that has
an id is the only one, and its slot is still empty; and the event loop can rely on the table. -/
structure Sound (s : System τ) : Prop where
  accounts : s.guid.Accounts s.live
  bound : s.guid.bound ≤ maxGuid
  occupied : ∀ id, Occupied s.slots id → id ∈ s.live
  dangling : ∀ id, slotAt s.slots id = some .dangling →
    ∃ res, s.loop = .deleted res ∧ resultId res = id
  hasId : ∀ t id, HasId s.threads t id → id ∈ s.live ∧ ¬ Occupied s.slots id
  unique : ∀ t u id, HasId s.threads t id → HasId s.threads u id → t = u
  loop : LoopSound s.slots s.live s.threads s.loop

section Threads

variable {threads threads' : Option τ → CallPoint} {t u : Option τ} {id : ℤ} {point : CallPoint}
  {slots : List Slot} {live : List ℤ} {loop : LoopPoint}

/-- A thread that goes on without an id. -/
theorem HasId.of_update [DecidableEq τ] (hpoint : ∀ i call, point.inHand ≠ some (i, false, call))
    (h : HasId (Function.update threads t point) u id) : u ≠ t ∧ HasId threads u id := by
  obtain ⟨call, hcall⟩ := h
  by_cases hu : u = t
  · rw [hu, Function.update_self] at hcall
    exact absurd hcall (hpoint id call)
  · rw [Function.update_of_ne hu] at hcall
    exact ⟨hu, call, hcall⟩

/-- A thread has no id after a call. -/
theorem HasId.of_afterCall [DecidableEq τ] {call : ℕ} {sync : Bool}
    (h : HasId (Function.update threads t (afterCall call sync)) u id) : HasId threads u id :=
  (h.of_update fun i c => by simp).2

/-- The event loop does not mind if threads let go of their ids. -/
theorem LoopSound.threads_mono (h : LoopSound slots live threads loop)
    (hthreads : ∀ t id, HasId threads' t id → HasId threads t id) :
    LoopSound slots live threads' loop := by
  cases loop with
  | nulled res => exact ⟨h.1, h.2.1, fun t ht => h.2.2 t (hthreads t _ ht)⟩
  | _ => exact h

end Threads

namespace Sound

variable {s s' : System τ} {a : Action τ} {t : Option τ}

theorem init : Sound (System.init : System τ) := by
  have hnone : ∀ id, ¬ Occupied (List.replicate maxRequests Slot.null) id := by
    rintro id ⟨slot, hslot, hne⟩
    unfold slotAt at hslot
    split at hslot
    · cases hslot
    · exact hne (List.eq_of_mem_replicate (List.mem_of_getElem? hslot))
  have hnobody : ∀ t id, ¬ HasId (System.init : System τ).threads t id := by
    rintro t id ⟨call, hcall⟩
    cases hcall
  refine ⟨.init, (by decide : (0 : ℤ) ≤ maxGuid), fun id h => absurd h (hnone id), fun id h => ?_,
    fun t id h => absurd h (hnobody t id), fun t u id h => absurd h (hnobody t id), trivial⟩
  exact absurd ⟨_, h, by simp⟩ (hnone id)

/-- What leaves the allocator, the table and the event loop alone. -/
theorem frame (h : Sound s) (hguid : s'.guid = s.guid) (hlive : s'.live = s.live)
    (hslots : s'.slots = s.slots) (hloop : s'.loop = s.loop)
    (hthreads : ∀ t id, HasId s'.threads t id → HasId s.threads t id) : Sound s' := by
  refine ⟨by rw [hguid, hlive]; exact h.accounts, by rw [hguid]; exact h.bound,
    by rw [hslots, hlive]; exact h.occupied, by rw [hslots, hloop]; exact h.dangling,
    fun t id ht => ?_, fun t u id ht hu => h.unique t u id (hthreads t id ht) (hthreads u id hu),
    ?_⟩
  · rw [hlive, hslots]
    exact h.hasId t id (hthreads t id ht)
  · rw [hslots, hlive, hloop]
    exact h.loop.threads_mono hthreads

/-- The event loop goes on, without touching the table. -/
theorem go (h : Sound s) {loop : LoopPoint} (answers : List Answer)
    (executed : List (ℕ × Option ℕ)) (hbefore : ∀ res, s.loop ≠ .deleted res)
    (hloop : LoopSound s.slots s.live s.threads loop) :
    Sound { s with answers := answers, loop := loop, executed := executed } := by
  refine ⟨h.accounts, h.bound, h.occupied, fun id hid => ?_, h.hasId, h.unique, hloop⟩
  obtain ⟨res, hres, -⟩ := h.dangling id hid
  exact absurd hres (hbefore res)

/-- While the event loop is between two handlers, a slot that is not empty has a callback. -/
theorem registered (h : Sound s) (hbefore : ∀ res, s.loop ≠ .deleted res) {id : ℤ}
    (hid : Occupied s.slots id) : Registered s.slots id := by
  obtain ⟨slot, hslot, hne⟩ := hid
  cases slot with
  | null => exact absurd rfl hne
  | callback call => exact ⟨call, hslot⟩
  | dangling =>
    obtain ⟨res, hres, -⟩ := h.dangling id hslot
    exact absurd hres (hbefore res)

/-- A sound client is sound up to what it received. -/
theorem heard (h : Sound s) : Sound s.heard := by
  have hloop := h.loop
  refine ⟨h.accounts, h.bound, h.occupied, fun id hid => ?_, h.hasId, h.unique, ?_⟩
  · obtain ⟨res, hres, heq⟩ := h.dangling id hid
    exact ⟨res, by simp [System.heard, hres, LoopPoint.heard], heq⟩
  · show LoopSound s.slots s.live s.threads s.loop.heard
    cases hpos : s.loop with
    | received => trivial
    | _ =>
      rw [hpos] at hloop
      exact hloop

theorem of_heard (h : Sound s.heard) (hreceived : ∀ answers res,
    s.loop = .received answers res → Registered s.slots (resultId res)) : Sound s := by
  have hloop : LoopSound s.slots s.live s.threads s.loop.heard := h.loop
  refine ⟨h.accounts, h.bound, h.occupied, fun id hid => ?_, h.hasId, h.unique, ?_⟩
  · obtain ⟨res, hres, heq⟩ := h.dangling id hid
    refine ⟨res, ?_, heq⟩
    have hres' : s.loop.heard = .deleted res := hres
    cases hpos : s.loop with
    | received =>
      rw [hpos] at hres'
      cases hres'
    | _ =>
      rw [hpos] at hres'
      exact hres'
  · cases hpos : s.loop with
    | received answers res => exact hreceived answers res hpos
    | _ =>
      rw [hpos] at hloop
      exact hloop

/-- A call gets an id that nobody has, and whose slot is empty. -/
theorem numbered [DecidableEq τ] (h : Sound s) {sync : Bool} {service : Service}
    {encoding : List UInt8} {padding : CharArray 3} {beyond : ℤ}
    (hid : (s.guid.getGuid beyond).1 ≠ -1) :
    Sound (s.callRpcAsync t sync service encoding padding beyond) := by
  obtain ⟨hnone, -⟩ | ⟨hge, hle, hfresh, haccounts, -⟩ := h.accounts.getGuid beyond
  · rw [hnone] at hid
    exact absurd rfl hid
  obtain ⟨-, hbound, -⟩ := Guid.getGuid_bound beyond h.accounts h.bound
  rw [System.callRpcAsync, if_neg hid]
  set id := (s.guid.getGuid beyond).1 with hdef
  set point := CallPoint.numbered s.calls sync service.client
    (callMessage padding id service encoding) with hpoint
  have hhand : point.inHand = some (id, false, s.calls) := by
    rw [hpoint, CallPoint.inHand, messageId_callMessage (by omega) (by omega)]
  -- the new id is in the hands of this thread only
  have hthreads : ∀ u i, HasId (Function.update s.threads t point) u i →
      (u = t ∧ i = id) ∨ (u ≠ t ∧ HasId s.threads u i) := by
    rintro u i ⟨call, hcall⟩
    by_cases hu : u = t
    · rw [hu, Function.update_self, hhand, Option.some.injEq, Prod.mk.injEq] at hcall
      exact .inl ⟨hu, hcall.1.symm⟩
    · rw [Function.update_of_ne hu] at hcall
      exact .inr ⟨hu, call, hcall⟩
  have hother : ∀ u, ¬ HasId s.threads u id := fun u hu => hfresh (h.hasId u id hu).1
  refine ⟨haccounts, hbound, fun i hi => List.mem_cons_of_mem _ (h.occupied i hi), h.dangling,
    fun u i hu => ?_, fun u v i hu hv => ?_, ?_⟩
  · rcases hthreads u i hu with ⟨-, rfl⟩ | ⟨-, hold⟩
    · exact ⟨List.mem_cons_self .., fun hocc => hfresh (h.occupied _ hocc)⟩
    · exact (h.hasId u i hold).imp (List.mem_cons_of_mem _) fun hvacant => hvacant
  · rcases hthreads u i hu with ⟨rfl, rfl⟩ | ⟨-, huold⟩
    · rcases hthreads v _ hv with ⟨rfl, -⟩ | ⟨-, hvold⟩
      · rfl
      · exact absurd hvold (hother v)
    · rcases hthreads v i hv with ⟨-, rfl⟩ | ⟨-, hvold⟩
      · exact absurd huold (hother u)
      · exact h.unique u v i huold hvold
  · have hloop := h.loop
    show LoopSound s.slots (id :: s.live) (Function.update s.threads t point) s.loop
    cases hpos : s.loop with
    | nulled res =>
      rw [hpos] at hloop
      refine ⟨List.mem_cons_of_mem _ hloop.1, hloop.2.1, fun u hu => ?_⟩
      rcases hthreads u _ hu with ⟨-, heq⟩ | ⟨-, hold⟩
      · exact hfresh (heq ▸ hloop.1)
      · exact hloop.2.2 u hold
    | _ =>
      rw [hpos] at hloop
      exact hloop

/-- A thread registers its callback in a slot that is empty. -/
theorem register [DecidableEq τ] (h : Sound s) {call : ℕ} {sync : Bool} {message : RpcMessage}
    (ht : s.threads t = .numbered call sync true message) :
    Sound (s.asyncInvoke t call sync true message) := by
  set id := messageId message with hdef
  have hhas : HasId s.threads t id := ⟨call, by rw [ht]; rfl⟩
  obtain ⟨hlive, hvacant⟩ := h.hasId t id hhas
  set threads := (s.asyncInvoke t call sync true message).threads with hthreads
  have hold : ∀ u i, HasId threads u i → i ≠ id ∧ HasId s.threads u i := by
    intro u i hu
    have hupdate := HasId.of_update (fun i c => by simp [CallPoint.inHand]) hu
    refine ⟨?_, hupdate.2⟩
    rintro rfl
    exact hupdate.1 (h.unique u t _ hupdate.2 hhas)
  refine ⟨h.accounts, h.bound, fun i hi => ?_, fun i hi => ?_, fun u i hu => ?_,
    fun u v i hu hv => h.unique u v i (hold u i hu).2 (hold v i hv).2, ?_⟩
  · by_cases heq : i = id
    · rw [heq]
      exact hlive
    · exact h.occupied i ((occupied_setSlot_of_ne heq).mp hi)
  · rcases eq_of_slotAt_setSlot hi with ⟨-, hslot⟩ | ⟨-, hslot⟩
    · cases hslot
    · exact h.dangling i hslot
  · obtain ⟨hne, hu⟩ := hold u i hu
    obtain ⟨hused, hempty⟩ := h.hasId u i hu
    exact ⟨hused, fun hocc => hempty ((occupied_setSlot_of_ne hne).mp hocc)⟩
  · have hloop := h.loop
    show LoopSound (setSlot s.slots id (.callback call)) s.live threads s.loop
    cases hpos : s.loop with
    | dispatching => trivial
    | received answers res =>
      rw [hpos] at hloop
      exact Registered.register hloop call
    | executing c res =>
      rw [hpos] at hloop
      exact Registered.register hloop call
    | deleted res =>
      rw [hpos] at hloop
      have hslot : slotAt s.slots (resultId res) = some .dangling := hloop
      have hne : resultId res ≠ id := fun heq => hvacant ⟨_, heq ▸ hslot, Slot.noConfusion⟩
      exact (slotAt_setSlot_of_ne hne).trans hslot
    | nulled res =>
      rw [hpos] at hloop
      have hne : resultId res ≠ id := fun heq => hloop.2.2 t (heq ▸ hhas)
      refine ⟨hloop.1, fun hocc => hloop.2.1 ((occupied_setSlot_of_ne hne).mp hocc), ?_⟩
      exact fun u hu => hloop.2.2 u (hold u _ hu).2

/-- The callback is deleted, which is in the slot of an id in use. -/
theorem delete (h : Sound s) {call : ℕ} {res : RpcResult} (hloop : s.loop = .executing call res)
    (hs : s.deleteCallback res = some s') : Sound s' := by
  have hregistered : Registered s.slots (resultId res) := by
    simpa only [hloop, LoopSound] using h.loop
  have hoccupied := hregistered.occupied
  obtain ⟨c, hslot⟩ := hregistered
  rw [System.deleteCallback, hslot] at hs
  obtain rfl := Option.some.inj hs
  refine ⟨h.accounts, h.bound, fun i hi => ?_, fun i hi => ?_, fun u i hu => ?_, h.unique,
    slotAt_setSlot_self hslot⟩
  · by_cases heq : i = resultId res
    · rw [heq]
      exact h.occupied _ hoccupied
    · exact h.occupied i ((occupied_setSlot_of_ne heq).mp hi)
  · rcases eq_of_slotAt_setSlot hi with ⟨heq, -⟩ | ⟨-, hi'⟩
    · exact ⟨res, rfl, heq.symm⟩
    · obtain ⟨res', hres', -⟩ := h.dangling i hi'
      simp [hloop] at hres'
  · -- the slot of a thread that has not registered its callback is another one
    obtain ⟨hused, hempty⟩ := h.hasId u i hu
    have hne : i ≠ resultId res := by
      rintro rfl
      exact hempty hoccupied
    exact ⟨hused, fun hocc => hempty ((occupied_setSlot_of_ne hne).mp hocc)⟩

/-- The slot is cleared, and its id is still in use. -/
theorem clear (h : Sound s) {res : RpcResult} (hloop : s.loop = .deleted res) :
    Sound (s.clearSlot res) := by
  have hslot : slotAt s.slots (resultId res) = some .dangling := by
    simpa only [hloop, LoopSound] using h.loop
  have hoccupied : Occupied s.slots (resultId res) := ⟨_, hslot, Slot.noConfusion⟩
  have hold : ∀ i, Occupied (setSlot s.slots (resultId res) .null) i → Occupied s.slots i := by
    intro i hi
    have hne : i ≠ resultId res := by
      rintro rfl
      exact not_occupied_clear hi
    exact (occupied_setSlot_of_ne hne).mp hi
  refine ⟨h.accounts, h.bound, fun i hi => h.occupied i (hold i hi), fun i hi => ?_,
    fun u i hu => (h.hasId u i hu).imp_right fun hempty hocc => hempty (hold i hocc), h.unique,
    h.occupied _ hoccupied, not_occupied_clear, fun u hu => (h.hasId u _ hu).2 hoccupied⟩
  rcases eq_of_slotAt_setSlot hi with ⟨-, hnull⟩ | ⟨hne, hi'⟩
  · cases hnull
  · obtain ⟨res', hres', heq⟩ := h.dangling i hi'
    obtain rfl := LoopPoint.deleted.inj (hloop.symm.trans hres')
    exact absurd heq.symm hne

/-- The id is recycled; nothing else knows of it. -/
theorem recycle (h : Sound s) {res : RpcResult} (hloop : s.loop = .nulled res) :
    Sound (s.recycle res) := by
  obtain ⟨hlive, hempty, hnobody⟩ : resultId res ∈ s.live ∧ ¬ Occupied s.slots (resultId res) ∧
      ∀ u, ¬ HasId s.threads u (resultId res) := by
    simpa only [hloop, LoopSound] using h.loop
  refine ⟨h.accounts.recycleGuid hlive, h.bound, fun i hi => ?_, fun i hi => ?_, fun u i hu => ?_,
    h.unique, trivial⟩
  · have hne : i ≠ resultId res := by
      rintro rfl
      exact hempty hi
    exact (List.mem_erase_of_ne hne).mpr (h.occupied i hi)
  · obtain ⟨res', hres', -⟩ := h.dangling i hi
    simp [hloop] at hres'
  · obtain ⟨hused, hvacant⟩ := h.hasId u i hu
    have hne : i ≠ resultId res := by
      rintro rfl
      exact hnobody u hu
    exact ⟨(List.mem_erase_of_ne hne).mpr hused, hvacant⟩

/-- Up to what was received, a client stays sound whatever that is. -/
theorem exec_heard [DecidableEq τ] (h : Sound s.heard) (hs : s.exec a = some s') :
    Sound s'.heard := by
  have hsame : ∀ {point}, s.loop = point → point.heard = point → s.heard = s := by
    intro point hloop hpoint
    rw [System.heard, hloop, hpoint, ← hloop]
  have hbefore : s.loop = .dispatching → ∀ res, s.heard.loop ≠ .deleted res := by
    intro hloop res
    simp [System.heard, hloop, LoopPoint.heard]
  cases System.exec_effect hs with
  | noId _ _ | noClient _ => exact h.frame rfl rfl rfl rfl fun u i hu => hu.of_afterCall
  | @numbered t sync service encoding padding beyond hidle hid =>
    have hnumbered : Sound (s.heard.callRpcAsync t sync service encoding padding beyond) :=
      h.numbered hid
    have hid' : ¬ (s.heard.guid.getGuid beyond).1 = -1 := hid
    rw [System.callRpcAsync, if_neg hid'] at hnumbered
    rw [System.callRpcAsync, if_neg hid]
    exact hnumbered
  | registered ht => exact h.register ht
  | pushed _ hinit =>
    rw [System.sendRequest, if_pos hinit]
    exact h.frame rfl rfl rfl rfl fun u i hu => hu.of_afterCall
  | notInitialized _ hinit =>
    rw [System.sendRequest, if_neg hinit]
    exact h.frame rfl rfl rfl rfl fun u i hu => hu.of_afterCall
  | @woken t call _ =>
    refine h.frame rfl rfl rfl rfl fun u i hu => ?_
    have hidle : HasId (Function.update s.threads t (afterCall call false)) u i := hu
    exact hidle.of_afterCall
  | connected | drained _ | readFailed => exact h.frame rfl rfl rfl rfl fun u i hu => hu
  | written hqueue =>
    rw [System.handleWriteEvent, hqueue]
    exact h.frame rfl rfl rfl rfl fun u i hu => hu
  | @received answer rest hloop _ => exact h.go rest s.executed (hbefore hloop) trivial
  | readOther hloop => exact h.go s.answers s.executed (hbefore hloop) trivial
  | @executed answers res call hloop hslot =>
    refine h.go s.answers _ (fun res' => ?_) ⟨call, hslot⟩
    simp [System.heard, hloop, LoopPoint.heard]
  | deleted hloop hdelete =>
    rw [hsame hloop rfl] at h
    have hdeleted := h.delete hloop hdelete
    obtain ⟨slots, -, rfl⟩ := System.deleteCallback_eq_some hdelete
    exact hdeleted
  | cleared hloop =>
    rw [hsame hloop rfl] at h
    exact h.clear hloop
  | recycled hloop =>
    rw [hsame hloop rfl] at h
    exact h.recycle hloop
  | answered hanswer =>
    obtain ⟨request, -, rfl⟩ := Option.map_eq_some_iff.mp hanswer
    exact h.frame rfl rfl rfl rfl fun u i hu => hu

/-- What was received names a callback, and goes on to do so. -/
theorem registered_of_received [DecidableEq τ] (h : Sound s) (hfinds : findsSlot s a)
    (hs : s.exec a = some s') {answers : Option ℕ} {res : RpcResult}
    (hloop' : s'.loop = .received answers res) : Registered s'.slots (resultId res) := by
  have hkept : s.loop = .received answers res → Registered s.slots (resultId res) := by
    intro hloop
    simpa only [hloop, LoopSound] using h.loop
  cases System.exec_effect hs with
  | @received answer rest hloop hanswers =>
    have hoccupied : Occupied s.slots (resultId answer.result) :=
      hfinds answer (by rw [hanswers]; rfl)
    obtain ⟨-, rfl⟩ := LoopPoint.received.inj hloop'
    exact h.registered (by simp [hloop]) hoccupied
  | readOther hloop =>
    obtain ⟨-, rfl⟩ := LoopPoint.received.inj hloop'
    exact h.registered (by simp [hloop]) hfinds
  | registered ht => exact Registered.register (hkept hloop') _
  | numbered _ hid =>
    rw [System.callRpcAsync_loop] at hloop'
    rw [System.callRpcAsync, if_neg hid]
    exact hkept hloop'
  | pushed _ hinit =>
    rw [System.sendRequest_loop] at hloop'
    rw [System.sendRequest, if_pos hinit]
    exact hkept hloop'
  | notInitialized _ hinit =>
    rw [System.sendRequest_loop] at hloop'
    rw [System.sendRequest, if_neg hinit]
    exact hkept hloop'
  | written hqueue =>
    rw [System.handleWriteEvent_loop] at hloop'
    rw [System.handleWriteEvent, hqueue]
    exact hkept hloop'
  | deleted _ hdelete =>
    obtain ⟨slots, -, rfl⟩ := System.deleteCallback_eq_some hdelete
    cases hloop'
  | answered hanswer =>
    obtain ⟨request, -, rfl⟩ := Option.map_eq_some_iff.mp hanswer
    exact hkept hloop'
  | noId | noClient | woken | connected | drained | readFailed => exact hkept hloop'
  | executed | cleared | recycled => cases hloop'

/-- An action that meets the condition keeps a client sound. -/
theorem exec [DecidableEq τ] (h : Sound s) (hfinds : findsSlot s a) (hs : s.exec a = some s') :
    Sound s' :=
  (h.heard.exec_heard hs).of_heard fun _ _ => h.registered_of_received hfinds hs

/-- What a sound client does to the table and the allocator is safe. -/
theorem tableSafe (h : Sound s) : TableSafe s := by
  have hloop := h.loop
  unfold TableSafe
  cases hpos : s.loop with
  | dispatching => trivial
  | received answers res =>
    rw [hpos] at hloop
    exact Registered.occupied hloop
  | executing call res =>
    rw [hpos] at hloop
    exact Registered.occupied hloop
  | deleted res =>
    rw [hpos] at hloop
    exact Option.isSome_of_eq_some hloop
  | nulled res =>
    rw [hpos] at hloop
    have hnodup : s.live.Nodup := h.accounts.nodup.of_append_left
    exact ⟨hloop.1, hnodup.not_mem_erase⟩

end Sound

/-! ## What is outstanding -/

/-- The slot that the result in hand has not left empty yet. -/
def LoopPoint.slotInHand : LoopPoint → Option ℤ
  | dispatching | nulled _ => none
  | received _ res | executing _ res | deleted res => some (resultId res)

/-- The slots that are not empty are those of the ids outstanding, and the one in hand. -/
structure Tracked (history : List (Transition (System τ) (Action τ))) (s : System τ) : Prop where
  sound : Sound s
  length : s.slots.length = maxRequests
  outstanding : ∀ id, Outstanding history id ↔ Occupied s.slots id ∧ s.loop.slotInHand ≠ some id

/-- The slot in hand is not empty. -/
theorem LoopSound.occupied_slotInHand {slots : List Slot} {live : List ℤ}
    {threads : Option τ → CallPoint} {loop : LoopPoint} {id : ℤ}
    (h : LoopSound slots live threads loop) (hid : loop.slotInHand = some id) :
    Occupied slots id := by
  cases loop with
  | dispatching | nulled => cases hid
  | received _ res | executing _ res =>
    obtain rfl := Option.some.inj hid
    exact Registered.occupied h
  | deleted res =>
    obtain rfl := Option.some.inj hid
    exact ⟨_, h, Slot.noConfusion⟩

/-- A slot of the table that is set to a callback. -/
theorem occupied_setSlot_callback {slots : List Slot} {id : ℤ} {call : ℕ}
    (hlength : slots.length = maxRequests) :
    Occupied (setSlot slots id (.callback call)) id ↔ 0 ≤ id ∧ id < maxRequests := by
  constructor
  · rintro ⟨slot, hslot, -⟩
    unfold slotAt at hslot
    split at hslot
    · cases hslot
    · obtain ⟨hlt, -⟩ := List.getElem?_eq_some_iff.mp hslot
      rw [length_setSlot, hlength] at hlt
      omega
  · rintro ⟨hnonneg, hlt⟩
    refine ⟨.callback call, ?_, Slot.noConfusion⟩
    rw [slotAt_setSlot hnonneg (by omega), if_pos rfl]

namespace Tracked

variable {history : List (Transition (System τ) (Action τ))} {s s' : System τ} {a : Action τ}
  {t : Option τ}

theorem init : Tracked [] (System.init : System τ) := by
  refine ⟨.init, List.length_replicate, fun id => iff_of_false not_false fun hocc => ?_⟩
  exact List.not_mem_nil (Sound.init.occupied id hocc.1)

/-- A step that neither registers nor receives, and leaves the slots as full as they were. -/
theorem frame (h : Tracked history s) (hsound : Sound s')
    (hlength : s'.slots.length = s.slots.length)
    (hslots : ∀ id, Occupied s'.slots id ∧ s'.loop.slotInHand ≠ some id ↔
      Occupied s.slots id ∧ s.loop.slotInHand ≠ some id)
    (hregistered : registeredId ⟨s, a, s'⟩ = none) (hreceived : receivedId ⟨s, a, s'⟩ = none) :
    Tracked (⟨s, a, s'⟩ :: history) s' := by
  refine ⟨hsound, by rw [hlength, h.length], fun id => ?_⟩
  rw [Outstanding, hregistered, hreceived, h.outstanding, hslots]
  simp

/-- A result is received. -/
theorem receive (h : Tracked history s) (hsound : Sound s') {res : RpcResult}
    (hslots : s'.slots = s.slots) (hbefore : s.loop = .dispatching)
    (hloop : s'.loop.slotInHand = some (resultId res))
    (hregistered : registeredId ⟨s, a, s'⟩ = none)
    (hreceived : receivedId ⟨s, a, s'⟩ = some (resultId res)) :
    Tracked (⟨s, a, s'⟩ :: history) s' := by
  refine ⟨hsound, by rw [hslots, h.length], fun id => ?_⟩
  rw [Outstanding, hregistered, hreceived, h.outstanding, hslots, hloop, hbefore]
  simp [LoopPoint.slotInHand, and_comm]

/-- A callback is registered, under an id that is not the one in hand. -/
theorem register [DecidableEq τ] (h : Tracked history s) {call : ℕ} {sync : Bool}
    {message : RpcMessage} (ht : s.threads t = .numbered call sync true message) :
    Tracked (⟨s, .invoke t, s.asyncInvoke t call sync true message⟩ :: history)
      (s.asyncInvoke t call sync true message) := by
  refine ⟨h.sound.register ht, (length_setSlot ..).trans h.length, fun id => ?_⟩
  rw [Outstanding, h.outstanding]
  have hregistered : registeredId ⟨s, .invoke t, s.asyncInvoke t call sync true message⟩ =
      some (messageId message) := by
    simp only [registeredId, ht]
  have hreceived : receivedId ⟨s, .invoke t, s.asyncInvoke t call sync true message⟩ = none := rfl
  rw [hregistered, hreceived]
  show _ ↔ Occupied (setSlot s.slots (messageId message) (.callback call)) id ∧
    s.loop.slotInHand ≠ some id
  by_cases hid : id = messageId message
  · subst hid
    -- the slot was empty, so no result with this number is in hand
    have hvacant : ¬ Occupied s.slots (messageId message) :=
      (h.sound.hasId t _ ⟨call, by rw [ht]; rfl⟩).2
    have hloop : s.loop.slotInHand ≠ some (messageId message) :=
      fun hhand => hvacant (h.sound.loop.occupied_slotInHand hhand)
    rw [occupied_setSlot_callback h.length]
    simp [hvacant, hloop]
  · rw [occupied_setSlot_of_ne hid]
    simp [Ne.symm hid]

/-- What is received names a slot that is not empty iff its number is outstanding. -/
theorem findsSlot_iff [DecidableEq τ] (h : Tracked history s) (hs : s.exec a = some s') :
    (∀ id ∈ receivedId ⟨s, a, s'⟩, Outstanding history id) ↔ findsSlot s a := by
  have hread : s.loop = .dispatching → ∀ id, Outstanding history id ↔ Occupied s.slots id := by
    intro hloop id
    rw [h.outstanding, hloop]
    simp [LoopPoint.slotInHand]
  cases System.exec_effect hs with
  | @received answer rest hloop hanswers =>
    simp [receivedId, findsSlot, hanswers, hread hloop]
  | readOther hloop => simp [receivedId, findsSlot, hread hloop]
  | _ => simp [receivedId, findsSlot]

/-- A step that finds its slot keeps what is outstanding in step with the table. -/
theorem exec [DecidableEq τ] (h : Tracked history s) (hfinds : findsSlot s a)
    (hs : s.exec a = some s') : Tracked (⟨s, a, s'⟩ :: history) s' := by
  have hsound := h.sound.exec hfinds hs
  cases System.exec_effect hs with
  | registered ht => exact h.register ht
  | @received answer rest hloop hanswers =>
    exact h.receive hsound rfl hloop rfl rfl (by simp [receivedId, hanswers])
  | readOther hloop => exact h.receive hsound rfl hloop rfl rfl rfl
  | noClient ht => exact h.frame hsound rfl (fun _ => .rfl) (by simp only [registeredId, ht]) rfl
  | numbered _ hid =>
    rw [System.callRpcAsync, if_neg hid] at hsound ⊢
    exact h.frame hsound rfl (fun _ => .rfl) rfl rfl
  | pushed _ hinit =>
    rw [System.sendRequest, if_pos hinit] at hsound ⊢
    exact h.frame hsound rfl (fun _ => .rfl) rfl rfl
  | notInitialized _ hinit =>
    rw [System.sendRequest, if_neg hinit] at hsound ⊢
    exact h.frame hsound rfl (fun _ => .rfl) rfl rfl
  | written hqueue =>
    rw [System.handleWriteEvent, hqueue] at hsound ⊢
    exact h.frame hsound rfl (fun _ => .rfl) rfl rfl
  | @executed answers res call hloop hslot =>
    exact h.frame hsound rfl (fun id => by rw [hloop]; rfl) rfl rfl
  | @deleted call res _ hloop hdelete =>
    have hregistered : Registered s.slots (resultId res) := by
      simpa only [hloop, LoopSound] using h.sound.loop
    obtain ⟨c, hslot⟩ := hregistered
    rw [System.deleteCallback, hslot] at hdelete
    obtain rfl := Option.some.inj hdelete
    -- what dangles fills its slot as the callback did
    refine h.frame hsound (length_setSlot ..) (fun id => ?_) rfl rfl
    rw [hloop]
    refine and_congr_left fun hne => occupied_setSlot_of_ne fun heq => hne ?_
    rw [heq, LoopPoint.slotInHand]
  | @cleared res hloop =>
    refine h.frame hsound (length_setSlot ..) (fun id => ?_) rfl rfl
    show Occupied (setSlot s.slots (resultId res) .null) id ∧ _ ↔ _
    rw [hloop]
    -- the slot that is left empty was the one in hand, which did not count
    by_cases hid : id = resultId res
    · subst hid
      exact iff_of_false (fun hocc => not_occupied_clear hocc.1) fun hocc => hocc.2 rfl
    · rw [occupied_setSlot_of_ne hid]
      simp [LoopPoint.slotInHand, System.clearSlot, Ne.symm hid]
  | @recycled res hloop => exact h.frame hsound rfl (fun id => by rw [hloop]; rfl) rfl rfl
  | answered hanswer =>
    obtain ⟨request, -, rfl⟩ := Option.map_eq_some_iff.mp hanswer
    exact h.frame hsound rfl (fun _ => .rfl) rfl rfl
  | _ => exact h.frame hsound rfl (fun _ => .rfl) rfl rfl

end Tracked

/-! ## The result -/

variable [DecidableEq τ] {s s' : System τ} {a : Action τ}

/-- If it is safe to go on after an action, the action met the condition. -/
theorem TableSafe.findsSlot (h : TableSafe s') (hs : s.exec a = some s') : findsSlot s a := by
  cases System.exec_effect hs with
  | @received answer rest hloop hanswers =>
    intro answer' hmem
    rw [hanswers, List.head?_cons, Option.mem_some_iff] at hmem
    subst hmem
    exact h
  | readOther hloop => exact h
  | _ => trivial

/-- A run stays safe iff whatever is received names a slot that is not empty. -/
theorem tableSafe_iff_findsSlot {history : List (Transition (System τ) (Action τ))}
    (hrun : (clientSystem τ).Run unguarded history s) :
    (∀ x ∈ history, TableSafe x.target) ↔ ∀ x ∈ history, findsSlot x.source x.event := by
  constructor
  · intro hsafe x hx
    obtain ⟨-, -, hstep⟩ := hrun.of_mem hx
    exact (hsafe x hx).findsSlot (ofExec_step.mp hstep)
  · intro hfinds x hx
    -- as long as all steps met the condition, the client has stayed sound
    have hguarded : (clientSystem τ).Run findsSlot history s := hrun.guard hfinds
    obtain ⟨hreach, hguard, hstep⟩ := hguarded.of_mem hx
    have hsound : Sound x.source := by
      refine hreach.invariant (fun s hs => ?_) fun s a s' h hfind hs =>
        h.exec hfind (ofExec_step.mp hs)
      rw [ofExec_init.mp hs]
      exact .init
    exact (hsound.exec hguard (ofExec_step.mp hstep)).tableSafe

/-- In every run, whatever is received: the handler only calls and deletes what is in the table
and not null, and recycles ids that are in use only, each of them once, iff the number in every
result it receives is one under which a callback was registered in the table, and for which no
result was received since. -/
theorem table_safe_iff {history : List (Transition (System τ) (Action τ))}
    (hrun : (clientSystem τ).Run unguarded history s) :
    (∀ x ∈ history, TableSafe x.target) ↔
      ∀ x earlier, x :: earlier <:+ history → ∀ id ∈ receivedId x, Outstanding earlier id := by
  rw [tableSafe_iff_findsSlot hrun]
  symm
  refine hrun.suffixes_iff (J := Tracked) (fun s hs => ?_)
    (fun history s a s' h hfinds hs => h.exec hfinds (ofExec_step.mp hs))
    fun history s a s' h hs => h.findsSlot_iff (ofExec_step.mp hs)
  rw [ofExec_init.mp hs]
  exact .init

/-! ## A result that arrives whole, and one that does not -/

/-- Two calls, one after the other, with one id; their results arrive whole. -/
def wholeResult : List (Action ℕ) :=
  [.connect] ++ callEcho (some 0) false ++ answerFirst ++ endHandler ++
    callEcho (some 1) false ++ answerFirst ++ endHandler

/-- Two callbacks were executed, and what was received was outstanding. -/
def executesBoth (history : List (Transition (System ℕ) (Action ℕ))) (s : System ℕ) : Bool :=
  s.executed.length == 2 && history.tails.all fun
    | [] => true
    | x :: earlier => (receivedId x).all fun id => decide (Outstanding earlier id)

theorem table_safe_iff_wholeResult :
    ∃ (history : List (Transition (System ℕ) (Action ℕ))) (s : System ℕ),
      executesBoth history s ∧ ∀ x ∈ history, TableSafe x.target := by
  have hreplay : (replay System.exec (fun _ _ => true) [] System.init wholeResult).any
      (fun r => executesBoth r.1 r.2) = true := by decide +kernel
  obtain ⟨history, s, hrun, htest⟩ := exists_run_of_replay executesBoth hreplay
  refine ⟨history, s, htest, (table_safe_iff (hrun.mono fun _ _ _ => trivial)).mpr ?_⟩
  intro x earlier hx id hid
  simp only [executesBoth, Bool.and_eq_true, List.all_eq_true] at htest
  have hall := htest.2 _ ((List.mem_tails _ _).mpr hx)
  simpa [Option.mem_def.mp hid] using hall

/-- The result of the first call. -/
def firstResult : RpcResult := ⟨1, .bzero maxRpcReturnValue⟩

/-- A call, the result of which arrives in two parts. The handler takes the first for the
result, and then receives the second. -/
def partedResult : List (Action ℕ) :=
  [.connect] ++ callEcho (some 0) false ++
    [.write .whole, .answer 0 (.bzero _),
      .read (.other (receivedResult (firstResult.toBytes.take 100))), .exec] ++ endHandler ++
    [.read (.other (receivedResult (firstResult.toBytes.drop 100)))]

/-- The handler is to call a callback that is not there. -/
def callsNothing (s : System ℕ) : Bool :=
  match s.loop with
  | .received _ res => !decide (Occupied s.slots (resultId res))
  | _ => false

/-- What is left of a result is taken for another one, whose number names an empty slot. -/
theorem null_called : ¬ ∀ s : System ℕ, (clientSystem ℕ).Reachable unguarded s → TableSafe s := by
  intro hsafe
  have hreplay : (replay System.exec (fun _ _ => true) [] System.init partedResult).any
      (fun r => callsNothing r.2) = true := by decide +kernel
  obtain ⟨history, s, hrun, htest⟩ := exists_run_of_replay (fun _ s => callsNothing s) hreplay
  have h := hsafe s ⟨history, hrun.mono fun _ _ _ => trivial⟩
  unfold callsNothing at htest
  unfold TableSafe at h
  cases hpos : s.loop with
  | received answers res =>
    simp only [hpos, Bool.not_eq_true', decide_eq_false_iff_not] at htest h
    exact htest h
  | _ => simp [hpos] at htest

end DreamboatRpc.Client
