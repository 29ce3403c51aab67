import DreamboatRpc.Client.System

/-!
# What becomes of an id

Every id is in one place: free, in the hands of a thread, with a request that is on its way
or answered, in the hands of the event loop, or lost on an error path. The place of an id
says what its slot holds, and thread, requests and event loop agree with it. As long as
fewer ids than slots are ever issued, every action moves at most one id.

## Main definitions

* `Place` — where an id is
* `Slots`, `Threads`, `Requests`, `Loops` — what the places of the ids say of the parts of a
  client
* `Custody` — all of it

## Main results

* `Custody.call`, `Custody.register`, `Custody.push`, `Custody.receive`, `Custody.execute`,
  `Custody.delete`, `Custody.clear`, `Custody.recycle` — the way of an id
* `Custody.lose_of_no_client`, `Custody.lose_of_not_initialized`, `Custody.write` — the ways in
  which one is lost
-/

namespace DreamboatRpc.Client

open CS Rpc

variable {τ : Type*}

/-- Where the event loop is with an id. -/
inductive Handling
  | received (call : ℕ)
  | executing (call : ℕ)
  | deleted
  | nulled

/-- Where an id is. -/
inductive Place (τ : Type*)
  | free
  | numbered (t : Option τ) (call : ℕ)
  | registered (t : Option τ) (call : ℕ)
  | outstanding (call : ℕ)
  | handled (h : Handling)
  | lost (slot : Slot)

namespace Place

/-- What the slot of the id holds. -/
def slot : Place τ → Slot
  | free | numbered _ _ | handled .nulled => .null
  | registered _ call | outstanding call | handled (.received call)
  | handled (.executing call) => .callback call
  | handled .deleted => .dangling
  | lost slot => slot

/-- The thread that has the id in hand, whether it has registered its callback, and the
call. -/
def holder : Place τ → Option (Option τ × Bool × ℕ)
  | numbered t call => some (t, false, call)
  | registered t call => some (t, true, call)
  | free | outstanding _ | handled _ | lost _ => none

/-- The calls whose requests carry the id. -/
def requests : Place τ → List ℕ
  | outstanding call => [call]
  | free | numbered _ _ | registered _ _ | handled _ | lost _ => []

/-- Where the event loop is with the id. -/
def handling : Place τ → Option Handling
  | handled h => some h
  | free | numbered _ _ | registered _ _ | outstanding _ | lost _ => none

end Place

/-- The id a thread has in hand, whether it has registered its callback, and the call. -/
def CallPoint.inHand : CallPoint → Option (ℤ × Bool × ℕ)
  | numbered call _ _ message => some (messageId message, false, call)
  | registered call _ message => some (messageId message, true, call)
  | idle | waiting _ => none

/-- The id the event loop handles, and where it is with it. -/
def LoopPoint.handling : LoopPoint → Option (ℤ × Handling)
  | received (some call) res => some (resultId res, .received call)
  | executing call res => some (resultId res, .executing call)
  | deleted res => some (resultId res, .deleted)
  | nulled res => some (resultId res, .nulled)
  | dispatching | received none _ => none

@[simp] theorem inHand_afterCall (call : ℕ) (sync : Bool) :
    (afterCall call sync).inHand = none := by
  cases sync <;> rfl

/-- The ids and calls of the requests that are queued, on the wire or answered. -/
def System.outstanding (s : System τ) : List (ℤ × ℕ) :=
  (s.pendingRequests ++ s.wire).map (fun request => (messageId request.message, request.call)) ++
    s.answers.map fun answer => (resultId answer.result, answer.call)

/-! ## The parts of a client -/

/-- The slots hold what the places say. -/
structure Slots (slots : List Slot) (place : ℤ → Place τ) : Prop where
  length : slots.length = maxRequests
  slotAt : ∀ id : ℤ, 0 ≤ id → id < maxRequests → slotAt slots id = some (place id).slot

/-- The threads have in hand what the places say. -/
def Threads (threads : Option τ → CallPoint) (place : ℤ → Place τ) : Prop :=
  ∀ t id b c, (place id).holder = some (t, b, c) ↔ (threads t).inHand = some (id, b, c)

/-- The requests are those the places say. -/
def Requests (requests : List (ℤ × ℕ)) (place : ℤ → Place τ) : Prop :=
  ∀ id, ((requests.filter fun r => r.1 = id).map Prod.snd).Perm (place id).requests

/-- The event loop handles what the places say. -/
def Loops (loop : LoopPoint) (place : ℤ → Place τ) : Prop :=
  ∀ id h, (place id).handling = some h ↔ loop.handling = some (id, h)

section Parts

variable {place : ℤ → Place τ} {p : Place τ} {id : ℤ} {slots : List Slot} {slot : Slot}
  {threads : Option τ → CallPoint} {point : CallPoint} {t : Option τ} {c : ℕ}
  {requests requests' : List (ℤ × ℕ)} {loop loop' : LoopPoint}

/-- An id moves, but not in what `f` says about it. -/
theorem update_congr {β : Type*} (f : Place τ → β) (h : f p = f (place id)) (i : ℤ) :
    f (Function.update place id p i) = f (place i) := by
  by_cases hi : i = id
  · rw [hi, Function.update_self, h]
  · rw [Function.update_of_ne hi]

theorem slotAt_setSlot (hid : 0 ≤ id) (hlt : id < slots.length) (i : ℤ) :
    slotAt (setSlot slots id slot) i = if i = id then some slot else slotAt slots i := by
  by_cases hi : i = id
  · have hnot : ¬ id < 0 := by omega
    have hin : id.toNat < slots.length := by omega
    have hold : slotAt slots id = some slots[id.toNat] := by
      rw [slotAt, if_neg hnot, List.getElem?_eq_getElem hin]
    rw [hi, if_pos rfl, slotAt_setSlot_self hold]
  · rw [if_neg hi, slotAt_setSlot_of_ne hi]

theorem Slots.frame (h : Slots slots place) (hsame : p.slot = (place id).slot) :
    Slots slots (Function.update place id p) := by
  refine ⟨h.length, fun i hi hlt => ?_⟩
  rw [update_congr Place.slot hsame]
  exact h.slotAt i hi hlt

theorem Slots.set (h : Slots slots place) (hid : 0 ≤ id) (hlt : id < maxRequests)
    (hslot : p.slot = slot) : Slots (setSlot slots id slot) (Function.update place id p) := by
  refine ⟨?_, fun i hi hlt' => ?_⟩
  · unfold setSlot
    split
    · exact h.length
    · rw [List.length_set, h.length]
  · rw [slotAt_setSlot hid (by rw [h.length]; exact hlt)]
    split
    · rename_i heq
      rw [heq, Function.update_self, hslot]
    · rename_i hne
      rw [Function.update_of_ne hne]
      exact h.slotAt i hi hlt'

theorem Threads.frame (h : Threads threads place) (hsame : p.holder = (place id).holder) :
    Threads threads (Function.update place id p) := by
  intro t i b c
  rw [update_congr Place.holder hsame]
  exact h t i b c

/-- A thread that has no id in hand goes on without one. -/
theorem Threads.go [DecidableEq τ] (h : Threads threads place)
    (hbefore : (threads t).inHand = none) (hafter : point.inHand = none) :
    Threads (Function.update threads t point) place := by
  intro u i b c
  by_cases hu : u = t
  · subst hu
    rw [h, hbefore, Function.update_self, hafter]
  · rw [h, Function.update_of_ne hu]

/-- A thread takes the id, keeps it or lets go of it. -/
theorem Threads.move [DecidableEq τ] (h : Threads threads place)
    (hbefore : ∀ i b c, (threads t).inHand = some (i, b, c) → i = id)
    (hholder : ∀ u b c, (place id).holder = some (u, b, c) → u = t)
    (hafter : ∀ i b c, point.inHand = some (i, b, c) ↔ i = id ∧ p.holder = some (t, b, c))
    (hnew : ∀ u b c, p.holder = some (u, b, c) → u = t) :
    Threads (Function.update threads t point) (Function.update place id p) := by
  -- for the id that moves, only this thread can be the holder, before and after
  intro u i b c
  by_cases hi : i = id
  · subst hi
    rw [Function.update_self]
    by_cases hu : u = t
    · subst hu
      rw [Function.update_self, hafter]
      simp
    · rw [Function.update_of_ne hu, ← h]
      exact iff_of_false (fun hp => hu (hnew u b c hp)) fun hp => hu (hholder u b c hp)
  · rw [Function.update_of_ne hi, h]
    by_cases hu : u = t
    · subst hu
      rw [Function.update_self, hafter]
      exact iff_of_false (fun hp => hi (hbefore i b c hp)) fun hp => hi hp.1
    · rw [Function.update_of_ne hu]

/-- A thread lets go of the id it has in hand. -/
theorem Threads.letGo [DecidableEq τ] (h : Threads threads place) {b : Bool}
    (hhand : (threads t).inHand = some (id, b, c)) (hafter : point.inHand = none)
    (hp : p.holder = none) :
    Threads (Function.update threads t point) (Function.update place id p) := by
  have hplace := (h t id b c).mpr hhand
  refine h.move (fun i b' c' hi => ?_) (fun u b' c' hu => ?_) (by simp [hafter, hp]) (by simp [hp])
  · rw [hhand, Option.some.injEq, Prod.mk.injEq] at hi
    exact hi.1.symm
  · rw [hplace, Option.some.injEq, Prod.mk.injEq] at hu
    exact hu.1.symm

theorem Requests.of_perm (h : Requests requests place) (hperm : requests'.Perm requests) :
    Requests requests' place :=
  fun i => ((hperm.filter _).map _).trans (h i)

theorem Requests.frame (h : Requests requests place)
    (hsame : p.requests = (place id).requests) :
    Requests requests (Function.update place id p) := by
  intro i
  rw [update_congr Place.requests hsame]
  exact h i

theorem filter_cons_request (i : ℤ) :
    ((id, c) :: requests).filter (fun r => r.1 = i) =
      if i = id then (id, c) :: requests.filter (fun r => r.1 = i)
      else requests.filter fun r => r.1 = i := by
  simp [List.filter_cons, eq_comm]

/-- A request that carries the id is sent. -/
theorem Requests.add (h : Requests requests place) (hbefore : (place id).requests = [])
    (hafter : p.requests = [c]) :
    Requests ((id, c) :: requests) (Function.update place id p) := by
  intro i
  rw [filter_cons_request]
  by_cases hi : i = id
  · subst hi
    have hnone := h i
    rw [hbefore, List.perm_nil] at hnone
    rw [if_pos rfl, Function.update_self, hafter, List.map_cons, hnone]
  · rw [if_neg hi, Function.update_of_ne hi]
    exact h i

/-- The request that carries the id. -/
theorem Requests.requests_eq (h : Requests ((id, c) :: requests) place) :
    (place id).requests = [c] := by
  have hid := h id
  rw [filter_cons_request, if_pos rfl, List.map_cons] at hid
  have hmem : c ∈ (place id).requests := hid.mem_iff.mp (List.mem_cons_self ..)
  cases hplace : place id with
  | outstanding call =>
    rw [hplace, Place.requests, List.mem_singleton] at hmem
    rw [Place.requests, hmem]
  | _ => simp [hplace, Place.requests] at hmem

/-- The request is gone. -/
theorem Requests.remove (h : Requests ((id, c) :: requests) place) (hafter : p.requests = []) :
    Requests requests (Function.update place id p) := by
  intro i
  have hi' := h i
  rw [filter_cons_request] at hi'
  by_cases hi : i = id
  · subst hi
    rw [if_pos rfl, h.requests_eq, List.map_cons] at hi'
    rw [Function.update_self, hafter]
    exact hi'.cons_inv
  · rw [if_neg hi] at hi'
    rw [Function.update_of_ne hi]
    exact hi'

theorem Loops.frame (h : Loops loop place) (hsame : p.handling = (place id).handling) :
    Loops loop (Function.update place id p) := by
  intro i x
  rw [update_congr Place.handling hsame]
  exact h i x

/-- The event loop takes the id, goes on with it or lets go of it. -/
theorem Loops.move (h : Loops loop place)
    (hbefore : ∀ i x, loop.handling = some (i, x) → i = id)
    (hafter : ∀ i x, loop'.handling = some (i, x) ↔ i = id ∧ p.handling = some x) :
    Loops loop' (Function.update place id p) := by
  intro i x
  rw [hafter]
  by_cases hi : i = id
  · subst hi
    rw [Function.update_self]
    simp
  · rw [Function.update_of_ne hi, h]
    exact iff_of_false (fun hx => hi (hbefore i x hx)) fun hx => hi hx.1

end Parts

/-! ## A whole client -/

/-- Every id is in a place with which all parts of the client agree. -/
structure Custody (s : System τ) (place : ℤ → Place τ) : Prop where
  accounts : s.guid.Accounts s.live
  bound : s.guid.bound < maxRequests
  live : ∀ id, place id ≠ .free ↔ id ∈ s.live
  slots : Slots s.slots place
  threads : Threads s.threads place
  requests : Requests s.outstanding place
  loops : Loops s.loop place

namespace Place

variable {p : Place τ} {t : Option τ} {c : ℕ} {h : Handling}

theorem eq_numbered (hp : p.holder = some (t, false, c)) : p = .numbered t c := by
  cases p <;> simp_all [holder]

theorem eq_registered (hp : p.holder = some (t, true, c)) : p = .registered t c := by
  cases p <;> simp_all [holder]

theorem eq_outstanding (hp : p.requests = [c]) : p = .outstanding c := by
  cases p <;> simp_all [requests]

theorem eq_handled (hp : p.handling = some h) : p = .handled h := by
  cases p <;> simp_all [handling]

end Place

@[simp] theorem messageId_callMessage {padding : CharArray 3} {id : ℤ} {service : Service}
    {encoding : List UInt8} (hid : 0 ≤ id) (hle : id ≤ maxGuid) :
    messageId (callMessage padding id service encoding) = id := by
  have hmax : maxGuid = 1024 := rfl
  exact Int32.toInt_ofInt_of_le (by omega) (by omega)

namespace Custody

variable {s : System τ} {place : ℤ → Place τ} {id : ℤ} {t : Option τ} {c : ℕ}

theorem init : Custody (System.init : System τ) fun _ => .free where
  accounts := .init
  bound := by
    show (0 : ℤ) < maxRequests
    decide
  live id := by simp [System.init]
  slots := by
    refine ⟨List.length_replicate, fun id hid hlt => ?_⟩
    have hin : id.toNat < maxRequests := by omega
    rw [slotAt, if_neg (by omega), System.init, List.getElem?_replicate, if_pos hin]
    rfl
  threads t id b c := by simp [Place.holder, System.init, CallPoint.inHand]
  requests id := by simp [System.outstanding, System.init, Place.requests]
  loops id h := by simp [Place.handling, System.init, LoopPoint.handling]

/-- An id that is not free has a slot in the table. -/
theorem range (h : Custody s place) (hid : place id ≠ .free) : 0 ≤ id ∧ id < maxRequests := by
  have hmem := List.mem_append_left s.guid.heap ((h.live id).mp hid)
  have hbounds := (h.accounts.mem id).mp hmem
  have hbound := h.bound
  omega

theorem slotAt_eq (h : Custody s place) (hid : place id ≠ .free) :
    slotAt s.slots id = some (place id).slot := by
  obtain ⟨hge, hlt⟩ := h.range hid
  exact h.slots.slotAt id hge hlt

/-- The ids that are not free stay the same. -/
theorem live_update (h : Custody s place) {p : Place τ} (hid : place id ≠ .free)
    (hp : p ≠ .free) (i : ℤ) : Function.update place id p i ≠ .free ↔ i ∈ s.live := by
  rw [← h.live]
  by_cases hi : i = id
  · rw [hi, Function.update_self]
    exact iff_of_true hp hid
  · rw [Function.update_of_ne hi]

/-- The id a thread got is in its hands. -/
theorem numbered (h : Custody s place) {sync client : Bool} {message : RpcMessage}
    (ht : s.threads t = .numbered c sync client message) :
    place (messageId message) = .numbered t c := by
  apply Place.eq_numbered
  rw [h.threads, ht]
  rfl

theorem registered (h : Custody s place) {sync : Bool} {message : RpcMessage}
    (ht : s.threads t = .registered c sync message) :
    place (messageId message) = .registered t c := by
  apply Place.eq_registered
  rw [h.threads, ht]
  rfl

section Calls

variable [DecidableEq τ]

/-- A thread that has no id in hand goes on without one. -/
theorem go (h : Custody s place) {point : CallPoint} (hbefore : (s.threads t).inHand = none)
    (hafter : point.inHand = none) (calls : ℕ) :
    Custody { s with calls := calls, threads := Function.update s.threads t point } place :=
  ⟨h.accounts, h.bound, h.live, h.slots, h.threads.go hbefore hafter, h.requests, h.loops⟩

/-- A call gets an id that was free. -/
theorem call (h : Custody s place) {sync : Bool} {service : Service} {encoding : List UInt8}
    {padding : CharArray 3} {beyond : ℤ} (hidle : s.threads t = .idle)
    (hid : (s.guid.getGuid beyond).1 ≠ -1) (hlive : s.live.length + 1 < maxRequests) :
    place (s.guid.getGuid beyond).1 = .free ∧
    Custody (s.callRpcAsync t sync service encoding padding beyond)
      (Function.update place (s.guid.getGuid beyond).1 (.numbered t s.calls)) := by
  obtain ⟨hnone, -⟩ | ⟨hge, hle, hnew, haccounts, hbound⟩ := h.accounts.getGuid beyond
  · rw [hnone] at hid
    exact absurd rfl hid
  · have hbefore := h.bound
    -- a new id is issued only if no other is free, and then few are in use
    have hlt : (s.guid.getGuid beyond).2.bound < maxRequests := by
      rcases hbound with heq | heq
      · rwa [heq]
      · omega
    have hfree : place (s.guid.getGuid beyond).1 = .free := by
      by_contra hne
      exact hnew ((h.live _).mp hne)
    refine ⟨hfree, ?_⟩
    rw [System.callRpcAsync, if_neg hid]
    refine ⟨haccounts, hlt, fun i => ?_, h.slots.frame (by rw [hfree]; rfl),
      h.threads.move (by simp [hidle, CallPoint.inHand]) (by simp [hfree, Place.holder])
        (fun i b c => ?_) (by simp [Place.holder]), h.requests.frame (by rw [hfree]; rfl),
      h.loops.frame (by rw [hfree]; rfl)⟩
    · rw [List.mem_cons, ← h.live]
      by_cases hi : i = (s.guid.getGuid beyond).1
      · simp [hi]
      · rw [Function.update_of_ne hi]
        simp [hi]
    · have hmax : maxGuid = maxRequests := rfl
      rw [CallPoint.inHand, messageId_callMessage (by omega) (by omega)]
      simp only [Place.holder, Option.some.injEq, Prod.mk.injEq, true_and]
      exact and_congr eq_comm Iff.rfl

/-- A thread registers its callback. -/
theorem register (h : Custody s place) {sync : Bool} {message : RpcMessage}
    (ht : s.threads t = .numbered c sync true message) :
    Custody (s.asyncInvoke t c sync true message)
      (Function.update place (messageId message) (.registered t c)) := by
  have hplace := h.numbered ht
  have hused : place (messageId message) ≠ .free := by simp [hplace]
  obtain ⟨hge, hlt⟩ := h.range hused
  refine ⟨h.accounts, h.bound, h.live_update hused (by simp), h.slots.set hge hlt rfl,
    h.threads.move (fun i b c' hi => ?_) (by simp [hplace, Place.holder]) (fun i b c' => ?_)
      (by simp [Place.holder]), h.requests.frame (by rw [hplace]; rfl),
    h.loops.frame (by rw [hplace]; rfl)⟩
  · simp only [ht, CallPoint.inHand, Option.some.injEq, Prod.mk.injEq] at hi
    exact hi.1.symm
  · simp only [CallPoint.inHand, Place.holder, Option.some.injEq, Prod.mk.injEq, true_and]
    exact and_congr eq_comm Iff.rfl

/-- The id of a call whose service has no client is lost. -/
theorem lose_of_no_client (h : Custody s place) {sync : Bool} {message : RpcMessage}
    (ht : s.threads t = .numbered c sync false message) :
    Custody (s.asyncInvoke t c sync false message)
      (Function.update place (messageId message) (.lost .null)) := by
  have hplace := h.numbered ht
  have hused : place (messageId message) ≠ .free := by simp [hplace]
  have hhand : (s.threads t).inHand = some (messageId message, false, c) := by rw [ht]; rfl
  exact ⟨h.accounts, h.bound, h.live_update hused (by simp), h.slots.frame (by rw [hplace]; rfl),
    h.threads.letGo hhand (inHand_afterCall c sync) rfl, h.requests.frame (by rw [hplace]; rfl),
    h.loops.frame (by rw [hplace]; rfl)⟩

/-- A thread queues its request. -/
theorem push (h : Custody s place) {sync : Bool} {message : RpcMessage}
    (ht : s.threads t = .registered c sync message) (hinit : s.initialized = true) :
    Custody (s.sendRequest t c sync message)
      (Function.update place (messageId message) (.outstanding c)) := by
  have hplace := h.registered ht
  have hused : place (messageId message) ≠ .free := by simp [hplace]
  have hhand : (s.threads t).inHand = some (messageId message, true, c) := by rw [ht]; rfl
  have hnone : (place (messageId message)).requests = [] := by rw [hplace]; rfl
  -- no other request carries the id
  have hadd := h.requests.add (p := .outstanding c) hnone rfl
  rw [System.sendRequest, if_pos hinit]
  refine ⟨h.accounts, h.bound, h.live_update hused (by simp), h.slots.frame (by rw [hplace]; rfl),
    h.threads.letGo hhand (inHand_afterCall c sync) rfl, hadd.of_perm ?_,
    h.loops.frame (by rw [hplace]; rfl)⟩
  simp only [System.outstanding, List.map_append, List.append_assoc, List.map_cons,
    List.singleton_append]
  exact List.perm_middle

/-- The id of a call on a client that is not initialized is lost, with its callback. -/
theorem lose_of_not_initialized (h : Custody s place) {sync : Bool} {message : RpcMessage}
    (ht : s.threads t = .registered c sync message) (hinit : ¬ s.initialized = true) :
    Custody (s.sendRequest t c sync message)
      (Function.update place (messageId message) (.lost (.callback c))) := by
  have hplace := h.registered ht
  have hused : place (messageId message) ≠ .free := by simp [hplace]
  have hhand : (s.threads t).inHand = some (messageId message, true, c) := by rw [ht]; rfl
  rw [System.sendRequest, if_neg hinit]
  exact ⟨h.accounts, h.bound, h.live_update hused (by simp), h.slots.frame (by rw [hplace]; rfl),
    h.threads.letGo hhand (inHand_afterCall c sync) rfl, h.requests.frame (by rw [hplace]; rfl),
    h.loops.frame (by rw [hplace]; rfl)⟩

end Calls

/-! ## The event loop -/

/-- The head of the queue is on the wire, or was lost when sending it failed. -/
theorem write (h : Custody s place) {request : Request} {rest : List Request}
    (hqueue : s.pendingRequests = request :: rest) (sent : Sent) :
    place (messageId request.message) = .outstanding request.call ∧
    Custody (s.handleWriteEvent sent) (if sent = .whole then place else
      Function.update place (messageId request.message) (.lost (.callback request.call))) := by
  -- the request at the head of the queue is the one its id stands for
  have houtstanding : s.outstanding = (messageId request.message, request.call) ::
      ((rest ++ s.wire).map (fun r => (messageId r.message, r.call)) ++
        s.answers.map fun answer => (resultId answer.result, answer.call)) := by
    rw [System.outstanding, hqueue]
    rfl
  have hrequests := h.requests
  rw [houtstanding] at hrequests
  have hplace := Place.eq_outstanding hrequests.requests_eq
  have hused : place (messageId request.message) ≠ .free := by simp [hplace]
  refine ⟨hplace, ?_⟩
  rw [System.handleWriteEvent, hqueue]
  by_cases hsent : sent = .whole
  · rw [if_pos hsent]
    refine ⟨h.accounts, h.bound, h.live, h.slots, h.threads, hrequests.of_perm ?_, h.loops⟩
    simp only [System.outstanding, if_pos hsent, List.map_append, List.append_assoc, List.map_cons,
      List.map_nil, List.singleton_append]
    exact (List.perm_middle.append_left _).trans List.perm_middle
  · rw [if_neg hsent]
    refine ⟨h.accounts, h.bound, h.live_update hused (by simp),
      h.slots.frame (by rw [hplace]; rfl), h.threads.frame (by rw [hplace]; rfl), ?_,
      h.loops.frame (by rw [hplace]; rfl)⟩
    have hremove := hrequests.remove (p := .lost (.callback request.call)) rfl
    simpa only [System.outstanding, if_neg hsent] using hremove

/-- The event loop reads the next result of the server. -/
theorem receive (h : Custody s place) {answer : Answer} {rest : List Answer}
    (hloop : s.loop = .dispatching) (hanswers : s.answers = answer :: rest) :
    place (resultId answer.result) = .outstanding answer.call ∧
    Custody { s with answers := rest, loop := .received (some answer.call) answer.result }
      (Function.update place (resultId answer.result) (.handled (.received answer.call))) := by
  -- the result carries the id of the request it answers
  have houtstanding : s.outstanding.Perm ((resultId answer.result, answer.call) ::
      ((s.pendingRequests ++ s.wire).map (fun r => (messageId r.message, r.call)) ++
        rest.map fun answer => (resultId answer.result, answer.call))) := by
    rw [System.outstanding, hanswers, List.map_cons]
    exact List.perm_middle
  have hrequests := h.requests.of_perm houtstanding.symm
  have hplace := Place.eq_outstanding hrequests.requests_eq
  have hused : place (resultId answer.result) ≠ .free := by simp [hplace]
  refine ⟨hplace, h.accounts, h.bound, h.live_update hused (by simp),
    h.slots.frame (by rw [hplace]; rfl), h.threads.frame (by rw [hplace]; rfl),
    hrequests.remove rfl, h.loops.move (by simp [hloop, LoopPoint.handling]) fun i x => ?_⟩
  simp only [LoopPoint.handling, Place.handling, Option.some.injEq, Prod.mk.injEq]
  exact and_congr eq_comm Iff.rfl

/-- The id the event loop handles is in its hands. -/
theorem handled (h : Custody s place) {x : Handling} (hloop : s.loop.handling = some (id, x)) :
    place id = .handled x :=
  Place.eq_handled ((h.loops id x).mpr hloop)

/-- The event loop goes on with the id it handles. -/
theorem handle (h : Custody s place) {x y : Handling} {slots : List Slot} {loop : LoopPoint}
    {executed : List (ℕ × Option ℕ)} (hloop : s.loop.handling = some (id, x))
    (hnext : loop.handling = some (id, y))
    (hslots : Slots slots (Function.update place id (.handled y))) :
    Custody { s with slots := slots, loop := loop, executed := executed }
      (Function.update place id (.handled y)) := by
  have hplace := h.handled hloop
  have hused : place id ≠ .free := by simp [hplace]
  refine ⟨h.accounts, h.bound, h.live_update hused (by simp), hslots,
    h.threads.frame (by rw [hplace]; rfl), h.requests.frame (by rw [hplace]; rfl),
    h.loops.move (fun i z hz => ?_) fun i z => ?_⟩
  · rw [hloop, Option.some.injEq, Prod.mk.injEq] at hz
    exact hz.1.symm
  · simp only [hnext, Place.handling, Option.some.injEq, Prod.mk.injEq]
    exact and_congr eq_comm Iff.rfl

/-- The callback that is executed is that of the call whose result was received. -/
theorem execute (h : Custody s place) {res : RpcResult}
    (hloop : s.loop = .received (some c) res) :
    slotAt s.slots (resultId res) = some (.callback c) ∧
    Custody { s with loop := .executing c res, executed := (c, some c) :: s.executed }
      (Function.update place (resultId res) (.handled (.executing c))) := by
  have hhandling : s.loop.handling = some (resultId res, .received c) := by rw [hloop]; rfl
  have hplace := h.handled hhandling
  have hused : place (resultId res) ≠ .free := by simp [hplace]
  have hslot := h.slotAt_eq hused
  rw [hplace] at hslot
  exact ⟨hslot, h.handle hhandling rfl (h.slots.frame (by rw [hplace]; rfl))⟩

theorem delete (h : Custody s place) {res : RpcResult} (hloop : s.loop = .executing c res) :
    slotAt s.slots (resultId res) = some (.callback c) ∧
    Custody { s with slots := setSlot s.slots (resultId res) .dangling, loop := .deleted res }
      (Function.update place (resultId res) (.handled .deleted)) := by
  have hhandling : s.loop.handling = some (resultId res, .executing c) := by rw [hloop]; rfl
  have hplace := h.handled hhandling
  have hused : place (resultId res) ≠ .free := by simp [hplace]
  have hslot := h.slotAt_eq hused
  obtain ⟨hge, hlt⟩ := h.range hused
  rw [hplace] at hslot
  exact ⟨hslot, h.handle hhandling rfl (h.slots.set hge hlt rfl)⟩

theorem clear (h : Custody s place) {res : RpcResult} (hloop : s.loop = .deleted res) :
    Custody (s.clearSlot res)
      (Function.update place (resultId res) (.handled .nulled)) := by
  have hhandling : s.loop.handling = some (resultId res, .deleted) := by rw [hloop]; rfl
  have hplace := h.handled hhandling
  have hused : place (resultId res) ≠ .free := by simp [hplace]
  obtain ⟨hge, hlt⟩ := h.range hused
  exact h.handle hhandling rfl (h.slots.set hge hlt rfl)

/-- The id is free again. -/
theorem recycle (h : Custody s place) {res : RpcResult} (hloop : s.loop = .nulled res) :
    Custody (s.recycle res) (Function.update place (resultId res) .free) := by
  have hhandling : s.loop.handling = some (resultId res, .nulled) := by rw [hloop]; rfl
  have hplace := h.handled hhandling
  have hmem : resultId res ∈ s.live := (h.live _).mp (by simp [hplace])
  have hnodup : s.live.Nodup := h.accounts.nodup.of_append_left
  refine ⟨h.accounts.recycleGuid hmem, h.bound, fun i => ?_, h.slots.frame (by rw [hplace]; rfl),
    h.threads.frame (by rw [hplace]; rfl), h.requests.frame (by rw [hplace]; rfl),
    h.loops.move (fun i x hx => ?_)
      (by simp [System.recycle, LoopPoint.handling, Place.handling])⟩
  · show Function.update place (resultId res) .free i ≠ .free ↔ i ∈ s.live.erase (resultId res)
    rw [hnodup.mem_erase_iff, ← h.live]
    by_cases hi : i = resultId res
    · simp [hi]
    · rw [Function.update_of_ne hi]
      simp [hi]
  · rw [hhandling, Option.some.injEq, Prod.mk.injEq] at hx
    exact hx.1.symm

/-- The server answers a request. -/
theorem answer (h : Custody s place) {s' : System τ} {i : ℕ}
    {returnBuffer : CharArray maxRpcReturnValue}
    (hs : s.answerRequest i returnBuffer = some s') : Custody s' place := by
  obtain ⟨request, hrequest, rfl⟩ := Option.map_eq_some_iff.mp hs
  obtain ⟨hi, rfl⟩ := List.getElem?_eq_some_iff.mp hrequest
  refine ⟨h.accounts, h.bound, h.live, h.slots, h.threads, h.requests.of_perm ?_, h.loops⟩
  -- the request leaves the wire, and a result that carries its id is on the way back
  have hwire := (List.getElem_cons_eraseIdx_perm hi).map
    fun request : Request => (messageId request.message, request.call)
  simp only [System.outstanding, List.map_append, List.map_cons, List.map_nil, List.append_assoc]
  rw [List.map_cons] at hwire
  refine List.Perm.append_left _ (List.Perm.trans ?_ (hwire.append_right _))
  rw [List.cons_append]
  exact (List.perm_append_singleton _ _).append_left _ |>.trans List.perm_middle

end Custody

end DreamboatRpc.Client
