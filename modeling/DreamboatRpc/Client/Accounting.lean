import DreamboatRpc.Client.ReplyMatching

/-!
# Ids, callbacks and requests

An id in use has a callback in its slot and one request that is on its way or answered, and
a caller who waits has his callback there. This holds as long as calls find a client with a
connection and an id within the table, whole requests are sent, and whole results arrive.
Otherwise an id, and a callback, a request or a caller, is left behind.

## Main definitions

* `Accounted` — ids, callbacks, requests and waiting callers account for each other
* `keepsIds` — when an action leaves nothing behind
* `Waits` — what threads wait for is under way, in terms of the places of the ids

## Main results

* `Kept.exec` — an action that leaves nothing behind loses no id
* `accounted` — nor does a run of such actions
* `send_loses` — a send that fails does
-/

namespace DreamboatRpc.Client

open CS Rpc

variable {τ : Type*} {s s' : System τ} {a : Action τ} {place : ℤ → Place τ} {p : Place τ}
  {id : ℤ} {t : Option τ} {point : CallPoint}

/-- A thread has the id in hand, with or without having registered its callback; or the event
loop has, with its result. -/
def System.InHand (s : System τ) (id : ℤ) : Prop :=
  (∃ t b call, (s.threads t).inHand = some (id, b, call) ∧
    slotAt s.slots id = some (if b then .callback call else .null)) ∨
  ∃ h, s.loop.handling = some (id, h)

/-- Ids, callbacks, requests and waiting callers account for each other. -/
structure Accounted (s : System τ) : Prop where
  /-- An id in use is in hand; or it has a callback, and one request carries it. -/
  live : ∀ id ∈ s.live, s.InHand id ∨
    ∃ call, slotAt s.slots id = some (.callback call) ∧
      s.outstanding.filter (fun r => r.1 = id) = [(id, call)]
  slots : ∀ id slot, slotAt s.slots id = some slot → slot ≠ .null → id ∈ s.live
  requests : ∀ r ∈ s.outstanding, r.1 ∈ s.live
  /-- A caller who waits can be told, or its callback is there to tell it once the result of
  its request comes. -/
  waiting : ∀ t call, s.threads t = .waiting call → call ∈ s.executed.map Prod.fst ∨
    ∃ id ∈ s.live, slotAt s.slots id = some (.callback call) ∧
      ((id, call) ∈ s.outstanding ∨ s.loop.handling = some (id, .received call))

/-- An action leaves nothing behind: a call gets an id within the table, its service has a
client and the client a connection; `send` takes the whole request; a whole result arrives. -/
def keepsIds (s : System τ) : Action τ → Bool
  | .call _ _ _ _ _ _ => s.live.length + 1 < maxRequests
  | .invoke t =>
    match s.threads t with
    | .numbered _ _ client _ => client
    | _ => true
  | .sendRequest _ => s.initialized
  | .write sent => s.pendingRequests.isEmpty || sent = .whole
  | .read recv => (Action.read recv : Action τ).readsWhole
  | _ => true

/-! ## Who waits for what -/

/-- The call whose callback can still be executed for the id. -/
def Place.awaits : Place τ → Option ℕ
  | outstanding call | handled (.received call) => some call
  | free | numbered _ _ | registered _ _ | handled _ | lost _ => none

/-- Its request is outstanding, or its result was received. -/
theorem Place.eq_of_awaits {call : ℕ} (h : p.awaits = some call) :
    p = .outstanding call ∨ p = .handled (.received call) := by
  cases p with
  | outstanding c => simpa [awaits] using h
  | handled x =>
    cases x with
    | received c => simpa [awaits] using h
    | _ => simp [awaits] at h
  | _ => simp [awaits] at h

/-- What threads wait for has come or is under way. -/
def Waits (threads : Option τ → CallPoint) (executed : List (ℕ × Option ℕ))
    (place : ℤ → Place τ) : Prop :=
  ∀ t call, threads t = .waiting call →
    call ∈ executed.map Prod.fst ∨ ∃ id, (place id).awaits = some call

section Waits

variable {threads threads' : Option τ → CallPoint} {executed executed' : List (ℕ × Option ℕ)}

/-- An id moves. -/
theorem Waits.move (h : Waits threads executed place)
    (hthreads : ∀ u call, threads' u = .waiting call →
      threads u = .waiting call ∨ p.awaits = some call)
    (hexecuted : executed ⊆ executed')
    (hawaits : ∀ call, (place id).awaits = some call →
      p.awaits = some call ∨ call ∈ executed'.map Prod.fst) :
    Waits threads' executed' (Function.update place id p) := by
  intro u call hu
  have hnew : p.awaits = some call →
      ∃ i, (Function.update place id p i).awaits = some call :=
    fun hp => ⟨id, by rw [Function.update_self, hp]⟩
  -- the thread waited before, or it waits for what is now awaited for the id
  rcases hthreads u call hu with hwaiting | hp
  · rcases h u call hwaiting with hmem | ⟨i, hi⟩
    · exact .inl (List.map_subset Prod.fst hexecuted hmem)
    · -- what was awaited for the id still is, or has come
      by_cases heq : i = id
      · subst heq
        exact (hawaits call hi).symm.imp_right hnew
      · exact .inr ⟨i, by rw [Function.update_of_ne heq, hi]⟩
  · exact .inr (hnew hp)

/-- An id moves that nothing is awaited for. -/
theorem Waits.frame (h : Waits threads executed place) (hid : (place id).awaits = none) :
    Waits threads executed (Function.update place id p) := by
  refine h.move (fun u call hu => .inl hu) (List.Subset.refl _) fun call hcall => ?_
  rw [hid] at hcall
  cases hcall

/-- A thread goes on, and waits for nothing but what is awaited for the id. -/
theorem Waits.go [DecidableEq τ] (h : Waits threads executed place)
    (hpoint : ∀ call, point = .waiting call → p.awaits = some call)
    (hid : (place id).awaits = none) :
    Waits (Function.update threads t point) executed (Function.update place id p) := by
  refine h.move (fun u call hu => ?_) (List.Subset.refl _) fun call hcall => ?_
  · by_cases heq : u = t
    · rw [heq, Function.update_self] at hu
      exact .inr (hpoint call hu)
    · rw [Function.update_of_ne heq] at hu
      exact .inl hu
  · rw [hid] at hcall
    cases hcall

/-- A thread no longer waits. -/
theorem Waits.leave [DecidableEq τ] (h : Waits threads executed place) :
    Waits (Function.update threads t .idle) executed place := by
  intro u call hu
  by_cases heq : u = t
  · rw [heq, Function.update_self] at hu
    cases hu
  · rw [Function.update_of_ne heq] at hu
    exact h u call hu

end Waits

/-! ## Nothing is left behind -/

/-- No id is lost, and whoever waits will be told if a result comes. -/
structure Kept (s : System τ) (place : ℤ → Place τ) : Prop where
  custody : Custody s place
  answered : Answered s
  found : ∀ id slot, place id ≠ .lost slot
  waits : Waits s.threads s.executed place

/-- The one request that carries an id. -/
theorem Custody.filter_outstanding (h : Custody s place) {call : ℕ}
    (hplace : place id = .outstanding call) :
    s.outstanding.filter (fun r => r.1 = id) = [(id, call)] := by
  have hperm := h.requests id
  rw [hplace, Place.requests, List.perm_singleton] at hperm
  obtain ⟨r, hr, rfl⟩ := List.map_eq_singleton_iff.mp hperm
  have hmem : r ∈ s.outstanding.filter fun r => r.1 = id := by simp [hr]
  have hid : r.1 = id := by simpa using (List.mem_filter.mp hmem).2
  rw [hr, ← hid]

/-- A request carries an id in use. -/
theorem Custody.outstanding_live (h : Custody s place) {r : ℤ × ℕ} (hr : r ∈ s.outstanding) :
    r.1 ∈ s.live := by
  have hmem : r.2 ∈ (place r.1).requests := by
    rw [← (h.requests r.1).mem_iff]
    exact List.mem_map_of_mem (List.mem_filter.mpr ⟨hr, by simp⟩)
  rw [← h.live]
  intro hfree
  rw [hfree] at hmem
  exact absurd hmem List.not_mem_nil

/-- A slot that is not empty is that of an id in use. -/
theorem Custody.slot_live (h : Custody s place) {slot : Slot}
    (hslot : slotAt s.slots id = some slot) (hnull : slot ≠ .null) : id ∈ s.live := by
  have hin : 0 ≤ id ∧ id < maxRequests := by
    have hlength := h.slots.length
    unfold slotAt at hslot
    split at hslot
    · cases hslot
    · obtain ⟨hlt, -⟩ := List.getElem?_eq_some_iff.mp hslot
      omega
  have hplace := h.slots.slotAt id hin.1 hin.2
  rw [hslot, Option.some.injEq] at hplace
  rw [← h.live]
  intro hfree
  rw [hfree] at hplace
  exact hnull hplace

/-- If nothing is left behind, all is accounted for. -/
theorem Accounted.of_kept (h : Kept s place) : Accounted s := by
  have hcustody := h.custody
  refine ⟨fun id hid => ?_, fun id slot => hcustody.slot_live, fun r => hcustody.outstanding_live,
    fun t call ht => ?_⟩
  · have hused := (hcustody.live id).mpr hid
    have hslot := hcustody.slotAt_eq hused
    -- by the place of the id; it is in use, and not lost
    cases hplace : place id with
    | free => exact absurd hplace hused
    | numbered t call =>
      rw [hplace] at hslot
      exact .inl (.inl ⟨t, false, call, (hcustody.threads ..).mp (by rw [hplace]; rfl), hslot⟩)
    | registered t call =>
      rw [hplace] at hslot
      exact .inl (.inl ⟨t, true, call, (hcustody.threads ..).mp (by rw [hplace]; rfl), hslot⟩)
    | outstanding call =>
      rw [hplace] at hslot
      exact .inr ⟨call, hslot, hcustody.filter_outstanding hplace⟩
    | handled x => exact .inl (.inr ⟨x, (hcustody.loops id x).mp (by rw [hplace]; rfl)⟩)
    | lost slot => exact absurd hplace (h.found id slot)
  · refine (h.waits t call ht).imp_right fun hawaited => ?_
    obtain ⟨id, hawaits⟩ := hawaited
    rcases Place.eq_of_awaits hawaits with hplace | hplace
    · have hused : place id ≠ .free := by simp [hplace]
      have hslot := hcustody.slotAt_eq hused
      rw [hplace] at hslot
      have hfilter := hcustody.filter_outstanding hplace
      have hmem : (id, call) ∈ s.outstanding.filter fun r => r.1 = id := by simp [hfilter]
      exact ⟨id, (hcustody.live id).mp hused, hslot, .inl (List.mem_filter.mp hmem).1⟩
    · have hused : place id ≠ .free := by simp [hplace]
      have hslot := hcustody.slotAt_eq hused
      rw [hplace] at hslot
      have hhandling := (hcustody.loops id (.received call)).mp (by rw [hplace]; rfl)
      exact ⟨id, (hcustody.live id).mp hused, hslot, .inr hhandling⟩

/-- An id that is found stays found unless it is lost. -/
theorem found_update (h : ∀ id slot, place id ≠ .lost slot) (hp : ∀ slot, p ≠ .lost slot)
    (i : ℤ) (slot : Slot) : Function.update place id p i ≠ .lost slot := by
  by_cases hi : i = id
  · rw [hi, Function.update_self]
    exact hp slot
  · rw [Function.update_of_ne hi]
    exact h i slot

/-- Who waits after a call waits for its result. -/
theorem waiting_of_afterCall {call call' : ℕ} {sync : Bool}
    (h : afterCall call sync = .waiting call') : call = call' := by
  cases sync with
  | true => simpa [afterCall] using h
  | false => simp [afterCall] at h

theorem keepsIds_readsWhole (h : keepsIds s a = true) : a.readsWhole = true := by
  cases a with
  | read recv => exact h
  | _ => rfl

variable [DecidableEq τ]

/-- An action that leaves nothing behind loses no id. -/
theorem Kept.exec (h : Kept s place) (hkeeps : keepsIds s a = true)
    (hs : s.exec a = some s') : ∃ place, Kept s' place := by
  have hcustody := h.custody
  have hwhole : resultsWhole s a := keepsIds_readsWhole hkeeps
  have hanswered := h.answered.exec hcustody hwhole hs
  cases System.exec_effect hs with
  | @noId _ _ _ _ _ beyond hidle hid =>
    have hlive : s.live.length + 1 < maxRequests := by simpa [keepsIds] using hkeeps
    have hmax : maxGuid = maxRequests := rfl
    -- there are ids left, so `GetGuid` gives one
    obtain ⟨-, hfull⟩ | ⟨hge, -⟩ := hcustody.accounts.getGuid beyond
    · omega
    · omega
  | numbered hidle hid =>
    have hlive : s.live.length + 1 < maxRequests := by simpa [keepsIds] using hkeeps
    obtain ⟨hfree, hcall⟩ := hcustody.call hidle hid hlive
    refine ⟨_, hcall, hanswered, found_update h.found (by simp), ?_⟩
    rw [System.callRpcAsync, if_neg hid]
    exact h.waits.go (by simp) (by rw [hfree]; rfl)
  | registered ht =>
    have hplace := hcustody.numbered ht
    exact ⟨_, hcustody.register ht, hanswered, found_update h.found (by simp),
      h.waits.go (by simp) (by rw [hplace]; rfl)⟩
  | noClient ht => simp [keepsIds, ht] at hkeeps
  | pushed ht hinit =>
    have hplace := hcustody.registered ht
    refine ⟨_, hcustody.push ht hinit, hanswered, found_update h.found (by simp), ?_⟩
    rw [System.sendRequest, if_pos hinit]
    -- the caller waits for the request it has just queued
    refine h.waits.go (fun call hcall => ?_) (by rw [hplace]; rfl)
    rw [waiting_of_afterCall hcall]
    rfl
  | notInitialized _ hinit => exact absurd hkeeps hinit
  | @woken _ call ht =>
    have hgo := hcustody.go (by rw [ht]; rfl) (inHand_afterCall call false) s.calls
    exact ⟨place, hgo, hanswered, h.found, h.waits.leave⟩
  | @written sent _ _ hqueue =>
    have hsent : sent = .whole := by simpa [keepsIds, hqueue] using hkeeps
    have hwrite := (hcustody.write hqueue sent).2
    rw [if_pos hsent] at hwrite
    exact ⟨place, hwrite, hanswered, h.found, by simpa using h.waits⟩
  | received hloop hanswers =>
    obtain ⟨hplace, hreceive⟩ := hcustody.receive hloop hanswers
    refine ⟨_, hreceive, hanswered, found_update h.found (by simp), h.waits.move
      (fun u call hu => .inl hu) (List.Subset.refl _) fun call hcall => .inl ?_⟩
    rw [hplace] at hcall
    exact hcall
  | readOther _ => cases hwhole
  | @executed answers res call hloop hslot =>
    cases answers with
    | none => exact absurd hloop (h.answered.received res)
    | some c =>
      have hhandling : s.loop.handling = some (resultId res, .received c) := by rw [hloop]; rfl
      have hplace := hcustody.handled hhandling
      obtain ⟨hslot', hexecute⟩ := hcustody.execute hloop
      obtain rfl : call = c := by simpa [hslot'] using hslot.symm
      -- what was awaited has come
      refine ⟨_, hexecute, hanswered, found_update h.found (by simp), h.waits.move
        (fun u call hu => .inl hu) (List.subset_cons_self ..) fun call' hcall => .inr ?_⟩
      rw [hplace, Place.awaits, Option.some.injEq] at hcall
      simp [hcall]
  | @deleted call res _ hloop hs =>
    have hhandling : s.loop.handling = some (resultId res, .executing call) := by rw [hloop]; rfl
    have hplace := hcustody.handled hhandling
    obtain ⟨hslot, hdelete⟩ := hcustody.delete hloop
    rw [System.deleteCallback, hslot] at hs
    obtain rfl := Option.some.inj hs
    exact ⟨_, hdelete, hanswered, found_update h.found (by simp),
      h.waits.frame (by rw [hplace]; rfl)⟩
  | @cleared res hloop =>
    have hhandling : s.loop.handling = some (resultId res, .deleted) := by rw [hloop]; rfl
    have hplace := hcustody.handled hhandling
    exact ⟨_, hcustody.clear hloop, hanswered, found_update h.found (by simp),
      h.waits.frame (by rw [hplace]; rfl)⟩
  | @recycled res hloop =>
    have hhandling : s.loop.handling = some (resultId res, .nulled) := by rw [hloop]; rfl
    have hplace := hcustody.handled hhandling
    exact ⟨_, hcustody.recycle hloop, hanswered, found_update h.found (by simp),
      h.waits.frame (by rw [hplace]; rfl)⟩
  | answered hs =>
    have hanswer := hcustody.answer hs
    obtain ⟨request, -, rfl⟩ := Option.map_eq_some_iff.mp hs
    exact ⟨place, hanswer, hanswered, h.found, h.waits⟩
  | connected | drained _ | readFailed =>
    exact ⟨place, ⟨hcustody.accounts, hcustody.bound, hcustody.live, hcustody.slots,
      hcustody.threads, hcustody.requests, hcustody.loops⟩, hanswered, h.found, h.waits⟩

/-- In every run whose actions leave nothing behind, ids, callbacks, requests and waiting
callers account for each other. -/
theorem accounted (hrun : (clientSystem τ).Reachable (fun s a => keepsIds s a) s) :
    Accounted s := by
  have hkept : ∃ place, Kept s place := by
    refine hrun.ghost (fun s hs => ?_) fun s place a s' h hkeeps hs => h.exec hkeeps hs
    obtain rfl := hs
    exact ⟨_, .init, ⟨by simp [System.init], by simp [System.init]⟩, by simp,
      by simp [Waits, System.init]⟩
  obtain ⟨place, h⟩ := hkept
  exact .of_kept h

/-! ## Two runs -/

/-- A caller waits, and two requests are under way. -/
def twoCalls : List (Action ℕ) :=
  [.connect] ++ callEcho (some 0) true ++ [.write .whole] ++ callEcho (some 1) false

/-- Two ids are in use, and the first caller waits. -/
def underWay (s : System ℕ) : Bool :=
  decide (s.live = [2, 1]) && decide (s.threads (some 0) = .waiting 0)

theorem accounted_twoCalls : ∃ s : System ℕ, underWay s = true ∧ Accounted s := by
  have hreplay : (replay System.exec keepsIds [] System.init twoCalls).any
      (fun r => underWay r.2) = true := by decide +kernel
  obtain ⟨history, s, hrun, htest⟩ := exists_run_of_replay (fun _ s => underWay s) hreplay
  exact ⟨s, htest, accounted ⟨history, hrun⟩⟩

/-- The caller waits, but no request is under way and no result has come. -/
def abandoned (s : System ℕ) : Bool :=
  decide (s.threads (some 0) = .waiting 0) && s.outstanding.isEmpty && s.executed.isEmpty &&
    decide (s.loop = .dispatching)

/-- If `send` fails, the request is dropped and its caller waits for ever. -/
theorem send_loses :
    ¬ ∀ s : System ℕ, (clientSystem ℕ).Reachable unguarded s → Accounted s := by
  intro haccounted
  have hreplay : (replay System.exec (fun _ _ => true) [] System.init
      ([.connect] ++ callEcho (some 0) true ++ [.write .failed])).any
      (fun r => abandoned r.2) = true := by decide +kernel
  obtain ⟨history, s, hrun, htest⟩ := exists_run_of_replay (fun _ s => abandoned s) hreplay
  simp only [abandoned, Bool.and_eq_true, List.isEmpty_iff, decide_eq_true_eq] at htest
  obtain ⟨⟨⟨hwaiting, hnothing⟩, hnone⟩, hloop⟩ := htest
  have h := haccounted s ⟨history, hrun.mono fun _ _ _ => trivial⟩
  rcases h.waiting (some 0) 0 hwaiting with hmem | ⟨id, -, -, hsent | hreceived⟩
  · simp [hnone] at hmem
  · simp [hnothing] at hsent
  · simp [hloop, LoopPoint.handling] at hreceived

end DreamboatRpc.Client
