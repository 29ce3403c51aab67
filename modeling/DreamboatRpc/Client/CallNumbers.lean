import Mathlib.Data.List.Nodup
import DreamboatRpc.Client.ReplyMatching

/-!
# Calls and ids

A call that waits for its result has one id, and an id waits for one call at a time. When the
callback is executed, the call no longer waits, and so it is executed once.

## Main definitions

* `Place.pendingCall` — the call that waits under an id
* `Awaited` — calls wait under one id each, and those that were executed wait no more
* `Underway` — what holds of the messages and results between a thread and its callback

## Main results

* `Custody.exec_awaited` — every action keeps it so
* `Awaited.nodup`, `Awaited.inHand` — a call has one request, and only after its thread let go
* `Underway.exec` — what holds of a message goes on holding of it
-/

namespace DreamboatRpc.Client

open CS Rpc

variable {τ : Type*} {s s' : System τ} {a : Action τ} {place : ℤ → Place τ}

/-! ## A call has one id -/

/-- The call that waits for its result under an id. -/
def Place.pendingCall : Place τ → Option ℕ
  | numbered _ call | registered _ call | outstanding call | handled (.received call) => some call
  | free | handled (.executing _) | handled .deleted | handled .nulled | lost _ => none

/-- Each call that waits has one id, and is not executed yet; none is executed twice. -/
structure Awaited (calls : ℕ) (executed : List (ℕ × Option ℕ)) (place : ℤ → Place τ) :
    Prop where
  lt : ∀ id c, (place id).pendingCall = some c → c < calls
  unique : ∀ id id' c, (place id).pendingCall = some c → (place id').pendingCall = some c → id = id'
  executed_lt : ∀ c ∈ executed.map Prod.fst, c < calls
  not_executed : ∀ id c, (place id).pendingCall = some c → c ∉ executed.map Prod.fst
  once : (executed.map Prod.fst).Nodup

namespace Awaited

variable {calls c : ℕ} {executed : List (ℕ × Option ℕ)} {p : Place τ} {id : ℤ} {t : Option τ}

theorem init : Awaited 0 [] (fun _ : ℤ => (.free : Place τ)) where
  lt _ _ h := by cases h
  unique _ _ _ h := by cases h
  executed_lt _ h := by cases h
  not_executed _ _ h := by cases h
  once := List.nodup_nil

/-- An id moves: its call goes on waiting, or waits no more. -/
theorem move (h : Awaited calls executed place)
    (hp : ∀ c, p.pendingCall = some c → (place id).pendingCall = some c) :
    Awaited calls executed (Function.update place id p) := by
  -- whatever waits now has waited before, under the same id
  have hbefore : ∀ i c, (Function.update place id p i).pendingCall = some c →
      (place i).pendingCall = some c := by
    intro i c hc
    rcases eq_or_ne i id with rfl | hi
    · rw [Function.update_self] at hc
      exact hp c hc
    · rwa [Function.update_of_ne hi] at hc
  exact ⟨fun i c hc => h.lt i c (hbefore i c hc),
    fun i j c hi hj => h.unique i j c (hbefore i c hi) (hbefore j c hj), h.executed_lt,
    fun i c hc => h.not_executed i c (hbefore i c hc), h.once⟩

/-- A call that gets no id does not wait. -/
theorem skip (h : Awaited calls executed place) : Awaited (calls + 1) executed place :=
  ⟨fun i c hc => Nat.lt_succ_of_lt (h.lt i c hc), h.unique,
    fun c hc => Nat.lt_succ_of_lt (h.executed_lt c hc), h.not_executed, h.once⟩

/-- A call gets an id. -/
theorem issue (h : Awaited calls executed place) (hp : p.pendingCall = some calls) :
    Awaited (calls + 1) executed (Function.update place id p) := by
  have hcases : ∀ i c, (Function.update place id p i).pendingCall = some c →
      i = id ∧ c = calls ∨ (place i).pendingCall = some c ∧ c < calls := by
    intro i c hc
    rcases eq_or_ne i id with rfl | hi
    · rw [Function.update_self, hp] at hc
      exact .inl ⟨rfl, (Option.some.inj hc).symm⟩
    · rw [Function.update_of_ne hi] at hc
      exact .inr ⟨hc, h.lt i c hc⟩
  refine ⟨fun i c hc => ?_, fun i j c hi hj => ?_,
    fun c hc => Nat.lt_succ_of_lt (h.executed_lt c hc), fun i c hc hmem => ?_, h.once⟩
  · rcases hcases i c hc with ⟨-, rfl⟩ | ⟨-, hlt⟩ <;> omega
  · rcases hcases i c hi with ⟨rfl, rfl⟩ | ⟨hi, hlt⟩
    · rcases hcases j _ hj with ⟨rfl, -⟩ | ⟨-, hlt⟩
      · rfl
      · exact absurd hlt (lt_irrefl _)
    · rcases hcases j c hj with ⟨-, rfl⟩ | ⟨hj, -⟩
      · exact absurd hlt (lt_irrefl _)
      · exact h.unique i j c hi hj
  · rcases hcases i c hc with ⟨-, rfl⟩ | ⟨hc, -⟩
    · exact absurd (h.executed_lt c hmem) (lt_irrefl _)
    · exact h.not_executed i c hc hmem

/-- The call that was received is executed. -/
theorem execute (h : Awaited calls executed place) (hc : (place id).pendingCall = some c)
    (hp : p.pendingCall = none) (answers : Option ℕ) :
    Awaited calls ((c, answers) :: executed) (Function.update place id p) := by
  have hmove : Awaited calls executed (Function.update place id p) :=
    h.move fun c' hc' => by rw [hp] at hc'; cases hc'
  refine ⟨hmove.lt, hmove.unique, List.forall_mem_cons.mpr ⟨h.lt id c hc, h.executed_lt⟩,
    fun i c' hc' hmem => ?_, List.nodup_cons.mpr ⟨h.not_executed id c hc, h.once⟩⟩
  rcases List.mem_cons.mp hmem with rfl | hmem
  · -- no other id waited for it
    rcases eq_or_ne i id with rfl | hi
    · rw [Function.update_self, hp] at hc'
      cases hc'
    · rw [Function.update_of_ne hi] at hc'
      exact hi (h.unique i id c' hc' hc)
  · exact hmove.not_executed i c' hc' hmem

end Awaited

/-- Whether an action begins a call. -/
def Action.begins : Action τ → Bool
  | .call .. => true
  | _ => false

/-- Whether an action begins no call and answers no request. -/
def Action.goesOn : Action τ → Bool
  | .call .. | .answer .. => false
  | _ => true

variable [DecidableEq τ]

/-- An action keeps every id in a place, and every call that waits under one id. -/
theorem Custody.exec_awaited (h : Custody s place) (hawaited : Awaited s.calls s.executed place)
    (hanswered : Answered s) (hwhole : resultsWhole s a) (hlive : s'.live.length < maxRequests)
    (hs : s.exec a = some s') :
    ∃ place, Custody s' place ∧ Awaited s'.calls s'.executed place := by
  cases System.exec_effect hs with
  | @noId t sync _ _ _ _ hidle hid =>
    exact ⟨place, h.go (by rw [hidle]; rfl) (inHand_afterCall s.calls sync) _, hawaited.skip⟩
  | numbered hidle hid =>
    rw [System.callRpcAsync, if_neg hid] at hlive
    refine ⟨_, (h.call hidle hid (by simpa using hlive)).2, ?_⟩
    rw [System.callRpcAsync, if_neg hid]
    exact hawaited.issue rfl
  | registered ht =>
    exact ⟨_, h.register ht, hawaited.move fun c hc => by rw [h.numbered ht]; exact hc⟩
  | noClient ht =>
    exact ⟨_, h.lose_of_no_client ht, hawaited.move fun c hc => by cases hc⟩
  | pushed ht hinit =>
    refine ⟨_, h.push ht hinit, ?_⟩
    rw [System.sendRequest, if_pos hinit]
    exact hawaited.move fun c hc => by rw [h.registered ht]; exact hc
  | notInitialized ht hinit =>
    refine ⟨_, h.lose_of_not_initialized ht hinit, ?_⟩
    rw [System.sendRequest, if_neg hinit]
    exact hawaited.move fun c hc => by cases hc
  | @woken _ call ht =>
    exact ⟨place, h.go (by rw [ht]; rfl) (inHand_afterCall call false) s.calls, hawaited⟩
  | @written sent request rest hqueue =>
    refine ⟨_, (h.write hqueue sent).2, ?_⟩
    rw [System.handleWriteEvent, hqueue]
    by_cases hsent : sent = .whole
    · rw [if_pos hsent]
      exact hawaited
    · rw [if_neg hsent]
      exact hawaited.move fun c hc => by cases hc
  | received hloop hanswers =>
    obtain ⟨hplace, hcustody⟩ := h.receive hloop hanswers
    exact ⟨_, hcustody, hawaited.move fun c hc => by rw [hplace]; exact hc⟩
  | readOther _ => cases hwhole
  | @executed answers res call hloop hslot =>
    cases answers with
    | none => exact absurd hloop (hanswered.received res)
    | some c =>
      obtain ⟨hslot', hcustody⟩ := h.execute hloop
      obtain rfl : call = c := by simpa [hslot'] using hslot.symm
      have hplace : place (resultId res) = .handled (.received call) :=
        h.handled (by rw [hloop]; rfl)
      exact ⟨_, hcustody, hawaited.execute (by rw [hplace]; rfl) rfl _⟩
  | deleted hloop hs =>
    obtain ⟨hslot, hcustody⟩ := h.delete hloop
    rw [System.deleteCallback, hslot] at hs
    obtain rfl := Option.some.inj hs
    exact ⟨_, hcustody, hawaited.move fun c hc => by cases hc⟩
  | cleared hloop => exact ⟨_, h.clear hloop, hawaited.move fun c hc => by cases hc⟩
  | recycled hloop => exact ⟨_, h.recycle hloop, hawaited.move fun c hc => by cases hc⟩
  | answered hs =>
    refine ⟨place, h.answer hs, ?_⟩
    obtain ⟨request, -, rfl⟩ := Option.map_eq_some_iff.mp hs
    exact hawaited
  | connected | drained _ | readFailed =>
    exact ⟨place, ⟨h.accounts, h.bound, h.live, h.slots, h.threads, h.requests, h.loops⟩, hawaited⟩

/-- A call is counted when it begins. -/
theorem System.exec_call_calls {t : Option τ} {sync : Bool} {service : Service}
    {encoding : List UInt8} {padding : CharArray 3} {beyond : ℤ}
    (hs : s.exec (.call t sync service encoding padding beyond) = some s') :
    s'.calls = s.calls + 1 := by
  cases System.exec_effect hs with
  | noId _ _ => rfl
  | numbered _ hid => rw [System.callRpcAsync, if_neg hid]

theorem System.exec_calls {a : Action τ} (hs : s.exec a = some s') (ha : a.begins = false) :
    s'.calls = s.calls := by
  cases System.exec_effect hs with
  | noId _ _ | numbered _ _ => cases ha
  | registered _ | noClient _ =>
    rw [System.asyncInvoke]
    split <;> rfl
  | pushed _ _ | notInitialized _ _ =>
    rw [System.sendRequest]
    split <;> rfl
  | written _ =>
    rw [System.handleWriteEvent]
    split <;> rfl
  | deleted _ hs =>
    obtain ⟨slots, -, rfl⟩ := System.deleteCallback_eq_some hs
    rfl
  | answered hs =>
    obtain ⟨request, -, rfl⟩ := Option.map_eq_some_iff.mp hs
    rfl
  | woken _ | connected | drained _ | readFailed | received _ _ | readOther _ | executed _ _
    | cleared _ | recycled _ => rfl

/-- Callbacks are executed by `Exec` only. -/
theorem System.exec_executed {a : Action τ} (hs : s.exec a = some s') (ha : a ≠ .exec) :
    s'.executed = s.executed := by
  cases System.exec_effect hs with
  | executed _ _ => exact absurd rfl ha
  | numbered _ _ => simp
  | registered _ | noClient _ => simp
  | pushed _ _ | notInitialized _ _ => simp
  | written _ => simp
  | deleted _ hs =>
    obtain ⟨slots, -, rfl⟩ := System.deleteCallback_eq_some hs
    rfl
  | answered hs =>
    obtain ⟨request, -, rfl⟩ := Option.map_eq_some_iff.mp hs
    rfl
  | noId _ _ | woken _ | connected | drained _ | readFailed | received _ _ | readOther _
    | cleared _ | recycled _ => rfl

/-- No id comes into use but by a call. -/
theorem System.exec_live {a : Action τ} (hs : s.exec a = some s') (ha : a.begins = false) :
    s'.live.length ≤ s.live.length := by
  cases System.exec_effect hs with
  | noId _ _ | numbered _ _ => cases ha
  | registered _ | noClient _ =>
    rw [System.asyncInvoke]
    split <;> exact le_rfl
  | pushed _ _ | notInitialized _ _ =>
    rw [System.sendRequest]
    split <;> exact le_rfl
  | written _ =>
    rw [System.handleWriteEvent]
    split <;> exact le_rfl
  | deleted _ hs =>
    obtain ⟨slots, -, rfl⟩ := System.deleteCallback_eq_some hs
    exact le_rfl
  | recycled _ => exact List.length_erase_le
  | answered hs =>
    obtain ⟨request, -, rfl⟩ := Option.map_eq_some_iff.mp hs
    exact le_rfl
  | woken _ | connected | drained _ | readFailed | received _ _ | readOther _ | executed _ _
    | cleared _ => exact le_rfl

/-! ## A call has one request -/

section OneRequest

variable {calls c : ℕ} {executed : List (ℕ × Option ℕ)} {requests : List (ℤ × ℕ)} {id : ℤ}

omit [DecidableEq τ] in
/-- The place of the id of a request. -/
theorem Requests.place_eq (h : Requests requests place) (hmem : (id, c) ∈ requests) :
    place id = .outstanding c := by
  obtain ⟨before, after, rfl⟩ := List.append_of_mem hmem
  exact Place.eq_outstanding (h.of_perm List.perm_middle.symm).requests_eq

omit [DecidableEq τ] in
/-- No two requests are of the same call. -/
theorem Awaited.nodup (h : Awaited calls executed place) (hrequests : Requests requests place) :
    (requests.map Prod.snd).Nodup := by
  induction requests generalizing place with
  | nil => exact List.nodup_nil
  | cons r requests ih =>
    obtain ⟨id, c⟩ := r
    have hplace := Place.eq_outstanding hrequests.requests_eq
    -- what is left of the requests does not carry the id
    have hrest : Requests requests (Function.update place id .free) := hrequests.remove rfl
    have hfree : Awaited calls executed (Function.update place id .free) :=
      h.move fun c hc => by cases hc
    refine List.nodup_cons.mpr ⟨fun hmem => ?_, ih hfree hrest⟩
    obtain ⟨⟨id', c'⟩, hin, rfl⟩ := List.mem_map.mp hmem
    have hplace' := hrequests.place_eq (List.mem_cons_of_mem _ hin)
    obtain rfl : id' = id :=
      h.unique id' id c' (by rw [hplace']; rfl) (by rw [hplace]; rfl)
    have hgone := hrest.place_eq hin
    rw [Function.update_self] at hgone
    cases hgone

omit [DecidableEq τ] in
/-- While a thread has a call in hand, the call has no request yet. -/
theorem Awaited.inHand (h : Awaited calls executed place) (hcustody : Custody s place)
    {t : Option τ} {i : ℤ} {b : Bool} (ht : (s.threads t).inHand = some (i, b, c)) :
    c ∉ s.outstanding.map Prod.snd := by
  intro hmem
  obtain ⟨⟨id, c'⟩, hin, rfl⟩ := List.mem_map.mp hmem
  have hplace := hcustody.requests.place_eq hin
  have hholder := (hcustody.threads t i b c').mpr ht
  have hpending : (place i).pendingCall = some c' := by
    cases hp : place i <;> simp_all [Place.holder, Place.pendingCall]
  obtain rfl : i = id := h.unique i id c' hpending (by rw [hplace]; rfl)
  rw [hplace] at hholder
  cases hholder

end OneRequest

/-! ## What is under way -/

/-- `P` holds of the messages that threads have in hand or have queued, and `R` of the results
that were not handled yet, each with its call. -/
structure Underway (P : ℕ → RpcMessage → Prop) (R : ℕ → RpcResult → Prop) (s : System τ) :
    Prop where
  numbered : ∀ t call sync client message,
    s.threads t = .numbered call sync client message → P call message
  registered : ∀ t call sync message, s.threads t = .registered call sync message → P call message
  queued : ∀ r ∈ s.pendingRequests, P r.call r.message
  answers : ∀ r ∈ s.answers, R r.call r.result
  received : ∀ call res, s.loop = .received (some call) res → R call res

namespace Underway

variable {P P' : ℕ → RpcMessage → Prop} {R R' : ℕ → RpcResult → Prop}

omit [DecidableEq τ] in
theorem init : Underway P R (System.init : System τ) where
  numbered _ _ _ _ _ h := by cases h
  registered _ _ _ _ h := by cases h
  queued _ h := by cases h
  answers _ h := by cases h
  received _ _ h := by cases h

omit [DecidableEq τ] in
/-- What follows from both holds as well. -/
theorem imp₂ {P'' : ℕ → RpcMessage → Prop} {R'' : ℕ → RpcResult → Prop} (h : Underway P R s)
    (h' : Underway P' R' s) (hP : ∀ c m, P c m → P' c m → P'' c m)
    (hR : ∀ c r, R c r → R' c r → R'' c r) : Underway P'' R'' s where
  numbered _ _ _ _ _ ht := hP _ _ (h.numbered _ _ _ _ _ ht) (h'.numbered _ _ _ _ _ ht)
  registered _ _ _ _ ht := hP _ _ (h.registered _ _ _ _ ht) (h'.registered _ _ _ _ ht)
  queued r hr := hP _ _ (h.queued r hr) (h'.queued r hr)
  answers r hr := hR _ _ (h.answers r hr) (h'.answers r hr)
  received c r hr := hR _ _ (h.received c r hr) (h'.received c r hr)

omit [DecidableEq τ] in
theorem imp (h : Underway P R s) (hP : ∀ c m, P c m → P' c m) (hR : ∀ c r, R c r → R' c r) :
    Underway P' R' s :=
  h.imp₂ h (fun c m hc _ => hP c m hc) fun c r hr _ => hR c r hr

/-- What holds of the new message of a call. -/
theorem call (h : Underway P R s) {t : Option τ} {sync : Bool} {service : Service}
    {encoding : List UInt8} {padding : CharArray 3} {beyond : ℤ}
    (hnew : ∀ id, P s.calls (callMessage padding id service encoding)) :
    Underway P R (s.callRpcAsync t sync service encoding padding beyond) := by
  by_cases hid : (s.guid.getGuid beyond).1 = -1
  · rw [System.callRpcAsync, if_pos hid]
    refine ⟨fun u c b d m hu => ?_, fun u c b m hu => ?_, h.queued, h.answers, h.received⟩ <;>
      · simp only [Function.update_apply] at hu
        split at hu
        · cases sync <;> cases hu
        · first
          | exact h.numbered _ _ _ _ _ hu
          | exact h.registered _ _ _ _ hu
  · rw [System.callRpcAsync, if_neg hid]
    refine ⟨fun u c b d m hu => ?_, fun u c b m hu => ?_, h.queued, h.answers, h.received⟩
    · simp only [Function.update_apply] at hu
      split at hu
      · cases hu
        exact hnew _
      · exact h.numbered _ _ _ _ _ hu
    · simp only [Function.update_apply] at hu
      split at hu
      · cases hu
      · exact h.registered _ _ _ _ hu

omit [DecidableEq τ] in
/-- A result is on its way back. -/
theorem answer (h : Underway P R s) {i : ℕ} {returnBuffer : CharArray maxRpcReturnValue}
    {r : Request} (hr : s.wire[i]? = some r) (hnew : ∀ seqno, R r.call ⟨seqno, returnBuffer⟩)
    (hs : s.answerRequest i returnBuffer = some s') : Underway P R s' := by
  rw [System.answerRequest, hr] at hs
  obtain rfl := Option.some.inj hs
  refine ⟨h.numbered, h.registered, h.queued, fun x hx => ?_, h.received⟩
  rcases List.mem_append.mp hx with hx | hx
  · exact h.answers x hx
  · rw [List.mem_singleton.mp hx]
    exact hnew _

end Underway

/-- A step of a call or of the event loop: what holds of a message goes on holding of it, up to
the wire. -/
theorem Underway.exec {P : ℕ → RpcMessage → Prop} {R : ℕ → RpcResult → Prop}
    (h : Underway P R s)
    (hneed : ∀ c m, P c m → P c { m with header := { m.header with needReturn := true } })
    (ha : a.goesOn) (hs : s.exec a = some s') :
    Underway P R s' ∧
      (s'.wire = s.wire ∨ ∃ r : Request, P r.call r.message ∧ s'.wire = s.wire ++ [r]) := by
  -- a thread lets go of its call, or goes on with it
  have hgo : ∀ (t : Option τ) (point : CallPoint),
      (∀ c sync client m, point = .numbered c sync client m → P c m) →
      (∀ c sync m, point = .registered c sync m → P c m) →
      (∀ u c sync client m, Function.update s.threads t point u = .numbered c sync client m →
        P c m) ∧
      ∀ u c sync m, Function.update s.threads t point u = .registered c sync m → P c m := by
    intro t point hnumbered hregistered
    refine ⟨fun u c sync client m hu => ?_, fun u c sync m hu => ?_⟩
    · simp only [Function.update_apply] at hu
      split at hu
      · exact hnumbered c sync client m hu
      · exact h.numbered _ _ _ _ _ hu
    · simp only [Function.update_apply] at hu
      split at hu
      · exact hregistered c sync m hu
      · exact h.registered _ _ _ _ hu
  have hafter : ∀ (t : Option τ) call sync,
      (∀ u c sync' client m,
        Function.update s.threads t (afterCall call sync) u = .numbered c sync' client m → P c m) ∧
      ∀ u c sync' m,
        Function.update s.threads t (afterCall call sync) u = .registered c sync' m → P c m := by
    intro t call sync
    exact hgo t _ (fun c b d m hp => by cases sync <;> cases hp)
      fun c b m hp => by cases sync <;> cases hp
  cases System.exec_effect hs with
  | noId _ _ | numbered _ _ | answered _ => cases ha
  | @registered t call sync message ht =>
    have hthreads := hgo t (.registered call sync
      { message with header := { message.header with needReturn := true } })
      (fun c b d m hp => by cases hp) (fun c b m hp => by
        cases hp
        exact hneed _ _ (h.numbered _ _ _ _ _ ht))
    exact ⟨⟨hthreads.1, hthreads.2, h.queued, h.answers, h.received⟩, .inl rfl⟩
  | @noClient t call sync message ht =>
    exact ⟨⟨(hafter t call sync).1, (hafter t call sync).2, h.queued, h.answers, h.received⟩,
      .inl rfl⟩
  | @pushed t call sync message ht hinit =>
    rw [System.sendRequest, if_pos hinit]
    refine ⟨⟨(hafter t call sync).1, (hafter t call sync).2, fun r hr => ?_, h.answers,
      h.received⟩, .inl rfl⟩
    rcases List.mem_append.mp hr with hr | hr
    · exact h.queued r hr
    · rw [List.mem_singleton.mp hr]
      exact h.registered _ _ _ _ ht
  | @notInitialized t call sync message ht hinit =>
    rw [System.sendRequest, if_neg hinit]
    exact ⟨⟨(hafter t call sync).1, (hafter t call sync).2, h.queued, h.answers, h.received⟩,
      .inl rfl⟩
  | @woken t call ht =>
    exact ⟨⟨(hafter t call false).1, (hafter t call false).2, h.queued, h.answers, h.received⟩,
      .inl rfl⟩
  | @written sent request rest hqueue =>
    have hqueued := h.queued
    rw [hqueue, List.forall_mem_cons] at hqueued
    rw [System.handleWriteEvent, hqueue]
    refine ⟨⟨h.numbered, h.registered, hqueued.2, h.answers, h.received⟩, ?_⟩
    by_cases hsent : sent = .whole
    · exact .inr ⟨request, hqueued.1, if_pos hsent⟩
    · exact .inl (if_neg hsent)
  | @received answer rest hloop hanswers =>
    have hall := h.answers
    rw [hanswers, List.forall_mem_cons] at hall
    refine ⟨⟨h.numbered, h.registered, h.queued, hall.2, fun c res hc => ?_⟩, .inl rfl⟩
    cases hc
    exact hall.1
  | deleted hloop hs =>
    obtain ⟨slots, -, rfl⟩ := System.deleteCallback_eq_some hs
    exact ⟨⟨h.numbered, h.registered, h.queued, h.answers, fun c res hc => by cases hc⟩,
      .inl rfl⟩
  | readOther _ | executed _ _ | cleared _ | recycled _ =>
    exact ⟨⟨h.numbered, h.registered, h.queued, h.answers, fun c res hc => by cases hc⟩,
      .inl rfl⟩
  | connected | drained _ | readFailed =>
    exact ⟨⟨h.numbered, h.registered, h.queued, h.answers, h.received⟩, .inl rfl⟩

end DreamboatRpc.Client
