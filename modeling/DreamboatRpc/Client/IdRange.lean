import DreamboatRpc.Client.TableSafety

/-!
# The last id

Ids are counted from 1 up to and including `MAX_GUID`, slots from 0 up to `MAX_REQUESTS - 1`,
and both limits are 1024. So the last id has no slot. It is issued once all the others are in
use, and never comes back, since only what has a slot is recycled.

## Main definitions

* `IdsFit` — the ids that threads are about to register have slots
* `leavesRoom` — the condition on a call
* `Recyclable` — what is recycled has a slot

## Main results

* `Guid.Accounts.getGuid_eq_maxGuid_iff` — when the last id is issued
* `ids_fit_iff` — when all ids fit the table
* `last_id_issued` — with as many calls outstanding as there are slots, one does not
-/

namespace DreamboatRpc.Client

open CS Rpc TransitionSystem

variable {τ : Type*}

/-- The id that a thread has obtained, and with which it is going to call `Register`, is an
index of the table. -/
def IdsFit (s : System τ) : Prop :=
  ∀ t call sync message, s.threads t = .numbered call sync true message →
    0 ≤ messageId message ∧ messageId message < s.slots.length

/-- No call on a service with a client begins while the last id is the only one that is not in
use. -/
def leavesRoom (s : System τ) : Action τ → Prop
  | .call _ _ service _ _ _ =>
    service.client = true → s.live.length = maxRequests - 1 → maxGuid ∈ s.live
  | _ => True

instance (s : System τ) (a : Action τ) : Decidable (leavesRoom s a) :=
  match a with
  | .call _ _ _ _ _ _ => by dsimp only [leavesRoom]; infer_instance
  | .read _ | .invoke _ | .sendRequest _ | .wake _ | .connect | .write _
  | .exec | .delete | .null | .recycle | .answer _ _ => instDecidableTrue

/-! ## The last id -/

namespace Guid

variable {g : Guid} {live : List ℤ}

theorem heap_getGuid_subset (g : Guid) (beyond : ℤ) : (g.getGuid beyond).2.heap ⊆ g.heap := by
  unfold getGuid
  by_cases hheap : g.heap = []
  · rw [if_pos hheap]
    split <;> exact List.Subset.refl _
  · rw [if_neg hheap]
    exact fun id hid => (popItem_perm hheap).subset (List.mem_cons_of_mem _ hid)

theorem getGuid_mem_heap_or (g : Guid) (beyond : ℤ) :
    (g.getGuid beyond).1 ∈ g.heap ∨ g.heap = [] := by
  unfold getGuid
  by_cases hheap : g.heap = []
  · exact .inr hheap
  · rw [if_neg hheap]
    have hperm : ((popItem beyond g.heap).1 :: (popItem beyond g.heap).2).Perm g.heap :=
      popItem_perm hheap
    exact .inl (hperm.subset List.mem_cons_self)

/-- As long as it does not wait to be issued again, the last id is issued if and only if all
others are in use and it is not. -/
theorem Accounts.getGuid_eq_maxGuid_iff (h : g.Accounts live) (hbound : g.bound ≤ maxGuid)
    (hheap : maxGuid ∉ g.heap) (beyond : ℤ) :
    (g.getGuid beyond).1 = maxGuid ↔ live.length = maxRequests - 1 ∧ maxGuid ∉ live := by
  have hlength := h.length_eq
  have hpos := h.bound
  have hmax : maxGuid = (1024 : ℤ) := rfl
  have hmany : maxRequests = 1024 := rfl
  constructor
  · intro hlast
    have hempty : g.heap = [] := by
      rcases g.getGuid_mem_heap_or beyond with hmem | hempty
      · exact absurd (hlast ▸ hmem) hheap
      · exact hempty
    rw [hempty, List.length_nil] at hlength
    rw [Guid.getGuid, if_pos hempty] at hlast
    split at hlast
    · simp only at hlast
      omega
    · rename_i hroom
      simp only at hlast
      refine ⟨by omega, fun hmem => ?_⟩
      have hin := (h.mem maxGuid).mp (List.mem_append_left _ hmem)
      omega
  · rintro ⟨hcount, hfree⟩
    -- the last id is nowhere, so it was not issued yet
    have hnew : ¬ maxGuid ≤ g.bound := by
      intro hle
      rcases List.mem_append.mp ((h.mem maxGuid).mpr ⟨by omega, hle⟩) with hmem | hmem
      · exact hfree hmem
      · exact hheap hmem
    have hempty : g.heap = [] := by
      rw [← List.length_eq_zero_iff]
      omega
    rw [hempty, List.length_nil] at hlength
    rw [Guid.getGuid, if_pos hempty, if_neg (by omega)]
    simp only
    omega

end Guid

/-! ## What is recycled -/

/-- The event loop has an id with a slot in hand, if it has one to recycle. -/
def LoopPoint.recycles (limit : ℤ) : LoopPoint → Prop
  | .executing _ res | .deleted res | .nulled res => resultId res < limit
  | .dispatching | .received _ _ => True

/-- Only ids that have slots are issued again. -/
structure Recyclable (s : System τ) : Prop where
  slots : s.slots.length = maxRequests
  heap : ∀ id ∈ s.guid.heap, id < maxRequests
  loop : s.loop.recycles maxRequests

theorem lt_length_of_slotAt {slots : List Slot} {id : ℤ} {slot : Slot}
    (h : slotAt slots id = some slot) : id < slots.length := by
  unfold slotAt at h
  split at h
  · cases h
  · obtain ⟨hlt, -⟩ := List.getElem?_eq_some_iff.mp h
    omega

namespace Recyclable

variable {s s' : System τ} {a : Action τ}

theorem init : Recyclable (System.init : System τ) :=
  ⟨List.length_replicate, by simp [System.init, Guid.init], trivial⟩

theorem exec [DecidableEq τ] (h : Recyclable s) (hs : s.exec a = some s') : Recyclable s' := by
  cases System.exec_effect hs with
  | noId _ _ | woken _ | connected | drained _ | readFailed | received _ _ | readOther _ =>
    exact ⟨h.slots, h.heap, by first | exact h.loop | trivial⟩
  | @numbered t sync service encoding padding beyond _ hid =>
    rw [System.callRpcAsync, if_neg hid]
    exact ⟨h.slots, fun id hid => h.heap id (s.guid.heap_getGuid_subset beyond hid), h.loop⟩
  | registered _ => exact ⟨(length_setSlot ..).trans h.slots, h.heap, h.loop⟩
  | noClient _ => exact ⟨h.slots, h.heap, h.loop⟩
  | pushed _ hinit =>
    rw [System.sendRequest, if_pos hinit]
    exact ⟨h.slots, h.heap, h.loop⟩
  | notInitialized _ hinit =>
    rw [System.sendRequest, if_neg hinit]
    exact ⟨h.slots, h.heap, h.loop⟩
  | written hqueue =>
    rw [System.handleWriteEvent, hqueue]
    exact ⟨h.slots, h.heap, h.loop⟩
  | @executed answers res call hloop hslot =>
    have hlt := lt_length_of_slotAt hslot
    rw [h.slots] at hlt
    exact ⟨h.slots, h.heap, hlt⟩
  | @deleted call res s' hloop hdelete =>
    have hlt : resultId res < maxRequests := by
      simpa only [hloop, LoopPoint.recycles] using h.loop
    obtain ⟨slots, hlength, rfl⟩ := System.deleteCallback_eq_some hdelete
    exact ⟨hlength.trans h.slots, h.heap, hlt⟩
  | @cleared res hloop =>
    have hlt : resultId res < maxRequests := by
      simpa only [hloop, LoopPoint.recycles] using h.loop
    exact ⟨(length_setSlot ..).trans h.slots, h.heap, hlt⟩
  | @recycled res hloop =>
    have hlt : resultId res < maxRequests := by
      simpa only [hloop, LoopPoint.recycles] using h.loop
    refine ⟨h.slots, fun id hid => ?_, trivial⟩
    rcases List.mem_cons.mp (pushItem_perm.subset hid) with rfl | hid
    · exact hlt
    · exact h.heap id hid
  | answered hanswer =>
    obtain ⟨request, -, rfl⟩ := Option.map_eq_some_iff.mp hanswer
    exact ⟨h.slots, h.heap, h.loop⟩

end Recyclable

/-! ## The result -/

variable [DecidableEq τ] {s s' : System τ} {a : Action τ}

/-- The ids in use and those to be issued again, in every state of every run. -/
theorem sound_of_reachable (h : (clientSystem τ).Reachable unguarded s) :
    Sound s.heard ∧ Recyclable s := by
  refine h.invariant (I := fun s => Sound s.heard ∧ Recyclable s) (fun s hs => ?_)
    fun s a s' h _ hs => ⟨h.1.exec_heard (ofExec_step.mp hs), h.2.exec (ofExec_step.mp hs)⟩
  rw [ofExec_init.mp hs]
  exact ⟨Sound.init, .init⟩

/-- A thread that goes on without an id. -/
theorem IdsFit.update (h : IdsFit s) {t : Option τ} {point : CallPoint}
    (hpoint : ∀ call sync message, point ≠ .numbered call sync true message)
    (hthreads : s'.threads = Function.update s.threads t point)
    (hslots : s'.slots.length = s.slots.length) : IdsFit s' := by
  intro u call sync message hu
  rw [hthreads] at hu
  rw [hslots]
  by_cases hut : u = t
  · rw [hut, Function.update_self] at hu
    exact absurd hu (hpoint call sync message)
  · rw [Function.update_of_ne hut] at hu
    exact h u call sync message hu

omit [DecidableEq τ] in
theorem IdsFit.frame (h : IdsFit s) (hthreads : s'.threads = s.threads)
    (hslots : s'.slots.length = s.slots.length) : IdsFit s' := by
  intro u call sync message hu
  rw [hthreads] at hu
  rw [hslots]
  exact h u call sync message hu

/-- The id of a call that begins fits exactly if the call meets the condition. -/
theorem idsFit_callRpcAsync_iff (hsound : Sound s.heard) (hrecyclable : Recyclable s)
    (h : IdsFit s) {t : Option τ} {sync : Bool} {service : Service} {encoding : List UInt8}
    {padding : CharArray 3} {beyond : ℤ} (hid : (s.guid.getGuid beyond).1 ≠ -1) :
    IdsFit (s.callRpcAsync t sync service encoding padding beyond) ↔
      leavesRoom s (.call t sync service encoding padding beyond) := by
  have haccounts : s.guid.Accounts s.live := hsound.accounts
  have hbound : s.guid.bound ≤ maxGuid := hsound.bound
  have hmax : maxGuid = maxRequests := rfl
  have hlast := haccounts.getGuid_eq_maxGuid_iff hbound
    (fun hmem => absurd (hrecyclable.heap _ hmem) (by omega)) beyond
  obtain ⟨hnone, -⟩ | ⟨hone, hle, -⟩ := haccounts.getGuid beyond
  · rw [hnone] at hid
    exact absurd rfl hid
  have hgrows := (Guid.getGuid_bound beyond haccounts hbound).2.1
  rw [System.callRpcAsync, if_neg hid]
  cases hclient : service.client with
  | false =>
    refine iff_of_true (h.update (t := t) (by simp) rfl rfl) fun hset => ?_
    rw [hclient] at hset
    cases hset
  | true =>
    have hmessage : messageId (callMessage padding (s.guid.getGuid beyond).1 service encoding) =
        (s.guid.getGuid beyond).1 := messageId_callMessage (by omega) (by omega)
    constructor
    · intro hfits _ hcount
      by_contra hfree
      have hin := (hfits t s.calls sync _ (Function.update_self ..)).2
      rw [hmessage, hlast.mpr ⟨hcount, hfree⟩, hrecyclable.slots] at hin
      omega
    · intro hroom u call sync' message hu
      by_cases hut : u = t
      · have hne : (s.guid.getGuid beyond).1 ≠ maxGuid := fun heq =>
          (hlast.mp heq).2 (hroom hclient (hlast.mp heq).1)
        simp only [hut, Function.update_self, CallPoint.numbered.injEq] at hu
        rw [← hu.2.2.2, hmessage]
        simp only [hrecyclable.slots]
        omega
      · simp only [Function.update_of_ne hut] at hu
        exact h u call sync' message hu

/-- From a state whose ids fit, exactly the actions that meet the condition lead to another. -/
theorem idsFit_exec_iff (hsound : Sound s.heard) (hrecyclable : Recyclable s) (h : IdsFit s)
    (hs : s.exec a = some s') : IdsFit s' ↔ leavesRoom s a := by
  have hafter : ∀ (call : ℕ) (sync : Bool) (c : ℕ) (b : Bool) (message : RpcMessage),
      afterCall call sync ≠ .numbered c b true message := by
    intro call sync c b message
    cases sync <;> simp [afterCall]
  cases System.exec_effect hs with
  | numbered _ hid => exact idsFit_callRpcAsync_iff hsound hrecyclable h hid
  | @noId t sync service encoding padding beyond hidle hid =>
    refine iff_of_true (h.update (hafter _ _) rfl rfl) fun _ _ => ?_
    -- no id is left, so the last one is in use as well
    exact (Guid.getGuid_eq_neg_one_iff hsound.accounts hsound.bound).mp hid maxGuid (by decide)
      le_rfl
  | registered _ =>
    exact iff_of_true (h.update (by simp) rfl (length_setSlot ..)) trivial
  | noClient _ => exact iff_of_true (h.update (hafter _ _) rfl rfl) trivial
  | pushed _ hinit =>
    rw [System.sendRequest, if_pos hinit]
    exact iff_of_true (h.update (hafter _ _) rfl rfl) trivial
  | notInitialized _ hinit =>
    rw [System.sendRequest, if_neg hinit]
    exact iff_of_true (h.update (hafter _ _) rfl rfl) trivial
  | woken _ => exact iff_of_true (h.update (by simp) rfl rfl) trivial
  | written hqueue =>
    rw [System.handleWriteEvent, hqueue]
    exact iff_of_true (h.frame rfl rfl) trivial
  | deleted _ hdelete =>
    obtain ⟨slots, hlength, rfl⟩ := System.deleteCallback_eq_some hdelete
    exact iff_of_true (h.frame rfl hlength) trivial
  | cleared _ => exact iff_of_true (h.frame rfl (length_setSlot ..)) trivial
  | answered hanswer =>
    obtain ⟨request, -, rfl⟩ := Option.map_eq_some_iff.mp hanswer
    exact iff_of_true (h.frame rfl rfl) trivial
  | connected | drained | readFailed | received | readOther | executed | recycled =>
    exact iff_of_true (h.frame rfl rfl) trivial

/-- In every run, with any number of calls outstanding: every id that is going to be registered
is an index of the table, iff no call on a service with a client begins while all ids but the
last are in use. -/
theorem ids_fit_iff {history : List (Transition (System τ) (Action τ))}
    (hrun : (clientSystem τ).Run unguarded history s) :
    (∀ x ∈ history, IdsFit x.target) ↔ ∀ x ∈ history, leavesRoom x.source x.event := by
  apply hrun.targets_iff (I := IdsFit) (C := leavesRoom)
  · intro s hs t call sync message ht
    rw [ofExec_init.mp hs] at ht
    cases ht
  · intro s a t hreach h hstep
    obtain ⟨hsound, hrecyclable⟩ := sound_of_reachable hreach
    exact idsFit_exec_iff hsound hrecyclable h (ofExec_step.mp hstep)

/-- Two threads call the service before a result comes, and then one of them again. -/
def threeCalls : List (Action ℕ) :=
  [.connect] ++ callEcho (some 0) false ++ callEcho (some 1) false ++ answerFirst ++ endHandler ++
    callEcho (some 0) false ++ answerFirst ++ endHandler ++ answerFirst ++ endHandler

/-- Three callbacks were executed, two ids were in use together, and every step met the
condition. -/
def callsWithRoom (history : List (Transition (System ℕ) (Action ℕ))) (s : System ℕ) : Bool :=
  s.executed.length == 3 && history.any (fun x => decide (x.target.live = [2, 1])) &&
    history.all fun x => decide (leavesRoom x.source x.event)

theorem ids_fit_iff_threeCalls :
    ∃ (history : List (Transition (System ℕ) (Action ℕ))) (s : System ℕ),
      callsWithRoom history s ∧ ∀ x ∈ history, IdsFit x.target := by
  have hreplay : (replay System.exec (fun _ _ => true) [] System.init threeCalls).any
      (fun r => callsWithRoom r.1 r.2) = true := by decide +kernel
  obtain ⟨history, s, hrun, htest⟩ := exists_run_of_replay callsWithRoom hreplay
  refine ⟨history, s, htest, (ids_fit_iff (hrun.mono fun _ _ _ => trivial)).mpr ?_⟩
  simp only [callsWithRoom, Bool.and_eq_true, List.all_eq_true, decide_eq_true_eq] at htest
  exact htest.2

/-! ## As many calls as there are slots -/

/-- A thread makes a call that is not answered. -/
theorem call_outstanding {s : System ℕ} (hreach : (clientSystem ℕ).Reachable unguarded s)
    (hidle : s.threads (some 0) = .idle) (hid : (s.guid.getGuid 0).1 ≠ -1) :
    ∃ t : System ℕ, (clientSystem ℕ).Reachable unguarded t ∧ t.guid = (s.guid.getGuid 0).2 ∧
      t.threads (some 0) = .idle ∧ t.slots.length = s.slots.length := by
  obtain ⟨history, hrun⟩ := hreach
  set message := callMessage (.bzero 3) (s.guid.getGuid 0).1 echo [7]
  set numbered := s.callRpcAsync (some 0) false echo [7] (.bzero 3) 0 with hnumbered
  rw [System.callRpcAsync, if_neg hid] at hnumbered
  have hcalled : numbered.threads (some 0) = .numbered s.calls false true message := by
    rw [hnumbered]
    simp [message, echo]
  set registered := numbered.asyncInvoke (some 0) s.calls false true message with hregistered
  have hinvoked : registered.threads (some 0) = .registered s.calls false
      { message with header := { message.header with needReturn := true } } := by
    simp [hregistered, System.asyncInvoke]
  set pushed := registered.sendRequest (some 0) s.calls false
    { message with header := { message.header with needReturn := true } } with hpushed
  have hcall : s.exec (.call (some 0) false echo [7] (.bzero 3) 0) = some numbered := by
    simp [System.exec, hidle, numbered]
  have hinvoke : numbered.exec (.invoke (some 0)) = some registered := by
    simp [System.exec, hcalled, registered]
  have hsend : registered.exec (.sendRequest (some 0)) = some pushed := by
    simp [System.exec, hinvoked, pushed]
  refine ⟨pushed, ⟨_, ((hrun.step trivial hcall).step trivial hinvoke).step trivial hsend⟩, ?_⟩
  have hguid : registered.guid = (s.guid.getGuid 0).2 := by
    rw [hregistered, System.asyncInvoke, if_pos rfl, hnumbered]
  have hslots : registered.slots.length = s.slots.length := by
    rw [hregistered, System.asyncInvoke, if_pos rfl, hnumbered]
    exact length_setSlot ..
  rw [hpushed, System.sendRequest]
  split
  · exact ⟨hguid, by simp [afterCall], hslots⟩
  · exact ⟨hguid, by simp [afterCall], hslots⟩

/-- Calls that are not answered use up the ids one after another. -/
theorem calls_outstanding {k : ℕ} (hk : k < maxRequests) :
    ∃ s : System ℕ, (clientSystem ℕ).Reachable unguarded s ∧ s.guid = ⟨[], k⟩ ∧
      s.threads (some 0) = .idle ∧ s.slots.length = maxRequests := by
  induction k with
  | zero =>
    have hconnect : (System.init : System ℕ).exec .connect =
        some { System.init with initialized := true } := rfl
    exact ⟨_, ⟨_, (TransitionSystem.Run.init rfl).step trivial hconnect⟩, rfl, rfl,
      List.length_replicate⟩
  | succ k ih =>
    obtain ⟨s, hreach, hguid, hidle, hslots⟩ := ih (by omega)
    have hmax : maxGuid = (maxRequests : ℤ) := rfl
    have hissue : s.guid.getGuid 0 = ((k : ℤ) + 1, ⟨[], k + 1⟩) := by
      rw [hguid, Guid.getGuid, if_pos rfl, if_neg (by simp only; omega)]
    obtain ⟨t, ht, hguid', hidle', hslots'⟩ :=
      call_outstanding hreach hidle (by rw [hissue]; simp only; omega)
    refine ⟨t, ht, ?_, hidle', hslots'.trans hslots⟩
    rw [hguid', hissue]
    simp

/-- With 1023 calls outstanding, the next one gets an id that has no slot. -/
theorem last_id_issued :
    ¬ ∀ s : System ℕ, (clientSystem ℕ).Reachable unguarded s → IdsFit s := by
  intro hfits
  obtain ⟨s, ⟨history, hrun⟩, hguid, hidle, hslots⟩ :=
    calls_outstanding (k := maxRequests - 1) (by decide)
  have hissue : (s.guid.getGuid 0).1 = maxGuid := by
    rw [hguid]
    rfl
  have hid : (s.guid.getGuid 0).1 ≠ -1 := by
    rw [hissue]
    decide
  have hcall : s.exec (.call (some 0) false echo [7] (.bzero 3) 0) =
      some (s.callRpcAsync (some 0) false echo [7] (.bzero 3) 0) := by
    simp [System.exec, hidle]
  have hnumbered := hfits _ ⟨_, hrun.step trivial hcall⟩ (some 0) s.calls false
    (callMessage (.bzero 3) maxGuid echo [7]) (by
      rw [System.callRpcAsync, if_neg hid, hissue]
      simp [echo])
  rw [messageId_callMessage (by decide) le_rfl, System.callRpcAsync, if_neg hid] at hnumbered
  simp only [hslots] at hnumbered
  exact absurd hnumbered.2 (by decide)

end DreamboatRpc.Client
