import DreamboatRpc.Client.Custody

/-!
# Results and callbacks

As long as fewer ids are in use than the table has slots and every result arrives whole, a
result executes the callback of the call it answers: nobody else has registered a callback
under an id in use, and the slot of an id is cleared before the id can be issued again.

## Main definitions

* `RepliesMatched` — results find the callbacks of their calls
* `resultsWhole` — what `recv` leaves in the buffer is a result the server has sent

## Main results

* `Custody.exec` — an action keeps every id in a place
* `replies_matched` — it is so in all runs
-/

namespace DreamboatRpc.Client

open CS

variable {τ : Type*} {s s' : System τ} {a : Action τ} {place : ℤ → Place τ}

/-- A result that was received finds the callback of the call it answers; a callback is
registered in an empty slot; every callback that was executed was executed for the result
of its call. -/
structure RepliesMatched (s : System τ) : Prop where
  received : ∀ answers res, s.loop = .received answers res →
    ∃ call, answers = some call ∧ slotAt s.slots (resultId res) = some (.callback call)
  register : ∀ t call sync client message, s.threads t = .numbered call sync client message →
    slotAt s.slots (messageId message) = some .null
  executed : ∀ x ∈ s.executed, x.2 = some x.1

/-- Whether what `recv` leaves in the buffer is the next result of the server. -/
def Action.readsWhole : Action τ → Bool
  | .read (.other _) => false
  | _ => true

/-- Results arrive whole. -/
def resultsWhole (_ : System τ) (a : Action τ) : Prop := a.readsWhole

/-- The event loop has only handled results of the server. -/
structure Answered (s : System τ) : Prop where
  received : ∀ res, s.loop ≠ .received none res
  executed : ∀ x ∈ s.executed, x.2 = some x.1

/-- What is not a step of the event loop leaves it where it is. -/
theorem Answered.frame (h : Answered s) (hloop : s'.loop = s.loop)
    (hexecuted : s'.executed = s.executed) : Answered s' := by
  refine ⟨?_, ?_⟩
  · rw [hloop]
    exact h.received
  · rw [hexecuted]
    exact h.executed

variable [DecidableEq τ]

/-- An action keeps every id in a place. -/
theorem Custody.exec (h : Custody s place) (hanswered : Answered s)
    (hwhole : resultsWhole s a) (hlive : s'.live.length < maxRequests)
    (hs : s.exec a = some s') : ∃ place, Custody s' place := by
  -- every effect moves at most one id from its place to the next
  cases System.exec_effect hs with
  | @noId t sync _ _ _ _ hidle hid =>
    exact ⟨place, h.go (by rw [hidle]; rfl) (inHand_afterCall s.calls sync) _⟩
  | numbered hidle hid =>
    rw [System.callRpcAsync, if_neg hid] at hlive
    exact ⟨_, (h.call hidle hid (by simpa using hlive)).2⟩
  | registered ht => exact ⟨_, h.register ht⟩
  | noClient ht => exact ⟨_, h.lose_of_no_client ht⟩
  | pushed ht hinit => exact ⟨_, h.push ht hinit⟩
  | notInitialized ht hinit => exact ⟨_, h.lose_of_not_initialized ht hinit⟩
  | @woken _ call ht =>
    exact ⟨place, h.go (by rw [ht]; rfl) (inHand_afterCall call false) s.calls⟩
  | written hqueue => exact ⟨_, (h.write hqueue _).2⟩
  | received hloop hanswers => exact ⟨_, (h.receive hloop hanswers).2⟩
  | readOther _ => cases hwhole
  | @executed answers res call hloop hslot =>
    cases answers with
    | none => exact absurd hloop (hanswered.received res)
    | some c =>
      -- the callback found is that of the call answered
      obtain ⟨hslot', hcustody⟩ := h.execute hloop
      obtain rfl : call = c := by simpa [hslot'] using hslot.symm
      exact ⟨_, hcustody⟩
  | deleted hloop hs =>
    -- the slot has not changed during `Exec`, although callbacks may call services
    obtain ⟨hslot, hcustody⟩ := h.delete hloop
    rw [System.deleteCallback, hslot] at hs
    obtain rfl := Option.some.inj hs
    exact ⟨_, hcustody⟩
  | cleared hloop => exact ⟨_, h.clear hloop⟩
  | recycled hloop => exact ⟨_, h.recycle hloop⟩
  | answered hs => exact ⟨place, h.answer hs⟩
  | connected | drained _ | readFailed =>
    exact ⟨place, h.accounts, h.bound, h.live, h.slots, h.threads, h.requests, h.loops⟩

/-- The event loop goes on handling results of the server only. -/
theorem Answered.exec (h : Answered s) (hcustody : Custody s place) (hwhole : resultsWhole s a)
    (hs : s.exec a = some s') : Answered s' := by
  cases System.exec_effect hs with
  | readOther _ => cases hwhole
  | @executed answers res call hloop hslot =>
    cases answers with
    | none => exact absurd hloop (h.received res)
    | some c =>
      -- the slot holds the callback of the call whose result was received
      have hslot' := (hcustody.execute hloop).1
      obtain rfl : call = c := by simpa [hslot'] using hslot.symm
      exact ⟨by simp, List.forall_mem_cons.mpr ⟨rfl, h.executed⟩⟩
  | deleted hloop hs =>
    rw [System.deleteCallback, (hcustody.delete hloop).1] at hs
    obtain rfl := Option.some.inj hs
    exact ⟨by simp, h.executed⟩
  | received _ _ | cleared _ | recycled _ =>
    exact ⟨by simp [System.clearSlot, System.recycle], h.executed⟩
  | answered hs =>
    obtain ⟨request, -, rfl⟩ := Option.map_eq_some_iff.mp hs
    exact h.frame rfl rfl
  | numbered _ _ => exact h.frame (by simp) (by simp)
  | registered _ | noClient _ => exact h.frame (by simp) (by simp)
  | pushed _ _ | notInitialized _ _ => exact h.frame (by simp) (by simp)
  | written _ => exact h.frame (by simp) (by simp)
  | noId _ _ | woken _ | connected | drained _ | readFailed => exact h.frame rfl rfl

/-- In every run in which at most 1023 ids are in use at once and results arrive whole, a
result executes the callback of the call it answers, and none is overwritten before. -/
theorem replies_matched {history : List (Transition (System τ) (Action τ))}
    (hrun : (clientSystem τ).Run resultsWhole history s)
    (hlive : ∀ x ∈ history, x.target.live.length ≤ 1023) : RepliesMatched s := by
  -- on the run, with the bound for all of its states
  have hinv : (∃ place, Custody s place) ∧ Answered s := by
    induction hrun with
    | init hs =>
      obtain rfl := hs
      exact ⟨⟨_, .init⟩, by simp [System.init], by simp [System.init]⟩
    | step hrun hwhole hs ih =>
      obtain ⟨hnow, hbefore⟩ := List.forall_mem_cons.mp hlive
      obtain ⟨⟨place, hcustody⟩, hanswered⟩ := ih hbefore
      have hlt : _ < maxRequests := Nat.lt_succ_of_le hnow
      exact ⟨hcustody.exec hanswered hwhole hlt hs, hanswered.exec hcustody hwhole hs⟩
  obtain ⟨⟨place, hcustody⟩, hanswered⟩ := hinv
  refine ⟨fun answers res hloop => ?_, fun t call sync client message ht => ?_,
    hanswered.executed⟩
  · cases answers with
    | none => exact absurd hloop (hanswered.received res)
    | some call => exact ⟨call, rfl, (hcustody.execute hloop).1⟩
  · -- a thread that has just got an id finds its slot empty
    have hplace := hcustody.numbered ht
    have hused : place (messageId message) ≠ .free := by simp [hplace]
    rw [hcustody.slotAt_eq hused, hplace]
    rfl

/-! ## A run -/

/-- A service with a client. -/
def echo : Service := ⟨[101], true⟩

/-- A thread calls the service, up to queueing its request. -/
def callEcho (t : Option τ) (sync : Bool) : List (Action τ) :=
  [.call t sync echo [7] (.bzero _) 0, .invoke t, .sendRequest t]

/-- The first request is written and answered, and the result read. -/
def answerFirst : List (Action τ) :=
  [.write .whole, .answer 0 (.bzero _), .read .answer, .exec]

/-- The event loop ends its handler. -/
def endHandler : List (Action τ) := [.delete, .null, .recycle]

/-- A thread calls the service and is told of the result. The callback calls the service
again, and a third call gets the id of the first. -/
def callAgain : List (Action ℕ) :=
  [.connect] ++ callEcho (some 0) true ++ answerFirst ++ callEcho none false ++ endHandler ++
    [.wake (some 0)] ++ callEcho (some 0) true ++ answerFirst ++ endHandler ++ answerFirst

/-- Three calls have got their results, and at most two ids were in use at once. -/
def threeAnswered (history : List (Transition (System ℕ) (Action ℕ))) (s : System ℕ) : Bool :=
  decide (s.executed.map Prod.fst = [2, 1, 0]) &&
    history.all fun x => decide (x.target.live.length ≤ 2)

theorem replies_matched_callAgain :
    ∃ s : System ℕ, s.executed.map Prod.fst = [2, 1, 0] ∧ RepliesMatched s := by
  have hreplay : (replay System.exec (fun _ a => a.readsWhole) [] System.init callAgain).any
      (fun r => threeAnswered r.1 r.2) = true := by decide +kernel
  obtain ⟨history, s, hrun, htest⟩ := exists_run_of_replay threeAnswered hreplay
  simp only [threeAnswered, Bool.and_eq_true, List.all_eq_true, decide_eq_true_eq] at htest
  refine ⟨s, htest.1, replies_matched (hrun.mono fun _ a ha => ?_) fun x hx => ?_⟩
  · exact ha
  · have := htest.2 x hx
    omega

end DreamboatRpc.Client
