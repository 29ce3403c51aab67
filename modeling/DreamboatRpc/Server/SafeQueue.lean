import Mathlib.Data.Nat.Notation
import DreamboatRpc.CS.Transition

/-!
# The task queue

`SafeQueue` is a queue of bounded size with one lock and one condition variable. Between two
calls that hold the lock anything may happen; a thread that waits has given the lock back, and
gets it again after `notify_one` picked it or without a reason. `Dequeue` does not look at the
queue again before it waits once more: it returns.

## Main definitions

* `SafeQueue` — the elements, and the threads that are in `c.wait`
* `SafeQueue.exec`, `SafeQueue.outcome` — what a call does while it holds the lock
* `SafeQueue.queueSystem` — the runs of any number of threads

## Main results

* `SafeQueue.exec_effect` — the ways through the code of a call
* `SafeQueue.bounded_fifo` — elements leave in the order they came in, the size is bounded, calls
  that fail change nothing, and nobody waits for an element that nobody was notified of
-/

namespace DreamboatRpc.Server

open CS TransitionSystem

/-- A queue that is used by threads `τ`: its elements, the threads that wait, those of them that
`notify_one` has picked, and those that woke up by themselves. The latter two have not got the
lock back yet. -/
structure SafeQueue (τ α : Type*) where
  q : List α
  waiting : List τ
  notified : List τ
  interrupted : List τ

namespace SafeQueue

variable {τ α : Type*}

/-- What happens: a call of `Enqueue`, in which `notify_one` picks `woken`; one of `Dequeue`, up
to its return or to `c.wait`; a thread wakes up without having been picked; or a thread that woke
up gets the lock and goes on to its return. -/
inductive Call (τ α : Type*)
  | enqueue (t : τ) (x : α) (woken : Option τ)
  | dequeue (t : τ) (block : Bool)
  | interrupt (t : τ)
  | resume (t : τ)

/-- How it ends: `Enqueue` returns true or false, `Dequeue` returns true with an element or false,
or a thread is in `c.wait`. -/
inductive Outcome (α : Type*)
  | accepted (x : α)
  | rejected
  | returned (x : α)
  | failed
  | waits
  deriving DecidableEq

/-- Nothing in the queue, and no thread in it. -/
def init : SafeQueue τ α := ⟨[], [], [], []⟩

section Calls

variable [DecidableEq τ] (maxsize : ℕ) (s : SafeQueue τ α)

/-- The thread is in no call. -/
def Outside (t : τ) : Prop := t ∉ s.waiting ∧ t ∉ s.notified ∧ t ∉ s.interrupted

instance (t : τ) : Decidable (s.Outside t) := inferInstanceAs (Decidable (_ ∧ _ ∧ _))

/-- The end of `Dequeue`, after `c.wait` or without it. -/
def front : Outcome α :=
  match s.q with
  | [] => .failed
  | x :: _ => .returned x

/-- How a call ends. -/
def outcome : Call τ α → Outcome α
  | .enqueue _ x _ => if maxsize ≤ s.q.length then .rejected else .accepted x
  | .dequeue _ block => if s.q.isEmpty && block then .waits else s.front
  | .interrupt _ => .waits
  | .resume _ => s.front

/-- The state after it; `none` if it cannot happen. -/
def exec : Call τ α → Option (SafeQueue τ α)
  | .enqueue t x woken =>
    if s.Outside t then
      if maxsize ≤ s.q.length then some s
      else
        match woken with
        -- only if nobody waits is nobody notified
        | none => if s.waiting = [] then some { s with q := s.q ++ [x] } else none
        | some u =>
          if u ∈ s.waiting then
            some { s with
              q := s.q ++ [x]
              waiting := s.waiting.erase u
              notified := u :: s.notified }
          else none
    else none
  | .dequeue t block =>
    if s.Outside t then
      if s.q.isEmpty && block then some { s with waiting := t :: s.waiting }
      else some { s with q := s.q.tail }
    else none
  | .interrupt t =>
    if t ∈ s.waiting then
      some { s with waiting := s.waiting.erase t, interrupted := t :: s.interrupted }
    else none
  | .resume t =>
    if t ∈ s.notified then some { s with q := s.q.tail, notified := s.notified.erase t }
    else if t ∈ s.interrupted then
      some { s with q := s.q.tail, interrupted := s.interrupted.erase t }
    else none

/-- The runs of a queue for at most `maxsize` elements. -/
def queueSystem : TransitionSystem (SafeQueue τ α) (Call τ α) := .ofExec init (exec maxsize)

end Calls

/-! ## Elements -/

/-- What a call with this outcome does to the elements. -/
def Outcome.Changes : Outcome α → List α → List α → Prop
  | .accepted x, q, q' => q' = q ++ [x]
  | .returned x, q, q' => q = x :: q'
  | .rejected, q, q' | .failed, q, q' | .waits, q, q' => q' = q

theorem front_changes (s : SafeQueue τ α) : s.front.Changes s.q s.q.tail := by
  rw [front]
  cases s.q <;> rfl

variable {maxsize : ℕ} {s t : SafeQueue τ α} {c : Call τ α}

variable [DecidableEq τ]

/-- What a call of this outcome can do: all that `exec` allows, one case for each way through the
code. -/
inductive Effect (maxsize : ℕ) (s : SafeQueue τ α) :
    Call τ α → Outcome α → SafeQueue τ α → Prop
  | rejected {u : τ} {x : α} {woken : Option τ} (hfull : maxsize ≤ s.q.length) :
      Effect maxsize s (.enqueue u x woken) .rejected s
  | added {u : τ} {x : α} (hroom : s.q.length < maxsize) (hnobody : s.waiting = []) :
      Effect maxsize s (.enqueue u x none) (.accepted x) { s with q := s.q ++ [x] }
  | notified {u v : τ} {x : α} (hroom : s.q.length < maxsize) (hv : v ∈ s.waiting) :
      Effect maxsize s (.enqueue u x (some v)) (.accepted x)
        { s with q := s.q ++ [x], waiting := s.waiting.erase v, notified := v :: s.notified }
  | waits {u : τ} (hempty : s.q = []) :
      Effect maxsize s (.dequeue u true) .waits { s with waiting := u :: s.waiting }
  | dequeued {u : τ} {block : Bool} (hgoes : s.q = [] → block = false) :
      Effect maxsize s (.dequeue u block) s.front { s with q := s.q.tail }
  | interrupted {u : τ} (hu : u ∈ s.waiting) :
      Effect maxsize s (.interrupt u) .waits
        { s with waiting := s.waiting.erase u, interrupted := u :: s.interrupted }
  | resumed {u : τ} (hu : u ∈ s.notified) :
      Effect maxsize s (.resume u) s.front
        { s with q := s.q.tail, notified := s.notified.erase u }
  | resumedItself {u : τ} (hu : u ∈ s.interrupted) :
      Effect maxsize s (.resume u) s.front
        { s with q := s.q.tail, interrupted := s.interrupted.erase u }

theorem exec_effect (h : exec maxsize s c = some t) :
    Effect maxsize s c (outcome maxsize s c) t := by
  cases c with
  | enqueue u x woken =>
    simp only [exec] at h
    split at h
    · rw [outcome]
      split at h
      · rename_i hfull
        cases h
        rw [if_pos hfull]
        exact .rejected hfull
      · rename_i hroom
        rw [if_neg hroom]
        split at h <;> split at h <;> cases h
        · rename_i hnobody
          exact .added (Nat.not_le.mp hroom) hnobody
        · rename_i hv
          exact .notified (Nat.not_le.mp hroom) hv
    · cases h
  | dequeue u block =>
    simp only [exec] at h
    split at h
    · rw [outcome]
      split at h
      · rename_i hwaits
        cases h
        rw [if_pos hwaits]
        rw [Bool.and_eq_true, List.isEmpty_iff] at hwaits
        obtain ⟨hempty, rfl⟩ := hwaits
        exact .waits hempty
      · rename_i hgoes
        cases h
        rw [if_neg hgoes]
        exact .dequeued fun hempty => by simpa [hempty] using hgoes
    · cases h
  | interrupt u =>
    simp only [exec] at h
    split at h
    · rename_i hu
      cases h
      exact .interrupted hu
    · cases h
  | resume u =>
    simp only [exec] at h
    split at h
    · rename_i hu
      cases h
      exact .resumed hu
    · split at h
      · rename_i hu
        cases h
        exact .resumedItself hu
      · cases h

/-- A call changes the elements as its outcome says. -/
theorem exec_changes (h : exec maxsize s c = some t) : (outcome maxsize s c).Changes s.q t.q := by
  have heffect := exec_effect h
  generalize outcome maxsize s c = o at heffect ⊢
  cases heffect with
  | rejected | added | notified | waits | interrupted => exact rfl
  | dequeued | resumed | resumedItself => exact s.front_changes

/-- An element is accepted only if there is room. -/
theorem room_of_accepted {x : α} (h : exec maxsize s c = some t)
    (haccepted : outcome maxsize s c = .accepted x) : s.q.length < maxsize := by
  have heffect := exec_effect h
  have hfront : s.front ≠ .accepted x := by
    rw [front]
    split <;> nofun
  generalize outcome maxsize s c = o at heffect haccepted
  cases heffect with
  | added hroom | notified hroom => exact hroom
  | rejected | waits | interrupted => cases haccepted
  | dequeued | resumed | resumedItself => exact absurd haccepted hfront

/-! ## Threads that wait -/

/-- While a thread waits, there are no more elements than threads that were notified of one. -/
def Covered (s : SafeQueue τ α) : Prop := s.waiting ≠ [] → s.q.length ≤ s.notified.length

theorem Covered.exec (h : s.Covered) (hexec : exec maxsize s c = some t) : t.Covered := by
  have htail : s.waiting ≠ [] → s.q.tail.length ≤ s.notified.length := by
    intro hwaiting
    have hcovered := h hwaiting
    rw [List.length_tail]
    omega
  have heffect := exec_effect hexec
  generalize outcome maxsize s c = o at heffect
  cases heffect with
  | rejected => exact h
  | added _ hnobody => exact fun hwaiting => absurd hnobody hwaiting
  | notified _ hv =>
    -- the element that came has a thread that was notified of it
    have hcovered := h (List.ne_nil_of_mem hv)
    intro _
    simpa using hcovered
  | waits hempty =>
    intro _
    simp [hempty]
  | dequeued => exact htail
  | interrupted hu => exact fun _ => h (List.ne_nil_of_mem hu)
  | resumed hu =>
    intro hwaiting
    have hcovered := h hwaiting
    simp only [List.length_tail, List.length_erase_of_mem hu]
    omega
  | resumedItself => exact htail

/-- A call that fails leaves the elements and the threads that wait, and all else unless it
waited before. -/
theorem exec_of_failed (h : exec maxsize s c = some t)
    (hfailed : outcome maxsize s c = .rejected ∨ outcome maxsize s c = .failed) :
    t.q = s.q ∧ t.waiting = s.waiting ∧ ((∀ u, c ≠ .resume u) → t = s) := by
  have hsame : t.q = s.q := by
    have hchanges := exec_changes h
    rcases hfailed with hrejected | hfailed
    · rwa [hrejected] at hchanges
    · rwa [hfailed] at hchanges
  refine ⟨hsame, ?_⟩
  have heffect := exec_effect h
  generalize outcome maxsize s c = o at heffect hfailed
  cases heffect with
  | rejected => exact ⟨rfl, fun _ => rfl⟩
  | added | notified | waits | interrupted => exact absurd hfailed (by simp)
  | dequeued => exact ⟨rfl, fun _ => by rw [show s.q.tail = s.q from hsame]⟩
  | resumed => exact ⟨rfl, fun hother => absurd rfl (hother _)⟩
  | resumedItself => exact ⟨rfl, fun hother => absurd rfl (hother _)⟩

/-! ## Runs -/

section Runs

variable (maxsize)

/-- The element that a call accepted. -/
def elementAccepted (x : Transition (SafeQueue τ α) (Call τ α)) : Option α :=
  match outcome maxsize x.source x.event with
  | .accepted a => some a
  | _ => none

/-- The element that a call returned. -/
def elementReturned (x : Transition (SafeQueue τ α) (Call τ α)) : Option α :=
  match outcome maxsize x.source x.event with
  | .returned a => some a
  | _ => none

/-- The elements that were accepted, in order. -/
def accepted (history : List (Transition (SafeQueue τ α) (Call τ α))) : List α :=
  history.reverse.filterMap (elementAccepted maxsize)

/-- The elements that successful calls of `Dequeue` returned, in order. -/
def returned (history : List (Transition (SafeQueue τ α) (Call τ α))) : List α :=
  history.reverse.filterMap (elementReturned maxsize)

end Runs

variable {history : List (Transition (SafeQueue τ α) (Call τ α))}

/-- What holds after every call. -/
structure Bounded (maxsize : ℕ) (history : List (Transition (SafeQueue τ α) (Call τ α)))
    (s : SafeQueue τ α) : Prop where
  fifo : returned maxsize history ++ s.q = accepted maxsize history
  bounded : s.q.length ≤ maxsize
  covered : s.Covered

theorem Bounded.exec (h : Bounded maxsize history s) (hexec : SafeQueue.exec maxsize s c = some t) :
    Bounded maxsize (⟨s, c, t⟩ :: history) t := by
  have hchanges := exec_changes hexec
  obtain ⟨hfifo, hbounded, hcovered⟩ := h
  refine ⟨?_, ?_, hcovered.exec hexec⟩
  · simp only [returned, accepted, List.reverse_cons, List.filterMap_append] at hfifo ⊢
    rw [← hfifo]
    cases houtcome : outcome maxsize s c with
    | accepted x =>
      rw [houtcome] at hchanges
      have hq : t.q = s.q ++ [x] := hchanges
      simp [elementAccepted, elementReturned, houtcome, hq]
    | returned x =>
      rw [houtcome] at hchanges
      have hq : s.q = x :: t.q := hchanges
      simp [elementAccepted, elementReturned, houtcome, hq]
    | rejected | failed | waits =>
      rw [houtcome] at hchanges
      have hq : t.q = s.q := hchanges
      simp [elementAccepted, elementReturned, houtcome, hq]
  · cases houtcome : outcome maxsize s c with
    | accepted x =>
      rw [houtcome] at hchanges
      have hq : t.q = s.q ++ [x] := hchanges
      have hroom := room_of_accepted hexec houtcome
      rw [hq, List.length_append]
      exact hroom
    | returned x =>
      rw [houtcome] at hchanges
      have hq : s.q = x :: t.q := hchanges
      rw [hq, List.length_cons] at hbounded
      omega
    | rejected | failed | waits =>
      rw [houtcome] at hchanges
      have hq : t.q = s.q := hchanges
      rwa [hq]

/-- In every run of any number of threads: the elements that were returned and those in the queue
are the elements that were accepted, in order; there are never more than `maxsize`; a call that
fails changes none of them; and while a thread waits there are no more than threads that were
notified and are still to go on. -/
theorem bounded_fifo (maxsize : ℕ)
    (hrun : (queueSystem maxsize).Run unguarded history s) :
    returned maxsize history ++ s.q = accepted maxsize history ∧ s.q.length ≤ maxsize ∧
      (s.waiting ≠ [] → s.q.length ≤ s.notified.length) ∧
      ∀ x ∈ history, outcome maxsize x.source x.event = .rejected ∨
          outcome maxsize x.source x.event = .failed →
        x.target.q = x.source.q ∧ x.target.waiting = x.source.waiting ∧
          ((∀ u, x.event ≠ .resume u) → x.target = x.source) := by
  have hbounded : Bounded maxsize history s := by
    refine hrun.invariant ?_ ?_
    · rintro _ rfl
      exact ⟨rfl, Nat.zero_le _, fun hwaiting => absurd rfl hwaiting⟩
    · intro _ _ _ _ h _ hstep
      exact h.exec hstep
  exact ⟨hbounded.fifo, hbounded.bounded, hbounded.covered,
    fun x hx hfailed => exec_of_failed (hrun.of_mem hx).2.2 hfailed⟩

/-- Threads 0 and 1 wait, thread 2 adds an element and notifies thread 0, thread 3 takes the
element first, thread 1 wakes up by itself, and both return without an element. -/
def stolen : List (Call ℕ ℕ) :=
  [.dequeue 0 true, .dequeue 1 true, .enqueue 2 7 (some 0), .dequeue 3 false, .interrupt 1,
    .resume 0, .resume 1]

theorem bounded_fifo_stolen : ∃ (history : List (Transition (SafeQueue ℕ ℕ) (Call ℕ ℕ)))
    (s : SafeQueue ℕ ℕ), (queueSystem 1).Run unguarded history s ∧
      returned 1 history ++ s.q = [7] ∧ accepted 1 history = [7] := by
  have hreplay : (replay (exec 1) (fun _ _ => true) [] init stolen).any
      (fun r => decide (accepted 1 r.1 = [7])) = true := by decide
  obtain ⟨history, s, hrun, htest⟩ :=
    exists_run_of_replay (fun history _ => decide (accepted 1 history = [7])) hreplay
  have hrun' : (queueSystem 1).Run unguarded history s := hrun.mono fun _ _ _ => trivial
  have haccepted := of_decide_eq_true htest
  exact ⟨history, s, hrun', (bounded_fifo 1 hrun').1.trans haccepted, haccepted⟩

end SafeQueue

end DreamboatRpc.Server
