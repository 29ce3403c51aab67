import Mathlib.Data.List.Nodup
import Mathlib.Logic.Function.Basic
import DreamboatRpc.Server.SafeQueue

/-!
# The thread pool

Every worker looks at `m_stop`, takes a task from the queue, waiting for one if there is none,
and runs it, over and over. `Stop` sets `m_stop` and wakes nobody up, and a worker looks at it
only between two tasks.

## Main definitions

* `WorkerPoint` — where a worker is in `Run`
* `ThreadPool.exec`, `threadPoolSystem` — workers, callers of `AddTask`, and `Stop`
* `WorkerPoint.credit` — the tasks a worker may begin although the pool was stopped

## Main results

* `Parked.exec` — a thread that the queue knows is a worker in `c.wait`, and known once
* `stopped_pool` — after `Stop` every worker begins one task at most, and one that waits for a
  task never ends unless something is added or wakes it up
-/

namespace DreamboatRpc.Server

open CS TransitionSystem

/-- Where a worker is in `Run`: before the test of the loop; before it gets the lock of the
queue; in `c.wait`; in a task; or after the loop. -/
inductive WorkerPoint (α : Type*)
  | testing
  | dequeuing
  | waiting
  | running (task : α)
  | ended

/-- The threads that use the queue. -/
inductive PoolThread (ω γ : Type*)
  | worker (w : ω)
  | caller (g : γ)
  deriving DecidableEq

/-- A pool with workers `ω`, used by callers `γ`. -/
structure ThreadPool (ω γ α : Type*) where
  tasks : SafeQueue (PoolThread ω γ) α
  stop : Bool
  workers : ω → WorkerPoint α

/-- What can happen: a call of `AddTask`, in which `notify_one` picks `woken`; `Stop`; or a step
of a worker. -/
inductive PoolAction (ω γ α : Type*)
  | addTask (g : γ) (task : α) (woken : Option (PoolThread ω γ))
  | stop
  | test (w : ω)
  | dequeue (w : ω)
  | interrupt (w : ω)
  | resume (w : ω)
  | finish (w : ω)

/-- How the worker goes on when `Dequeue` is left. -/
def afterDequeue {α : Type*} : SafeQueue.Outcome α → WorkerPoint α
  | .returned task => .running task
  | .waits => .waiting
  | .accepted _ | .rejected | .failed => .testing

namespace ThreadPool

variable {ω γ α : Type*}

/-- The constructor. -/
def init : ThreadPool ω γ α := ⟨.init, false, fun _ => .testing⟩

variable [DecidableEq ω] [DecidableEq γ] (maxsize : ℕ) (s : ThreadPool ω γ α)

/-- A worker is in a call of the queue. -/
def call (w : ω) (c : SafeQueue.Call (PoolThread ω γ) α) : Option (ThreadPool ω γ α) :=
  (s.tasks.exec maxsize c).map fun tasks =>
    { s with
      tasks := tasks
      workers := Function.update s.workers w (afterDequeue (s.tasks.outcome maxsize c)) }

/-- The state after an action; `none` if it cannot happen. -/
def exec : PoolAction ω γ α → Option (ThreadPool ω γ α)
  | .addTask g task woken =>
    (s.tasks.exec maxsize (.enqueue (.caller g) task woken)).map fun tasks =>
      { s with tasks := tasks }
  | .stop => some { s with stop := true }
  | .test w =>
    match s.workers w with
    | .testing =>
      some { s with
        workers := Function.update s.workers w (if s.stop then .ended else .dequeuing) }
    | _ => none
  | .dequeue w =>
    match s.workers w with
    | .dequeuing => s.call maxsize w (.dequeue (.worker w) true)
    | _ => none
  | .interrupt w =>
    match s.workers w with
    | .waiting => s.call maxsize w (.interrupt (.worker w))
    | _ => none
  | .resume w =>
    match s.workers w with
    | .waiting => s.call maxsize w (.resume (.worker w))
    | _ => none
  | .finish w =>
    match s.workers w with
    | .running _ => some { s with workers := Function.update s.workers w .testing }
    | _ => none

/-- Every worker has left the loop, so that `Join` returns. -/
def Joined : Prop := ∀ w, s.workers w = .ended

end ThreadPool

/-- The runs of a pool whose queue holds `maxsize` tasks. -/
def threadPoolSystem (ω γ α : Type*) [DecidableEq ω] [DecidableEq γ] (maxsize : ℕ) :
    TransitionSystem (ThreadPool ω γ α) (PoolAction ω γ α) :=
  .ofExec .init (ThreadPool.exec maxsize)

variable {ω γ α : Type*} {maxsize : ℕ} {s s' : ThreadPool ω γ α} {a : PoolAction ω γ α} {w : ω}

/-! ## Threads in the queue -/

/-- The threads that the queue has not let go. -/
def SafeQueue.inside {τ : Type*} (tasks : SafeQueue τ α) : List τ :=
  tasks.waiting ++ (tasks.notified ++ tasks.interrupted)

/-- The queue knows a thread once, and if it is a worker, the worker waits. -/
structure Parked (s : ThreadPool ω γ α) : Prop where
  nodup : s.tasks.inside.Nodup
  waiting : ∀ w, .worker w ∈ s.tasks.inside → s.workers w = .waiting

namespace Parked

theorem init : Parked (ThreadPool.init : ThreadPool ω γ α) where
  nodup := List.nodup_nil
  waiting _ h := by cases h

/-- The queue knows the same threads as before. -/
theorem perm (h : Parked s) {tasks : SafeQueue (PoolThread ω γ) α}
    (hperm : tasks.inside.Perm s.tasks.inside) : Parked { s with tasks := tasks } where
  nodup := hperm.nodup_iff.mpr h.nodup
  waiting w hw := h.waiting w (hperm.mem_iff.mp hw)

variable [DecidableEq ω]

/-- A worker that is not in the queue goes on. -/
theorem go (h : Parked s) (hw : s.workers w ≠ .waiting) (stop : Bool) (point : WorkerPoint α) :
    Parked { s with stop := stop, workers := Function.update s.workers w point } where
  nodup := h.nodup
  waiting v hv := by
    have hne : v ≠ w := by
      rintro rfl
      exact hw (h.waiting v hv)
    dsimp only
    rw [Function.update_of_ne hne]
    exact h.waiting v hv

/-- A worker that gets the lock of the queue lets go of the queue, or waits. -/
theorem leave (h : Parked s) {tasks : SafeQueue (PoolThread ω γ) α} {point : WorkerPoint α}
    (hinside : tasks.inside.Sublist s.tasks.inside) (hgone : .worker w ∉ tasks.inside) :
    Parked { s with tasks := tasks, workers := Function.update s.workers w point } where
  nodup := hinside.nodup h.nodup
  waiting v hv := by
    have hne : v ≠ w := by
      rintro rfl
      exact hgone hv
    dsimp only
    rw [Function.update_of_ne hne]
    exact h.waiting v (hinside.subset hv)

variable [DecidableEq γ]

theorem exec (h : Parked s) (hs : s.exec maxsize a = some s') : Parked s' := by
  cases a with
  | addTask g task woken =>
    obtain ⟨tasks, htasks, rfl⟩ := Option.map_eq_some_iff.mp hs
    apply h.perm
    have heffect := SafeQueue.exec_effect htasks
    generalize SafeQueue.outcome maxsize s.tasks _ = o at heffect
    cases heffect with
    | rejected | added => exact .refl _
    | @notified _ v _ _ hv =>
      -- the thread that is picked moves from one list to the next
      have hpicked := (List.perm_cons_erase hv).append_right (s.tasks.notified ++
        s.tasks.interrupted)
      exact List.perm_middle.trans hpicked.symm
  | stop =>
    cases hs
    exact ⟨h.nodup, h.waiting⟩
  | test w =>
    simp only [ThreadPool.exec] at hs
    split at hs
    · rename_i hw
      cases hs
      exact h.go (by simp [hw]) s.stop _
    · cases hs
  | dequeue w =>
    simp only [ThreadPool.exec] at hs
    split at hs
    · rename_i hw
      obtain ⟨tasks, htasks, rfl⟩ := Option.map_eq_some_iff.mp hs
      have hout : .worker w ∉ s.tasks.inside := by
        intro hmem
        rw [h.waiting w hmem] at hw
        cases hw
      have heffect := SafeQueue.exec_effect htasks
      generalize SafeQueue.outcome maxsize s.tasks _ = o at heffect ⊢
      cases heffect with
      | waits hempty =>
        refine ⟨List.nodup_cons.mpr ⟨hout, h.nodup⟩, fun v hv => ?_⟩
        dsimp only
        rcases eq_or_ne v w with rfl | hne
        · rw [Function.update_self]
          rfl
        · rw [Function.update_of_ne hne]
          refine h.waiting v ((List.mem_cons.mp hv).resolve_left ?_)
          simpa using hne
      | dequeued hgoes => exact h.leave (List.Sublist.refl _) hout
    · cases hs
  | interrupt w =>
    simp only [ThreadPool.exec] at hs
    split at hs
    · rename_i hw
      obtain ⟨tasks, htasks, rfl⟩ := Option.map_eq_some_iff.mp hs
      have heffect := SafeQueue.exec_effect htasks
      generalize SafeQueue.outcome maxsize s.tasks _ = o at heffect ⊢
      cases heffect with
      | interrupted hmem =>
        have hpicked := (List.perm_cons_erase hmem).append_right (s.tasks.notified ++
          s.tasks.interrupted)
        have hperm : (SafeQueue.inside ⟨s.tasks.q, s.tasks.waiting.erase (.worker w),
            s.tasks.notified, .worker w :: s.tasks.interrupted⟩).Perm s.tasks.inside := by
          refine List.Perm.trans ?_ hpicked.symm
          exact (List.perm_middle.append_left _).trans List.perm_middle
        have hsame : Function.update s.workers w .waiting = s.workers := by
          rw [← hw, Function.update_eq_self]
        rw [afterDequeue, hsame]
        exact h.perm hperm
    · cases hs
  | resume w =>
    simp only [ThreadPool.exec] at hs
    split at hs
    · rename_i hw
      obtain ⟨tasks, htasks, rfl⟩ := Option.map_eq_some_iff.mp hs
      have hnodup := h.nodup
      rw [SafeQueue.inside, List.nodup_append, List.nodup_append] at hnodup
      obtain ⟨hwaiting, ⟨hnotified, hinterrupted, hdistinct⟩, hapart⟩ := hnodup
      have heffect := SafeQueue.exec_effect htasks
      generalize SafeQueue.outcome maxsize s.tasks _ = o at heffect ⊢
      cases heffect with
      | resumed hmem =>
        refine h.leave ((List.Sublist.refl _).append (List.erase_sublist.append
          (List.Sublist.refl _))) ?_
        rw [SafeQueue.inside, List.mem_append, List.mem_append, hnotified.mem_erase_iff]
        rintro (hin | hin | hin)
        · exact hapart _ hin _ (List.mem_append_left _ hmem) rfl
        · exact hin.1 rfl
        · exact hdistinct _ hmem _ hin rfl
      | resumedItself hmem =>
        refine h.leave ((List.Sublist.refl _).append ((List.Sublist.refl _).append
          List.erase_sublist)) ?_
        rw [SafeQueue.inside, List.mem_append, List.mem_append, hinterrupted.mem_erase_iff]
        rintro (hin | hin | hin)
        · exact hapart _ hin _ (List.mem_append_right _ hmem) rfl
        · exact hdistinct _ hin _ hmem rfl
        · exact hin.1 rfl
    · cases hs
  | finish w =>
    simp only [ThreadPool.exec] at hs
    split at hs
    · rename_i task hw
      cases hs
      exact h.go (by simp [hw]) s.stop _
    · cases hs

end Parked

/-! ## After `Stop` -/

/-- The tasks a worker may begin although the pool was stopped. -/
def WorkerPoint.credit : WorkerPoint α → ℕ
  | dequeuing | waiting => 1
  | testing | running _ | ended => 0

/-- Whether a worker is in a task. -/
def WorkerPoint.isRunning : WorkerPoint α → Bool
  | running _ => true
  | _ => false

/-- Whether the worker begins a task in this step. -/
def beginsTask [DecidableEq ω] (w : ω)
    (x : Transition (ThreadPool ω γ α) (PoolAction ω γ α)) : Bool :=
  match x.event with
  | .dequeue v | .resume v => decide (v = w) && (x.target.workers w).isRunning
  | _ => false

/-- Whether the action may end a wait: a task is added, or the system wakes a worker up. -/
def PoolAction.wakes : PoolAction ω γ α → Bool
  | addTask _ _ _ | interrupt _ => true
  | _ => false

/-- A worker waits, and nothing has woken it up. -/
structure Blocked (w : ω) (s : ThreadPool ω γ α) : Prop where
  waiting : .worker w ∈ s.tasks.waiting
  notified : .worker w ∉ s.tasks.notified
  interrupted : .worker w ∉ s.tasks.interrupted
  point : s.workers w = .waiting

section Stopped

/-- A worker that the queue knows as waiting is blocked. -/
theorem Parked.blocked (h : Parked s) (hw : .worker w ∈ s.tasks.waiting) : Blocked w s := by
  have hnodup := h.nodup
  rw [SafeQueue.inside, List.nodup_append] at hnodup
  obtain ⟨-, -, hapart⟩ := hnodup
  exact ⟨hw, fun hin => hapart _ hw _ (List.mem_append_left _ hin) rfl,
    fun hin => hapart _ hw _ (List.mem_append_right _ hin) rfl,
    h.waiting w (List.mem_append_left _ hw)⟩

variable [DecidableEq ω] [DecidableEq γ]

omit [DecidableEq γ] in
/-- A step of another worker leaves it blocked. -/
theorem Blocked.other (h : Blocked w s) {v : ω} (hv : s.workers v ≠ .waiting)
    {tasks : SafeQueue (PoolThread ω γ) α} (stop : Bool) (point : WorkerPoint α)
    (hwaiting : s.tasks.waiting ⊆ tasks.waiting) (hnotified : tasks.notified = s.tasks.notified)
    (hinterrupted : tasks.interrupted = s.tasks.interrupted) :
    Blocked w ⟨tasks, stop, Function.update s.workers v point⟩ where
  waiting := hwaiting h.waiting
  notified := by
    rw [hnotified]
    exact h.notified
  interrupted := by
    rw [hinterrupted]
    exact h.interrupted
  point := by
    have hne : w ≠ v := by
      rintro rfl
      exact hv h.point
    dsimp only
    rw [Function.update_of_ne hne]
    exact h.point

theorem Blocked.exec (h : Blocked w s) (hwakes : a.wakes = false)
    (hs : s.exec maxsize a = some s') : Blocked w s' := by
  cases a with
  | addTask g task woken => cases hwakes
  | interrupt v => cases hwakes
  | stop =>
    cases hs
    exact ⟨h.waiting, h.notified, h.interrupted, h.point⟩
  | test v =>
    simp only [ThreadPool.exec] at hs
    split at hs
    · rename_i hv
      cases hs
      exact h.other (by simp [hv]) _ _ (List.Subset.refl _) rfl rfl
    · cases hs
  | finish v =>
    simp only [ThreadPool.exec] at hs
    split at hs
    · rename_i task hv
      cases hs
      exact h.other (by simp [hv]) _ _ (List.Subset.refl _) rfl rfl
    · cases hs
  | dequeue v =>
    simp only [ThreadPool.exec] at hs
    split at hs
    · rename_i hv
      obtain ⟨tasks, htasks, rfl⟩ := Option.map_eq_some_iff.mp hs
      have heffect := SafeQueue.exec_effect htasks
      generalize SafeQueue.outcome maxsize s.tasks _ = o at heffect ⊢
      cases heffect with
      | waits hempty => exact h.other (by simp [hv]) _ _ (List.subset_cons_self _ _) rfl rfl
      | dequeued hgoes => exact h.other (by simp [hv]) _ _ (List.Subset.refl _) rfl rfl
    · cases hs
  | resume v =>
    simp only [ThreadPool.exec] at hs
    split at hs
    · obtain ⟨tasks, htasks, rfl⟩ := Option.map_eq_some_iff.mp hs
      -- only a thread that was picked, or that woke up, gets the lock back
      have hne : w ≠ v := by
        rintro rfl
        simp only [SafeQueue.exec, if_neg h.notified, if_neg h.interrupted] at htasks
        cases htasks
      have hpoint : Function.update s.workers v
          (afterDequeue (SafeQueue.outcome maxsize s.tasks (.resume (.worker v)))) w =
            .waiting := by
        rw [Function.update_of_ne hne]
        exact h.point
      have heffect := SafeQueue.exec_effect htasks
      generalize SafeQueue.outcome maxsize s.tasks _ = o at heffect hpoint ⊢
      cases heffect with
      | resumed hmem =>
        exact ⟨h.waiting, fun hin => h.notified (List.mem_of_mem_erase hin), h.interrupted, hpoint⟩
      | resumedItself hmem =>
        exact ⟨h.waiting, h.notified, fun hin => h.interrupted (List.mem_of_mem_erase hin), hpoint⟩
    · cases hs

theorem WorkerPoint.credit_add_le (point : WorkerPoint α) :
    point.credit + (if point.isRunning then 1 else 0) ≤ 1 := by
  cases point <;> simp [credit, isRunning]

/-- A worker in a call of the queue spends its credit if it begins a task. -/
theorem credit_call {v : ω} {c : SafeQueue.Call (PoolThread ω γ) α} {b : Bool}
    (hs : s.call maxsize v c = some s') (hv : (s.workers v).credit = 1)
    (hb : b = true → v = w ∧ (s'.workers w).isRunning) :
    s'.stop = s.stop ∧ (s'.workers w).credit + (if b then 1 else 0) ≤ (s.workers w).credit := by
  obtain ⟨tasks, -, rfl⟩ := Option.map_eq_some_iff.mp hs
  refine ⟨rfl, ?_⟩
  dsimp only at hb ⊢
  rcases eq_or_ne w v with rfl | hne
  · rw [Function.update_self] at hb ⊢
    rw [hv]
    have hspent := (afterDequeue (s.tasks.outcome maxsize c)).credit_add_le
    cases b with
    | false => exact Nat.le_trans (Nat.add_le_add_left (Nat.zero_le _) _) hspent
    | true => rwa [(hb rfl).2] at hspent
  · have hfalse : b = false := by
      rw [← Bool.not_eq_true]
      exact fun htrue => hne (hb htrue).1.symm
    rw [Function.update_of_ne hne, hfalse]
    exact Nat.le_refl _

omit [DecidableEq γ] in
/-- A worker that leaves the test of the loop or a task gets no credit. -/
theorem credit_update {v : ω} {point : WorkerPoint α} (hpoint : point.credit = 0) :
    (Function.update s.workers v point w).credit ≤ (s.workers w).credit := by
  rcases eq_or_ne w v with rfl | hne
  · rw [Function.update_self, hpoint]
    exact Nat.zero_le _
  · exact Nat.le_of_eq (congrArg WorkerPoint.credit (Function.update_of_ne hne _ _))

/-- Once the pool is stopped, a worker spends its credit on the task it begins, and gets no
new one. -/
theorem credit_exec (hstop : s.stop = true) (hs : s.exec maxsize a = some s') :
    s'.stop = true ∧ (s'.workers w).credit + (if beginsTask w ⟨s, a, s'⟩ then 1 else 0) ≤
      (s.workers w).credit := by
  cases a with
  | addTask g task woken =>
    obtain ⟨tasks, -, rfl⟩ := Option.map_eq_some_iff.mp hs
    exact ⟨hstop, Nat.le_refl _⟩
  | stop =>
    cases hs
    exact ⟨rfl, Nat.le_refl _⟩
  | test v =>
    simp only [ThreadPool.exec] at hs
    split at hs
    · cases hs
      refine ⟨hstop, ?_⟩
      rw [if_pos hstop]
      exact credit_update rfl
    · cases hs
  | finish v =>
    simp only [ThreadPool.exec] at hs
    split at hs
    · cases hs
      exact ⟨hstop, credit_update rfl⟩
    · cases hs
  | dequeue v =>
    simp only [ThreadPool.exec] at hs
    split at hs
    · rename_i hv
      obtain ⟨hsame, hcredit⟩ := credit_call (w := w) (b := beginsTask w ⟨s, .dequeue v, s'⟩) hs
        (by rw [hv]; rfl) fun hb => by simpa [beginsTask] using hb
      exact ⟨hsame.trans hstop, hcredit⟩
    · cases hs
  | interrupt v =>
    simp only [ThreadPool.exec] at hs
    split at hs
    · rename_i hv
      obtain ⟨hsame, hcredit⟩ := credit_call (w := w) (b := false) hs (by rw [hv]; rfl)
        fun hb => by cases hb
      exact ⟨hsame.trans hstop, hcredit⟩
    · cases hs
  | resume v =>
    simp only [ThreadPool.exec] at hs
    split at hs
    · rename_i hv
      obtain ⟨hsame, hcredit⟩ := credit_call (w := w) (b := beginsTask w ⟨s, .resume v, s'⟩) hs
        (by rw [hv]; rfl) fun hb => by simpa [beginsTask] using hb
      exact ⟨hsame.trans hstop, hcredit⟩
    · cases hs

/-- In every run, after `Stop` each worker begins at most one more task, whatever is still in the
queue; and a worker that waited for a task when `Stop` was called waits on, so that `Join` does
not return, unless a task is added or the system wakes it up. -/
theorem stopped_pool {later earlier : List (Transition (ThreadPool ω γ α) (PoolAction ω γ α))}
    {x : Transition (ThreadPool ω γ α) (PoolAction ω γ α)}
    (hrun : (threadPoolSystem ω γ α maxsize).Run unguarded (later ++ x :: earlier) s)
    (hx : x.event = .stop) (w : ω) :
    later.countP (beginsTask w) ≤ 1 ∧
      (.worker w ∈ x.source.tasks.waiting → (∀ y ∈ later, y.event.wakes = false) →
        .worker w ∈ s.tasks.waiting ∧ ¬ s.Joined) := by
  obtain ⟨hreach, -, hstep⟩ := hrun.of_mem (x := x) (by simp)
  have hstopped : x.target = { x.source with stop := true } := by
    rw [hx] at hstep
    exact (Option.some.inj hstep).symm
  constructor
  · have hcount := hrun.countP_add_le (I := fun s => s.stop = true)
      (f := fun s => (s.workers w).credit) (P := beginsTask w) (by rw [hstopped])
      (fun s a t h _ hs => (credit_exec (w := w) h hs).1)
      fun s a t h hs => (credit_exec h hs).2
    have hcredit := (x.target.workers w).credit_add_le
    omega
  · intro hwaiting hwakes
    have hparked : Parked x.source := hreach.invariant
      (by rintro _ rfl; exact .init) fun s a t h _ hs => h.exec hs
    have hblocked : Blocked w x.target := by
      rw [hstopped]
      obtain ⟨hin, hnotified, hinterrupted, hpoint⟩ := hparked.blocked hwaiting
      exact ⟨hin, hnotified, hinterrupted, hpoint⟩
    have hend : Blocked w s := by
      induction later generalizing s with
      | nil =>
        obtain rfl := hrun.target_eq
        exact hblocked
      | cons y later ih =>
        obtain ⟨hlast, hbefore⟩ := List.forall_mem_cons.mp hwakes
        cases hrun with
        | step hrun _ hs => exact (ih hrun hbefore).exec hlast hs
    refine ⟨hend.waiting, fun hjoined => ?_⟩
    have hended := hjoined w
    rw [hend.point] at hended
    cases hended

end Stopped

/-- Worker 0 waits for a task; worker 1 is about to ask for one when the pool is stopped, and
waits as well. -/
def stopsWaiting : List (PoolAction ℕ ℕ ℕ) :=
  [.test 0, .dequeue 0, .test 1, .stop, .dequeue 1]

/-- The step before the last is `Stop`, with worker 0 waiting. -/
def stoppedWaiting (history : List (Transition (ThreadPool ℕ ℕ ℕ) (PoolAction ℕ ℕ ℕ))) : Bool :=
  match history with
  | ⟨_, .dequeue 1, _⟩ :: ⟨s, .stop, _⟩ :: _ => decide (.worker 0 ∈ s.tasks.waiting)
  | _ => false

theorem stopped_pool_stopsWaiting : ∃ s : ThreadPool ℕ ℕ ℕ,
    (threadPoolSystem ℕ ℕ ℕ 10000).Reachable unguarded s ∧ s.stop = true ∧ ¬ s.Joined := by
  have hreplay : (replay (ThreadPool.exec 10000) (fun _ _ => true) [] ThreadPool.init
      stopsWaiting).any (fun r => stoppedWaiting r.1 && r.2.stop) = true := by decide
  obtain ⟨history, s, hrun, htest⟩ :=
    exists_run_of_replay (fun history (s : ThreadPool ℕ ℕ ℕ) => stoppedWaiting history && s.stop)
      hreplay
  obtain ⟨hwaiting, hstop⟩ := (Bool.and_eq_true _ _).mp htest
  have hrun' : (threadPoolSystem ℕ ℕ ℕ 10000).Run unguarded history s :=
    hrun.mono fun _ _ _ => trivial
  unfold stoppedWaiting at hwaiting
  split at hwaiting
  · rename_i source target before after rest
    have hsplit : (threadPoolSystem ℕ ℕ ℕ 10000).Run unguarded
        ([⟨source, .dequeue 1, target⟩] ++ ⟨before, .stop, after⟩ :: rest) s := hrun'
    obtain ⟨-, hstopped⟩ := stopped_pool hsplit rfl 0
    have hnotJoined := (hstopped (of_decide_eq_true hwaiting) (by simp [PoolAction.wakes])).2
    exact ⟨s, ⟨_, hrun'⟩, hstop, hnotJoined⟩
  · cases hwaiting

end DreamboatRpc.Server
