import DreamboatRpc.CS.PriorityQueue
import DreamboatRpc.CS.Transition
import Mathlib.Algebra.Order.Ring.Int

/-!
# The timer

`Tick` executes the task at the top of a priority queue, for as long as that has expired, and
pops the queue after each execution. A task that adds others while it runs changes the queue
between the two, so what is popped need not be what was executed.

## Main definitions

* `TimerTask`, `Timer` — a task, and the timer with what has happened so far
* `timerSystem` — calls of `AddTimer` and of `Tick`, and the tasks that run in them
* `Timer.Correct` — tasks run once, in time and in order, and `Tick` leaves none behind
* `AddsLater` — a running task adds no task that expires before it

## Main results

* `Timer.Inv.exec`, `Timer.Spoiled.exec` — what a step preserves
* `timer_correct_iff` — the timer is correct if and only if running tasks add later ones
* `earlier_task_repeats` — a task that is executed twice
-/

namespace DreamboatRpc.Common

open CS

/-- A task: which call of `AddTimer` it is from, and `Expire`. -/
structure TimerTask where
  id : ℕ
  expire : ℤ
  deriving DecidableEq

/-- Where the timer is: outside `Tick`, where the call that has just returned may have read the
clock; at the head of its loop, where it may have read it before; or in a task. -/
inductive Phase
  | idle
  | returned (read : Option ℤ)
  | looping (read : Option ℤ)
  | running (task : TimerTask) (read : ℤ)
  deriving DecidableEq

/-- `timers`, and what has happened so far: the tasks that were added, those that were started
with the time of the clock then, and, of the last `Tick`, those that waited when it began and
those it started. The latest come first. -/
structure Timer (Q : PriorityQueue TimerTask TimerTask.expire) where
  timers : Q.Carrier
  phase : Phase
  clock : ℤ
  added : List TimerTask
  started : List (TimerTask × ℤ)
  pending : Multiset TimerTask
  ticked : List TimerTask

/-- What can happen next. A clock value is what `time` returns, if it is called. -/
inductive TimerEvent
  /-- `AddTimer`, outside `Tick` or called by the running task -/
  | addTimer (sec : Int32) (now : ℤ)
  /-- `Tick` is called. -/
  | tick
  /-- The head of the loop: leave it, or execute the top -/
  | check (now : ℤ)
  /-- The task returns, and the queue is popped. -/
  | pop
  deriving DecidableEq

namespace Timer

variable {Q : PriorityQueue TimerTask TimerTask.expire}

/-- No task was added yet. -/
def init (Q : PriorityQueue TimerTask TimerTask.expire) : Timer Q where
  timers := Q.empty
  phase := .idle
  clock := 0
  added := []
  started := []
  pending := 0
  ticked := []

/-- `AddTimer(sec, func)` at time `now` -/
def addTimer (s : Timer Q) (sec : Int32) (now : ℤ) : Timer Q :=
  let task : TimerTask := ⟨s.added.length, now + sec.toInt⟩
  { s with
    timers := Q.push s.timers task
    clock := now
    added := task :: s.added }

/-- The head of the loop of `Tick`. -/
def check (s : Timer Q) (read : Option ℤ) (now : ℤ) : Timer Q :=
  match Q.top s.timers with
  | none => { s with phase := .returned read }
  | some task =>
    if now ≥ task.expire then
      { s with
        phase := .running task now
        clock := now
        started := (task, now) :: s.started
        ticked := task :: s.ticked }
    else { s with phase := .returned (some now), clock := now }

/-- A step; `none` if it cannot be taken in this phase, or the clock would go back. -/
def exec (s : Timer Q) : TimerEvent → Option (Timer Q)
  | .addTimer sec now =>
    if now < s.clock then none
    else
      match s.phase with
      | .idle | .returned _ => some { s.addTimer sec now with phase := .idle }
      | .running _ _ => some (s.addTimer sec now)
      | .looping _ => none
  | .tick =>
    match s.phase with
    | .idle | .returned _ =>
      some { s with phase := .looping none, pending := Q.elems s.timers, ticked := [] }
    | .looping _ | .running _ _ => none
  | .check now =>
    if now < s.clock then none
    else
      match s.phase with
      | .looping read => some (s.check read now)
      | .idle | .returned _ | .running _ _ => none
  | .pop =>
    match s.phase with
    | .running _ read => some { s with timers := Q.pop s.timers, phase := .looping (some read) }
    | .idle | .returned _ | .looping _ => none

/-- The tasks that were started. -/
def tasks (s : Timer Q) : List TimerTask := s.started.map Prod.fst

/-- No task was started twice, or before it expired; of the tasks that waited when `Tick` began it
starts those that expire first; and when it has returned, all tasks that had expired when it last
read the clock were executed and removed. -/
structure Correct (s : Timer Q) : Prop where
  once : s.tasks.Nodup
  expired : ∀ x ∈ s.started, x.1.expire ≤ x.2
  ordered : s.ticked.Pairwise fun later earlier =>
    later ∈ s.pending → earlier ∈ s.pending → earlier.expire ≤ later.expire
  complete : ∀ now, s.phase = .returned (some now) → ∀ task ∈ s.added, task.expire ≤ now →
    task ∈ s.tasks ∧ task ∉ Q.elems s.timers

end Timer

variable {Q : PriorityQueue TimerTask TimerTask.expire}

/-- The timer, under any calls of `AddTimer` and `Tick` and with any tasks. -/
def timerSystem (Q : PriorityQueue TimerTask TimerTask.expire) :
    TransitionSystem (Timer Q) TimerEvent := .ofExec (.init Q) Timer.exec

/-- A running task adds no task that expires before it. -/
def AddsLater (s : Timer Q) : TimerEvent → Prop
  | .addTimer sec now =>
    match s.phase with
    | .running task _ => task.expire ≤ now + sec.toInt
    | .idle | .returned _ | .looping _ => True
  | .tick | .check _ | .pop => True

instance (s : Timer Q) (e : TimerEvent) : Decidable (AddsLater s e) := by
  unfold AddsLater
  split
  · split <;> infer_instance
  all_goals infer_instance

namespace Timer

/-- No `Tick` is under way. -/
def Resting (s : Timer Q) : Prop := s.phase = .idle ∨ ∃ read, s.phase = .returned read

variable {s t : Timer Q} {e : TimerEvent} {task : TimerTask}

/-! ## Steps -/

/-- What a step does. -/
theorem exec_cases (hs : s.exec e = some t) :
    (∃ sec now, e = .addTimer sec now ∧ s.clock ≤ now ∧
      ((s.Resting ∧ t = { s.addTimer sec now with phase := .idle }) ∨
        ∃ task read, s.phase = .running task read ∧ t = s.addTimer sec now)) ∨
    (e = .tick ∧ s.Resting ∧
      t = { s with phase := .looping none, pending := Q.elems s.timers, ticked := [] }) ∨
    (∃ now read, e = .check now ∧ s.clock ≤ now ∧ s.phase = .looping read ∧
      t = s.check read now) ∨
    ∃ task read, e = .pop ∧ s.phase = .running task read ∧
      t = { s with timers := Q.pop s.timers, phase := .looping (some read) } := by
  cases e with
  | addTimer sec now =>
    refine .inl ⟨sec, now, rfl, ?_⟩
    simp only [exec] at hs
    split at hs
    · cases hs
    · rename_i hnow
      refine ⟨not_lt.mp hnow, ?_⟩
      split at hs
      · rename_i hphase
        exact .inl ⟨.inl hphase, (Option.some.inj hs).symm⟩
      · rename_i hphase
        exact .inl ⟨.inr ⟨_, hphase⟩, (Option.some.inj hs).symm⟩
      · rename_i hphase
        exact .inr ⟨_, _, hphase, (Option.some.inj hs).symm⟩
      · cases hs
  | tick =>
    refine .inr (.inl ⟨rfl, ?_⟩)
    simp only [exec] at hs
    split at hs
    · rename_i hphase
      exact ⟨.inl hphase, (Option.some.inj hs).symm⟩
    · rename_i hphase
      exact ⟨.inr ⟨_, hphase⟩, (Option.some.inj hs).symm⟩
    · cases hs
    · cases hs
  | check now =>
    refine .inr (.inr (.inl ?_))
    simp only [exec] at hs
    split at hs
    · cases hs
    · rename_i hnow
      split at hs
      · rename_i hphase
        exact ⟨now, _, rfl, not_lt.mp hnow, hphase, (Option.some.inj hs).symm⟩
      · cases hs
      · cases hs
      · cases hs
  | pop =>
    refine .inr (.inr (.inr ?_))
    simp only [exec] at hs
    split at hs
    · rename_i hphase
      exact ⟨_, _, rfl, hphase, (Option.some.inj hs).symm⟩
    · cases hs
    · cases hs
    · cases hs

/-- What the head of the loop does: it ends as the queue is empty, it executes the top, or it ends
as the top has not expired. -/
theorem check_cases (s : Timer Q) (read : Option ℤ) (now : ℤ) :
    (Q.elems s.timers = 0 ∧ s.check read now = { s with phase := .returned read }) ∨
    (∃ task, Q.top s.timers = some task ∧ task.expire ≤ now ∧ s.check read now =
      { s with
        phase := .running task now, clock := now, started := (task, now) :: s.started
        ticked := task :: s.ticked }) ∨
    ∃ task, Q.top s.timers = some task ∧ now < task.expire ∧
      s.check read now = { s with phase := .returned (some now), clock := now } := by
  unfold check
  cases htop : Q.top s.timers with
  | none => exact .inl ⟨(Q.top_eq_none_iff _).mp htop, rfl⟩
  | some task =>
    by_cases hnow : now ≥ task.expire
    · exact .inr (.inl ⟨task, rfl, hnow, by simp only [if_pos hnow]⟩)
    · exact .inr (.inr ⟨task, rfl, not_le.mp hnow, by simp only [if_neg hnow]⟩)

/-! ## What always holds -/

/-- Tasks have different numbers; only tasks that were added are waiting or started, and a started
one had expired. While a task runs it waits as well, and if another one has come to the top, that
one was not started. -/
structure Kept (s : Timer Q) : Prop where
  fresh : ∀ task ∈ s.added, task.id < s.added.length
  nodup : s.added.Nodup
  held : ∀ task ∈ Q.elems s.timers, task ∈ s.added
  tasks : ∀ task ∈ s.tasks, task ∈ s.added ∧ task.expire ≤ s.clock
  running : ∀ task read, s.phase = .running task read → task ∈ s.tasks ∧
    task ∈ Q.elems s.timers ∧ ∀ top, Q.top s.timers = some top → top = task ∨ top ∉ s.tasks

/-- The task that `AddTimer` makes. -/
def newTask (s : Timer Q) (sec : Int32) (now : ℤ) : TimerTask :=
  ⟨s.added.length, now + sec.toInt⟩

theorem Kept.newTask_not_mem (h : Kept s) (sec : Int32) (now : ℤ) :
    s.newTask sec now ∉ s.added := by
  intro hmem
  exact lt_irrefl _ (h.fresh _ hmem)

theorem Kept.init : Kept (Timer.init Q) where
  fresh := by simp [Timer.init]
  nodup := by simp [Timer.init]
  held := by simp [Timer.init, Q.elems_empty]
  tasks := by simp [Timer.init, Timer.tasks]
  running := by simp [Timer.init]

/-- A new task in the queue. -/
theorem Kept.addTimer (h : Kept s) {sec : Int32} {now : ℤ} (hnow : s.clock ≤ now) :
    Kept (s.addTimer sec now) where
  fresh := by
    intro task htask
    rcases List.mem_cons.mp htask with rfl | htask
    · exact Nat.lt_succ_self _
    · exact (h.fresh task htask).trans (Nat.lt_succ_self _)
  nodup := List.nodup_cons.mpr ⟨h.newTask_not_mem sec now, h.nodup⟩
  held := by
    intro task htask
    rcases PriorityQueue.mem_push.mp htask with rfl | htask
    · exact List.mem_cons_self ..
    · exact List.mem_cons_of_mem _ (h.held task htask)
  tasks := by
    intro task htask
    obtain ⟨hadded, hdue⟩ := h.tasks task htask
    exact ⟨List.mem_cons_of_mem _ hadded, hdue.trans hnow⟩
  running := by
    intro task read hphase
    obtain ⟨hstarted, hwaits, htop⟩ := h.running task read hphase
    refine ⟨hstarted, PriorityQueue.mem_push.mpr (.inr hwaits), fun top hnew => ?_⟩
    obtain ⟨old, hold⟩ := PriorityQueue.exists_top hwaits
    rcases PriorityQueue.top_push_cases (b := s.newTask sec now) hold with hsame | hother
    · rw [show Q.top (s.addTimer sec now).timers = some old from hsame] at hnew
      rw [← Option.some.inj hnew]
      exact htop old hold
    · -- the new task was not started
      rw [show Q.top (s.addTimer sec now).timers = _ from hother] at hnew
      rw [← Option.some.inj hnew]
      exact .inr fun hmem => h.newTask_not_mem sec now (h.tasks _ hmem).1

theorem Kept.exec (h : Kept s) (hs : s.exec e = some t) : Kept t := by
  obtain ⟨sec, now, -, hnow, ⟨-, rfl⟩ | ⟨task, read, -, rfl⟩⟩ | ⟨-, -, rfl⟩ |
    ⟨now, read, -, hnow, hphase, rfl⟩ | ⟨task, read, -, hphase, rfl⟩ := exec_cases hs
  · have hadd : Kept (s.addTimer sec now) := h.addTimer hnow
    exact ⟨hadd.fresh, hadd.nodup, hadd.held, hadd.tasks, by simp⟩
  · exact h.addTimer hnow
  · exact ⟨h.fresh, h.nodup, h.held, h.tasks, by simp⟩
  · obtain ⟨-, heq⟩ | ⟨task, htop, hexpired, heq⟩ | ⟨task, -, -, heq⟩ := check_cases s read now
    · rw [heq]
      exact ⟨h.fresh, h.nodup, h.held, h.tasks, by simp⟩
    · rw [heq]
      have hmem := PriorityQueue.top_mem htop
      refine ⟨h.fresh, h.nodup, h.held, fun other hother => ?_, ?_⟩
      · rcases List.mem_cons.mp hother with rfl | hother
        · exact ⟨h.held _ hmem, hexpired⟩
        · exact ⟨(h.tasks other hother).1, (h.tasks other hother).2.trans hnow⟩
      · rintro _ _ ⟨rfl, rfl⟩
        refine ⟨List.mem_cons_self .., hmem, fun top hnew => .inl ?_⟩
        exact Option.some.inj (hnew.symm.trans htop)
    · rw [heq]
      refine ⟨h.fresh, h.nodup, h.held, fun other hother => ?_, by simp⟩
      exact ⟨(h.tasks other hother).1, (h.tasks other hother).2.trans hnow⟩
  · obtain ⟨-, hwaits, -⟩ := h.running task read hphase
    obtain ⟨top, htop⟩ := PriorityQueue.exists_top hwaits
    exact ⟨h.fresh, h.nodup,
      fun other hother => h.held other (PriorityQueue.mem_of_mem_pop htop hother), h.tasks, by simp⟩

/-! ## While running tasks add later ones -/

/-- The tasks that wait and were not started: all in the queue but the running task. -/
def rest (s : Timer Q) : Multiset TimerTask :=
  match s.phase with
  | .running _ _ => Q.elems (Q.pop s.timers)
  | .idle | .returned _ | .looping _ => Q.elems s.timers

theorem rest_of_resting (h : s.Resting) : s.rest = Q.elems s.timers := by
  obtain hphase | ⟨read, hphase⟩ := h
  · rw [rest, hphase]
  · rw [rest, hphase]

/-- Every task that was added waits or was started, not both and once, and the running task stays
at the top. Of the tasks that waited when `Tick` began those it has started do not expire after
those that still wait. -/
structure Inv (s : Timer Q) : Prop where
  account : (s.added : Multiset TimerTask) = s.rest + (s.tasks : Multiset TimerTask)
  top : ∀ task read, s.phase = .running task read → Q.top s.timers = some task
  expired : ∀ x ∈ s.started, x.1.expire ≤ x.2
  pending : ∀ task ∈ s.pending, task ∈ s.added
  below : ∀ a ∈ s.ticked, a ∈ s.pending → ∀ b ∈ Q.elems s.timers, b ∈ s.pending →
    a.expire ≤ b.expire
  ordered : s.ticked.Pairwise fun later earlier =>
    later ∈ s.pending → earlier ∈ s.pending → earlier.expire ≤ later.expire
  complete : ∀ now, s.phase = .returned (some now) → ∀ task ∈ Q.elems s.timers, now < task.expire

theorem Inv.init : Inv (Timer.init Q) where
  account := by simp [Timer.init, rest, Timer.tasks, Q.elems_empty]
  top := by simp [Timer.init]
  expired := by simp [Timer.init]
  pending := by simp [Timer.init]
  below := by simp [Timer.init]
  ordered := by simp [Timer.init]
  complete := by simp [Timer.init]

theorem Inv.correct (h : Inv s) (hk : Kept s) : s.Correct where
  once := by
    have hnodup : (s.added : Multiset TimerTask).Nodup := Multiset.coe_nodup.mpr hk.nodup
    rw [h.account] at hnodup
    exact Multiset.coe_nodup.mp (Multiset.nodup_of_le (Multiset.le_add_left _ _) hnodup)
  expired := h.expired
  ordered := h.ordered
  complete := by
    intro now hphase task htask hexpired
    have hgone : task ∉ Q.elems s.timers :=
      fun hmem => absurd hexpired (not_le.mpr (h.complete now hphase task hmem))
    have hsome : task ∈ s.rest + (s.tasks : Multiset TimerTask) := by
      rw [← h.account]
      exact Multiset.mem_coe.mpr htask
    have hrest : s.rest = Q.elems s.timers := by rw [rest, hphase]
    rcases Multiset.mem_add.mp hsome with hmem | hmem
    · rw [hrest] at hmem
      exact absurd hmem hgone
    · exact ⟨Multiset.mem_coe.mp hmem, hgone⟩

/-- A new task that does not displace the running one. -/
theorem Inv.push (h : Inv s) (hk : Kept s) {sec : Int32} {now : ℤ} (phase : Phase)
    (hrest : rest { s.addTimer sec now with phase := phase } = s.newTask sec now ::ₘ s.rest)
    (htop : ∀ task read, phase = .running task read →
      Q.top (Q.push s.timers (s.newTask sec now)) = some task)
    (hphase : ∀ now, phase ≠ .returned (some now)) :
    Inv { s.addTimer sec now with phase := phase } where
  account := by
    have hadded : ((s.newTask sec now :: s.added : List TimerTask) : Multiset TimerTask) =
        s.newTask sec now ::ₘ s.rest + (s.tasks : Multiset TimerTask) := by
      rw [← Multiset.cons_coe, h.account, Multiset.cons_add]
    rw [hrest]
    exact hadded
  top := htop
  expired := h.expired
  pending := fun task htask => List.mem_cons_of_mem _ (h.pending task htask)
  below := by
    intro a ha hpending b hb hpending'
    rcases PriorityQueue.mem_push.mp hb with rfl | hb
    · -- what waited when `Tick` began was added before
      exact absurd (h.pending _ hpending') (hk.newTask_not_mem sec now)
    · exact h.below a ha hpending b hb hpending'
  ordered := h.ordered
  complete := fun now hreturned => absurd hreturned (hphase now)

theorem Inv.addTimer (h : Inv s) (hk : Kept s) {sec : Int32} {now : ℤ}
    (hs : (s.Resting ∧ t = { s.addTimer sec now with phase := .idle }) ∨
      ∃ task read, s.phase = .running task read ∧ t = s.addTimer sec now)
    (hlater : AddsLater s (.addTimer sec now)) : Inv t := by
  obtain ⟨hresting, rfl⟩ | ⟨task, read, hphase, rfl⟩ := hs
  · refine h.push hk .idle ?_ (by simp) (by simp)
    rw [rest_of_resting hresting]
    exact Q.elems_push _ _
  · have htop := h.top task read hphase
    simp only [AddsLater, hphase] at hlater
    have hstays : Q.top (Q.push s.timers (s.newTask sec now)) = some task :=
      Q.top_push _ _ _ htop hlater
    refine h.push hk s.phase ?_ ?_ (by simp [hphase])
    · -- the running task is the top before and after
      have hbefore := Q.elems_pop _ _ htop
      have hafter := Q.elems_pop _ _ hstays
      rw [Q.elems_push, hbefore, Multiset.cons_swap] at hafter
      have hsame := Multiset.cons_inj_right _ |>.mp hafter
      simp only [rest, hphase]
      exact hsame.symm
    · intro other read' hother
      rw [hphase] at hother
      obtain ⟨rfl, rfl⟩ := Phase.running.inj hother
      exact hstays

theorem Inv.check (h : Inv s) {read : Option ℤ} (hphase : s.phase = .looping read)
    (now : ℤ) : Inv (s.check read now) := by
  have hrest : s.rest = Q.elems s.timers := by rw [rest, hphase]
  have haccount := h.account
  rw [hrest] at haccount
  obtain ⟨hempty, heq⟩ | ⟨task, htop, hexpired, heq⟩ | ⟨task, htop, hnow, heq⟩ :=
    check_cases s read now
  · rw [heq]
    exact ⟨haccount, by simp, h.expired, h.pending, h.below, h.ordered, by simp [hempty]⟩
  · rw [heq]
    have hmem := PriorityQueue.top_mem htop
    refine ⟨?_, ?_, ?_, h.pending, ?_, ?_, by simp⟩
    · have hstart : (Q.elems (Q.pop s.timers) + (task :: s.tasks : List TimerTask) :
          Multiset TimerTask) = Q.elems s.timers + (s.tasks : Multiset TimerTask) := by
        rw [Q.elems_pop _ _ htop, ← Multiset.cons_coe, Multiset.add_cons, Multiset.cons_add]
      rw [haccount]
      exact hstart.symm
    · rintro _ _ ⟨rfl, rfl⟩
      exact htop
    · intro x hx
      rcases List.mem_cons.mp hx with rfl | hx
      · exact hexpired
      · exact h.expired x hx
    · intro a ha hpending b hb hpending'
      rcases List.mem_cons.mp ha with rfl | ha
      · exact Q.top_le _ _ htop b hb
      · exact h.below a ha hpending b hb hpending'
    · refine List.pairwise_cons.mpr ⟨fun earlier hearlier hpending hpending' => ?_, h.ordered⟩
      exact h.below earlier hearlier hpending' task hmem hpending
  · rw [heq]
    refine ⟨haccount, by simp, h.expired, h.pending, h.below, h.ordered, ?_⟩
    intro now' hreturned other hother
    obtain rfl := Option.some.inj (Phase.returned.inj hreturned)
    exact hnow.trans_le (Q.top_le _ _ htop other hother)

theorem Inv.exec (h : Inv s) (hk : Kept s) (hlater : AddsLater s e) (hs : s.exec e = some t) :
    Inv t := by
  obtain ⟨sec, now, rfl, -, hadd⟩ | ⟨-, hresting, rfl⟩ | ⟨now, read, -, -, hphase, rfl⟩ |
    ⟨task, read, -, hphase, rfl⟩ := exec_cases hs
  · exact h.addTimer hk hadd hlater
  · have haccount := h.account
    rw [rest_of_resting hresting] at haccount
    exact ⟨haccount, by simp, h.expired, hk.held, by simp, List.Pairwise.nil, by simp⟩
  · exact h.check hphase now
  · have htop := h.top task read hphase
    have haccount := h.account
    rw [rest, hphase] at haccount
    exact ⟨haccount, by simp, h.expired, h.pending,
      fun a ha hpending b hb => h.below a ha hpending b (PriorityQueue.mem_of_mem_pop htop hb),
      h.ordered, by simp⟩

/-! ## After a running task has added an earlier one -/

/-- A task was started twice; or one that was started is in the queue while `Tick` runs, and it is
not the running task at its top: it will be started again. -/
def Spoiled (s : Timer Q) : Prop :=
  ¬ s.tasks.Nodup ∨ ∃ task ∈ Q.elems s.timers, task ∈ s.tasks ∧
    match s.phase with
    | .idle | .returned _ => False
    | .looping _ => True
    | .running running _ => task ≠ running ∨ Q.top s.timers ≠ some running

theorem Spoiled.of_running (h : Spoiled s) {running : TimerTask} {read : ℤ}
    (hphase : s.phase = .running running read) : ¬ s.tasks.Nodup ∨ ∃ task ∈ Q.elems s.timers,
      task ∈ s.tasks ∧ (task ≠ running ∨ Q.top s.timers ≠ some running) := by
  refine h.imp_right fun ⟨task, hwaits, hstarted, hnext⟩ => ⟨task, hwaits, hstarted, ?_⟩
  rw [hphase] at hnext
  exact hnext

/-- Outside `Tick` the damage is done. -/
theorem Spoiled.not_nodup (h : Spoiled s) (hresting : s.Resting) : ¬ s.tasks.Nodup := by
  obtain hnodup | ⟨task, -, -, hnext⟩ := h
  · exact hnodup
  · obtain hphase | ⟨read, hphase⟩ := hresting <;> rw [hphase] at hnext <;> exact hnext.elim

/-- A running task adds one that expires before it. -/
theorem spoiled_addTimer (hk : Kept s) {sec : Int32} {now read : ℤ}
    (hphase : s.phase = .running task read) (hearlier : now + sec.toInt < task.expire) :
    Spoiled (s.addTimer sec now) := by
  obtain ⟨hstarted, hwaits, -⟩ := hk.running task read hphase
  refine .inr ⟨task, PriorityQueue.mem_push.mpr (.inr hwaits), hstarted, ?_⟩
  have hdisplaced : Q.top (Q.push s.timers (s.newTask sec now)) ≠ some task :=
    PriorityQueue.top_push_ne hearlier
  rw [show (s.addTimer sec now).phase = .running task read from hphase]
  exact .inr hdisplaced

/-- Only a running task can add one too early. -/
theorem exists_of_not_addsLater (h : ¬ AddsLater s e) : ∃ sec now task read,
    e = .addTimer sec now ∧ s.phase = .running task read ∧ now + sec.toInt < task.expire := by
  cases e with
  | addTimer sec now =>
    simp only [AddsLater] at h
    split at h
    · rename_i task read hphase
      exact ⟨sec, now, task, read, rfl, hphase, not_le.mp h⟩
    all_goals exact absurd trivial h
  | tick => exact absurd trivial h
  | check now => exact absurd trivial h
  | pop => exact absurd trivial h

/-- A delay that is not negative is late enough, as the running task has expired. -/
theorem Kept.addsLater_of_nonneg (hk : Kept s) {sec : Int32} {now : ℤ} (hsec : 0 ≤ sec.toInt)
    (hs : s.exec (.addTimer sec now) = some t) : AddsLater s (.addTimer sec now) := by
  by_contra hnot
  obtain ⟨sec', now', task, read, heq, hphase, hearlier⟩ := exists_of_not_addsLater hnot
  obtain ⟨rfl, rfl⟩ := TimerEvent.addTimer.inj heq
  have hdue := (hk.tasks task (hk.running task read hphase).1).2
  have hnow : s.clock ≤ now := by
    simp only [Timer.exec] at hs
    split at hs
    · cases hs
    · exact not_lt.mp ‹_›
  omega

theorem Kept.spoiled_of_not_addsLater (hk : Kept s) (h : ¬ AddsLater s e)
    (hs : s.exec e = some t) : Spoiled t := by
  obtain ⟨sec, now, task, read, rfl, hphase, hearlier⟩ := exists_of_not_addsLater h
  have heq : t = s.addTimer sec now := by
    simp only [Timer.exec, hphase] at hs
    split at hs
    · cases hs
    · exact (Option.some.inj hs).symm
  rw [heq]
  exact spoiled_addTimer hk hphase hearlier

/-- What a running task adds does not bring it back to the top. -/
theorem Spoiled.addTimer (h : Spoiled s) (hk : Kept s) {sec : Int32} {now read : ℤ}
    {running : TimerTask} (hphase : s.phase = .running running read) :
    Spoiled (s.addTimer sec now) := by
  obtain hnodup | ⟨task, hwaits, hstarted, hnext⟩ := h.of_running hphase
  · exact .inl hnodup
  · refine .inr ⟨task, PriorityQueue.mem_push.mpr (.inr hwaits), hstarted, ?_⟩
    rw [show (s.addTimer sec now).phase = .running running read from hphase]
    refine hnext.imp_right fun hdisplaced htop => ?_
    obtain ⟨hrunning, -, -⟩ := hk.running running read hphase
    obtain ⟨top, hold⟩ := PriorityQueue.exists_top hwaits
    have hnew := hk.newTask_not_mem sec now
    rcases PriorityQueue.top_push_cases (b := s.newTask sec now) hold with hsame | hother
    · exact hdisplaced (hold.trans (hsame.symm.trans htop))
    · -- the new task is not the running one
      rw [Option.some.inj (hother.symm.trans htop)] at hnew
      exact hnew (hk.tasks _ hrunning).1

/-- As long as a started task is in the queue the loop goes on, and starts it, or another one. -/
theorem Spoiled.check (h : Spoiled s) (hk : Kept s) {read : Option ℤ} {now : ℤ}
    (hnow : s.clock ≤ now) : Spoiled (s.check read now) := by
  obtain hnodup | ⟨task, hwaits, hstarted, -⟩ := h
  · refine .inl fun hlater => hnodup ?_
    obtain ⟨-, heq⟩ | ⟨task, -, -, heq⟩ | ⟨task, -, -, heq⟩ := check_cases s read now
    · rwa [heq] at hlater
    · rw [heq] at hlater
      exact (List.nodup_cons.mp hlater).2
    · rwa [heq] at hlater
  · have hexpired := (hk.tasks task hstarted).2.trans hnow
    obtain ⟨hempty, -⟩ | ⟨top, htop, -, heq⟩ | ⟨top, htop, hlate, -⟩ := check_cases s read now
    · rw [hempty] at hwaits
      exact absurd hwaits (Multiset.notMem_zero task)
    · rw [heq]
      by_cases hagain : top ∈ s.tasks
      · exact .inl fun hnodup => (List.nodup_cons.mp hnodup).1 hagain
      · exact .inr ⟨task, hwaits, List.mem_cons_of_mem _ hstarted,
          .inl (ne_of_mem_of_not_mem hstarted hagain)⟩
    · have hle := Q.top_le _ _ htop task hwaits
      omega

/-- What is popped is the running task, or was not started. -/
theorem Spoiled.pop (h : Spoiled s) (hk : Kept s) {running : TimerTask} {read : ℤ}
    (hphase : s.phase = .running running read) :
    Spoiled { s with timers := Q.pop s.timers, phase := .looping (some read) } := by
  obtain hnodup | ⟨task, hwaits, hstarted, hnext⟩ := h.of_running hphase
  · exact .inl hnodup
  · obtain ⟨top, htop⟩ := PriorityQueue.exists_top hwaits
    have hne : task ≠ top := by
      rintro rfl
      obtain ⟨-, -, hor⟩ := hk.running running read hphase
      rcases hor task htop with rfl | hnot
      · exact hnext.elim (fun hne => hne rfl) fun hne => hne htop
      · exact hnot hstarted
    exact .inr ⟨task, PriorityQueue.mem_pop htop hwaits hne, hstarted, trivial⟩

theorem Spoiled.exec (h : Spoiled s) (hk : Kept s) (hs : s.exec e = some t) : Spoiled t := by
  obtain ⟨sec, now, -, -, ⟨hresting, rfl⟩ | ⟨running, read, hphase, rfl⟩⟩ | ⟨-, hresting, rfl⟩ |
    ⟨now, read, -, hnow, -, rfl⟩ | ⟨running, read, -, hphase, rfl⟩ := exec_cases hs
  · exact .inl (h.not_nodup hresting)
  · exact h.addTimer hk hphase
  · exact .inl (h.not_nodup hresting)
  · exact h.check hk hnow
  · exact h.pop hk hphase

end Timer

/-! ## Runs -/

/-- As long as running tasks add no task that expires before them, the timer is correct in every
state; and if it is still correct when no `Tick` is under way, they have never added one. -/
theorem timer_correct_iff (Q : PriorityQueue TimerTask TimerTask.expire)
    (history : List (Transition (Timer Q) TimerEvent)) (s : Timer Q)
    (h : (timerSystem Q).Run unguarded history s) :
    ((∀ x ∈ history, AddsLater x.source x.event) → s.Correct) ∧
      (s.Resting → s.Correct → ∀ x ∈ history, AddsLater x.source x.event) := by
  have hinv : s.Kept ∧ ((∀ x ∈ history, AddsLater x.source x.event) ∧ s.Inv ∨
      (¬ ∀ x ∈ history, AddsLater x.source x.event) ∧ s.Spoiled) := by
    refine h.invariant (I := fun history s => s.Kept ∧
      ((∀ x ∈ history, AddsLater x.source x.event) ∧ s.Inv ∨
        (¬ ∀ x ∈ history, AddsLater x.source x.event) ∧ s.Spoiled)) ?_ ?_
    · rintro _ rfl
      exact ⟨.init, .inl ⟨by simp, .init⟩⟩
    · rintro history s e t ⟨hk, hgood⟩ - hs
      refine ⟨hk.exec hs, ?_⟩
      rw [List.forall_mem_cons]
      obtain ⟨hlater, hinv⟩ | ⟨hearlier, hspoiled⟩ := hgood
      · by_cases hadds : AddsLater s e
        · exact .inl ⟨⟨hadds, hlater⟩, hinv.exec hk hadds hs⟩
        · exact .inr ⟨fun hall => hadds hall.1, hk.spoiled_of_not_addsLater hadds hs⟩
      · exact .inr ⟨fun hall => hearlier hall.2, hspoiled.exec hk hs⟩
  obtain ⟨hk, ⟨hlater, hgood⟩ | ⟨hearlier, hspoiled⟩⟩ := hinv
  · exact ⟨fun _ => hgood.correct hk, fun _ _ => hlater⟩
  · exact ⟨fun hlater => absurd hlater hearlier, fun hresting hcorrect =>
      absurd hcorrect.once (hspoiled.not_nodup hresting)⟩

/-- With delays that are not negative the timer is correct. -/
theorem timer_correct_of_nonneg {history : List (Transition (Timer Q) TimerEvent)} {s : Timer Q}
    (h : (timerSystem Q).Run
      (fun _ e => ∀ sec now, e = .addTimer sec now → 0 ≤ sec.toInt) history s) : s.Correct := by
  have hinv : s.Kept ∧ s.Inv := by
    refine h.invariant (I := fun _ s => s.Kept ∧ s.Inv) ?_ ?_
    · rintro _ rfl
      exact ⟨.init, .init⟩
    · rintro history s e t ⟨hk, hinv⟩ hsec hs
      refine ⟨hk.exec hs, hinv.exec hk ?_ hs⟩
      cases e with
      | addTimer sec now => exact hk.addsLater_of_nonneg (hsec sec now rfl) hs
      | tick => trivial
      | check now => trivial
      | pop => trivial
  exact hinv.2.correct hinv.1

/-- The first task runs at time 10 and adds one that expires at time 9. -/
def earlierTask : List TimerEvent :=
  [.addTimer 0 10, .tick, .check 10, .addTimer (-1) 10, .pop, .check 10, .pop, .check 10]

/-- The first task runs at time 10 and adds one that expires at time 12. -/
def laterTask : List TimerEvent :=
  [.addTimer 0 10, .tick, .check 10, .addTimer 2 10, .pop, .check 12, .pop, .check 12]

theorem replay_timer (events : List TimerEvent)
    (P : List (Transition (Timer (.sorted TimerTask.expire)) TimerEvent) →
      Timer (.sorted TimerTask.expire) → Bool)
    (h : (replay Timer.exec (fun _ _ => true) [] (Timer.init (.sorted TimerTask.expire))
      events).any (fun r => P r.1 r.2) = true) :
    ∃ history s, (timerSystem (.sorted TimerTask.expire)).Run unguarded history s ∧
      P history s = true := by
  obtain ⟨history, s, hrun, hP⟩ := exists_run_of_replay P h
  exact ⟨history, s, hrun.mono fun _ _ _ => trivial, hP⟩

theorem timer_correct_iff_earlierTask :
    (∃ history s, (timerSystem (.sorted TimerTask.expire)).Run unguarded history s ∧
      s.tasks = [⟨1, 12⟩, ⟨0, 10⟩] ∧ s.Correct) ∧
    ∃ history s, (timerSystem (.sorted TimerTask.expire)).Run unguarded history s ∧
      s.tasks = [⟨0, 10⟩, ⟨0, 10⟩] ∧ ¬ s.Correct := by
  obtain ⟨history, s, hrun, htest⟩ := replay_timer laterTask
    (fun history s => history.all (fun x => decide (AddsLater x.source x.event)) &&
      decide (s.tasks = [⟨1, 12⟩, ⟨0, 10⟩])) (by decide +kernel)
  obtain ⟨history', s', hrun', htest'⟩ := replay_timer earlierTask
    (fun history s => !history.all (fun x => decide (AddsLater x.source x.event)) &&
      decide (s.phase = .returned (some 10)) && decide (s.tasks = [⟨0, 10⟩, ⟨0, 10⟩]))
    (by decide +kernel)
  simp only [Bool.and_eq_true, List.all_eq_true, decide_eq_true_eq] at htest
  simp only [Bool.and_eq_true, Bool.not_eq_true', decide_eq_true_eq] at htest'
  obtain ⟨⟨hearlier, hphase⟩, htasks⟩ := htest'
  refine ⟨⟨history, s, hrun, htest.2, (timer_correct_iff _ history s hrun).1 htest.1⟩,
    history', s', hrun', htasks, fun hcorrect => ?_⟩
  have hlater := (timer_correct_iff _ history' s' hrun').2 (.inr ⟨_, hphase⟩) hcorrect
  have hall : history'.all (fun x => decide (AddsLater x.source x.event)) = true := by
    simpa only [List.all_eq_true, decide_eq_true_eq] using hlater
  rw [hall] at hearlier
  cases hearlier

/-- The first task is executed twice, and the one it added never. -/
theorem earlier_task_repeats : ¬ ∀ (Q : PriorityQueue TimerTask TimerTask.expire) history s,
    (timerSystem Q).Run unguarded history s → s.Correct := by
  intro hall
  obtain ⟨history, s, hrun, htest⟩ := replay_timer earlierTask
    (fun _ s => decide (s.tasks = [⟨0, 10⟩, ⟨0, 10⟩])) (by decide +kernel)
  have honce := (hall _ history s hrun).once
  rw [of_decide_eq_true htest] at honce
  simp at honce

end DreamboatRpc.Common
