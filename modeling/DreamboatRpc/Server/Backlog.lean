import DreamboatRpc.Server.Isolation
import DreamboatRpc.Server.SafeQueue
import DreamboatRpc.Server.Serialised

/-!
# Backlog

`Reactor::Run` hands each task that `Poller::Dispatch` returned to `AddTask`, which fails while
the queue holds as many tasks as it may. `Run` ignores that, and the task is gone: its
descriptor was disarmed when the event was reported, and no worker will arm it again.

## Main definitions

* `dispatched`, `taken` — the tasks that `Dispatch` returned, and those that workers took
* `Conserved` — each task that was dispatched is in one place
* `HasRoom` — a task that is added finds room in the queue

## Main results

* `conserved_iff` — no task is lost in a run if and only if every task that is added finds room
* `task_lost` — with 10001 connections and slow workers one is
-/

namespace DreamboatRpc.Server

open CS TransitionSystem Relation

variable {Service : Type}

/-! ## Where tasks are -/

/-- The task that `Dispatch` made of an event. -/
def taskDispatched (x : ThreadsStep Service) : List Task :=
  match x.event with
  | .dispatch fd events => (events.type.map fun type => Task.mk fd type).toList
  | _ => []

/-- The task that a worker took from the queue, and the worker. -/
def taskTaken (x : ThreadsStep Service) : List (Fin threadNum × Task) :=
  match x.event with
  | .takeTask w => x.source.queue.head?.toList.map fun task => (w, task)
  | _ => []

/-- The tasks that `Dispatch` returned, in this order. -/
def dispatched (history : List (ThreadsStep Service)) : List Task :=
  history.reverse.flatMap taskDispatched

/-- The tasks that workers took, each with the worker that took it. -/
def taken (history : List (ThreadsStep Service)) : List (Fin threadNum × Task) :=
  history.reverse.flatMap taskTaken

/-- The tasks that were dispatched are, in this order, those that were taken, those in the queue
and those that `Run` has still to add. -/
def Conserved (history : List (ThreadsStep Service)) (s : Threads Service) : Prop :=
  dispatched history = (taken history).map Prod.snd ++ (s.queue ++ s.pending)

/-- A task that is added finds room in the queue. -/
def HasRoom (s : Threads Service) : Move Service → Prop
  | .addTask => s.queue.length < taskQueueSize
  | _ => True

variable {history : List (ThreadsStep Service)} {s t : Threads Service} {m : Move Service}
  {x : ThreadsStep Service}

theorem dispatched_cons : dispatched (x :: history) = dispatched history ++ taskDispatched x := by
  simp [dispatched]

theorem taken_cons : taken (x :: history) = taken history ++ taskTaken x := by
  simp [taken]

theorem conserved_init (dictionary : CS.Dict (List UInt8) Service) (listenfd : ℤ) :
    Conserved [] (Threads.init dictionary listenfd) :=
  rfl

namespace Threads

/-- The next statement of a worker does not touch the tasks that wait. -/
theorem step_tasks {w : Fin threadNum} {fd : ℤ} {input : Input Service} {accepted : Accepted}
    {point : Point} (h : s.step w fd input accepted point = some t) :
    t.queue = s.queue ∧ t.pending = s.pending := by
  cases leaves_of_step h with
  | goesOn _ hframe => exact ⟨hframe.queue, hframe.pending⟩
  | finishes _ hframe => exact ⟨hframe.queue, hframe.pending⟩
  | abandons => exact ⟨rfl, rfl⟩

/-- The tasks of the pool as a `SafeQueue`. A worker that waits for a task is one that has none. -/
def taskQueue (s : Threads Service) : SafeQueue (Option (Fin threadNum)) Task :=
  ⟨s.queue, [], [], []⟩

/-- `AddTask` is a call of `Enqueue`, a worker gets its task from `Dequeue`, and nothing else
touches the queue. -/
theorem exec_taskQueue (h : s.exec m = some t) :
    t.taskQueue = s.taskQueue ∨
      ∃ call, SafeQueue.exec taskQueueSize s.taskQueue call = some t.taskQueue := by
  cases m with
  | dispatch fd events =>
    simp only [exec] at h
    split at h
    · obtain ⟨type, -, rfl⟩ := Option.map_eq_some_iff.mp h
      exact .inl rfl
    · cases h
  | addTask =>
    simp only [exec] at h
    split at h
    · cases h
    · rename_i task rest hpending
      refine .inr ⟨.enqueue none task none, ?_⟩
      split at h
      · rename_i hroom
        cases h
        simp [SafeQueue.exec, SafeQueue.Outside, taskQueue, hroom]
      · rename_i hfull
        cases h
        simp [SafeQueue.exec, SafeQueue.Outside, taskQueue, Nat.le_of_not_lt hfull]
  | takeTask w =>
    simp only [exec] at h
    split at h
    · rename_i task rest hqueue hworker
      cases h
      refine .inr ⟨.dequeue (some w) true, ?_⟩
      simp [SafeQueue.exec, SafeQueue.Outside, taskQueue, hqueue, goTo]
    · cases h
  | work w input accepted =>
    obtain ⟨job, -, hstep⟩ := Option.bind_eq_some_iff.mp h
    refine .inl ?_
    rw [taskQueue, (step_tasks hstep).1, taskQueue]

/-- So whatever holds of all runs of a `SafeQueue` holds of the tasks of the pool. -/
theorem taskQueue_reachable {dictionary : CS.Dict (List UInt8) Service} {listenfd : ℤ}
    (h : (threadsSystem dictionary listenfd).Reachable unguarded s) :
    (SafeQueue.queueSystem taskQueueSize).Reachable unguarded s.taskQueue := by
  apply h.invariant (I := fun s => (SafeQueue.queueSystem taskQueueSize).Reachable unguarded
    s.taskQueue)
  · rintro _ rfl
    exact ⟨[], .init rfl⟩
  · rintro s m t ⟨history, hrun⟩ - hstep
    rcases exec_taskQueue hstep with hsame | ⟨call, hcall⟩
    · exact ⟨history, hsame ▸ hrun⟩
    · exact ⟨_, hrun.step trivial hcall⟩

end Threads

/-- What one move does with the tasks: one is dispatched, taken or given up, or all stay. -/
theorem conserved_exec_iff (h : Conserved history s) (hexec : s.exec m = some t) :
    Conserved (⟨s, m, t⟩ :: history) t ↔ HasRoom s m := by
  rw [Conserved] at h
  rw [Conserved, dispatched_cons, taken_cons, h]
  cases m with
  | dispatch fd events =>
    simp only [Threads.exec] at hexec
    split at hexec
    · obtain ⟨type, htype, rfl⟩ := Option.map_eq_some_iff.mp hexec
      simp [taskDispatched, taskTaken, HasRoom, htype, Threads.report]
    · cases hexec
  | addTask =>
    simp only [Threads.exec] at hexec
    split at hexec
    · cases hexec
    · rename_i task rest hpending
      simp only [taskDispatched, taskTaken, HasRoom, List.append_nil]
      split at hexec
      · rename_i hroom
        cases hexec
        simp [hroom, hpending]
      · rename_i hfull
        cases hexec
        -- the task is in none of the three places any more
        simp [hfull, hpending]
  | takeTask w =>
    simp only [Threads.exec] at hexec
    split at hexec
    · rename_i task rest hqueue hworker
      cases hexec
      simp [taskDispatched, taskTaken, HasRoom, hqueue, Threads.goTo]
    · cases hexec
  | work w input accepted =>
    obtain ⟨job, -, hstep⟩ := Option.bind_eq_some_iff.mp hexec
    obtain ⟨hqueue, hpending⟩ := Threads.step_tasks hstep
    simp [taskDispatched, taskTaken, HasRoom, hqueue, hpending]

/-- In every run, each task that was dispatched is always in one place, still to be added, in
the queue or taken by one worker, if and only if every task that is added finds room in the
queue. -/
theorem conserved_iff (dictionary : Dict (List UInt8) Service) (listenfd : ℤ)
    (hrun : (threadsSystem dictionary listenfd).Run unguarded history s) :
    (∀ earlier t, (threadsSystem dictionary listenfd).Run unguarded earlier t →
      earlier <:+ history → Conserved earlier t) ↔
      ∀ x ∈ history, HasRoom x.source x.event := by
  refine hrun.histories_iff ?_ ?_
  · rintro _ rfl
    exact conserved_init dictionary listenfd
  · intro history s m t _ h hstep
    exact conserved_exec_iff h hstep

/-- A client connects, and worker 2 takes the event. -/
def takesAccept : List (Move Unit) := [.dispatch 3 .readable, .addTask, .takeTask 2]

theorem conserved_iff_takesAccept : ∃ (history : List (ThreadsStep Unit)) (s : Threads Unit),
    (threadsSystem ∅ 3).Run unguarded history s ∧ Conserved history s ∧
      taken history = [(2, ⟨3, readEvent⟩)] := by
  have hreplay : (replay Threads.exec (fun _ _ => true) []
      (Threads.init (∅ : Dict (List UInt8) Unit) 3) takesAccept).any (fun r =>
        decide (taken r.1 = [(2, ⟨3, readEvent⟩)] ∧ r.1.all fun x =>
          decide (x.source.queue.length < taskQueueSize)) ) = true := by decide +kernel
  obtain ⟨history, s, hrun, htest⟩ := exists_run_of_replay (fun history _ =>
    decide (taken history = [(2, ⟨3, readEvent⟩)] ∧ history.all fun x =>
      decide (x.source.queue.length < taskQueueSize))) hreplay
  obtain ⟨htaken, hroom⟩ := of_decide_eq_true htest
  have hrun' : (threadsSystem ∅ 3).Run unguarded history s := hrun.mono fun _ _ _ => trivial
  have hall : ∀ x ∈ history, HasRoom x.source x.event := by
    intro x hx
    have hx' := of_decide_eq_true (List.all_eq_true.mp hroom x hx)
    cases hevent : x.event <;> first | exact hx' | trivial
  exact ⟨history, s, hrun', (conserved_iff ∅ 3 hrun').mpr hall history s hrun' List.suffix_rfl,
    htaken⟩

/-! ## A full queue -/

section Full

/-- The calls of a worker that accepts a client as `connfd`. -/
def acceptInput (connfd : ℤ) : Input Unit := { noInput with accepted := some connfd }

/-- The server without services, which listens on descriptor 3. -/
abbrev busySystem : TransitionSystem (Threads Unit) (Move Unit) := threadsSystem ∅ 3

/-- `k` clients are connected, as descriptors 6, 7 and so on, and nothing is under way. -/
structure Ready (k : ℕ) (s : Threads Unit) : Prop where
  pending : s.pending = []
  queue : s.queue = []
  workers : s.workers = fun _ => none
  listenfd : s.server.listenfd = 3
  listening : s.server.interest 3 = .armed false
  accepts : s.server.list (4 * 3) = some .serverTransport
  armed : ∀ i < k, s.server.interest (6 + i) = .armed false
  free : ∀ fd, 6 + (k : ℤ) ≤ fd → s.connection fd = none

variable {s t : Threads Unit} {m : Move Unit} {w : Fin threadNum} {k j n : ℕ} {input : Input Unit}
  {fd connfd : ℤ}

theorem ready_init : Ready 0 (Threads.init ∅ 3) where
  pending := rfl
  queue := rfl
  workers := rfl
  listenfd := rfl
  listening := rfl
  accepts := by decide
  armed i hi := absurd hi (Nat.not_lt_zero i)
  free _ _ := rfl

/-- A worker opens no descriptor but the one that is accepted. -/
theorem connection_of_goes (h : Threads.Goes w input (.connected connfd) s t) (hne : fd ≠ connfd)
    (hfree : s.connection fd = none) : t.connection fd = none := by
  obtain ⟨job, -, hstep⟩ := Option.bind_eq_some_iff.mp h
  have hother : Accepted.connected connfd ≠ .connected fd := by
    rintro ⟨⟩
    exact hne rfl
  cases Threads.leaves_of_step hstep with
  | goesOn _ hframe => exact hframe.unopened fd nofun hother hfree
  | finishes _ hframe => exact hframe.unopened fd nofun hother hfree
  | abandons => exact hfree

/-- One more move. -/
theorem reachable_exec (hs : busySystem.Reachable HasRoom s) (hroom : HasRoom s m)
    (hexec : s.exec m = some t) : busySystem.Reachable HasRoom t := by
  obtain ⟨history, hrun⟩ := hs
  exact ⟨_, hrun.step hroom hexec⟩

/-- The statements of a worker, one after another. -/
theorem reachable_of_goes (hs : busySystem.Reachable HasRoom s)
    (h : ReflTransGen (Threads.Goes w input (.connected connfd)) s t) :
    busySystem.Reachable HasRoom t ∧
      ∀ fd ≠ connfd, s.connection fd = none → t.connection fd = none := by
  induction h with
  | refl => exact ⟨hs, fun _ _ h => h⟩
  | tail _ hgoes ih =>
    exact ⟨reachable_exec (m := .work ..) ih.1 trivial hgoes,
      fun fd hne hfree => connection_of_goes hgoes hne (ih.2 fd hne hfree)⟩

/-- A readable descriptor is reported. -/
theorem exec_dispatch (h : s.server.interest fd = .armed false) :
    s.exec (.dispatch fd .readable) = some (s.report fd readEvent) := by
  have hreports : s.Reports fd .readable := ⟨false, h, by simp [Events.readable], by decide⟩
  rw [Threads.exec, if_pos hreports]
  rfl

/-- The reactor adds the only task it has. -/
theorem exec_addTask {task : Task} (hpending : s.pending = [task])
    (hroom : s.queue.length < taskQueueSize) :
    s.exec .addTask = some { s with pending := [], queue := s.queue ++ [task] } := by
  simp [Threads.exec, hpending, hroom]

/-- The server while worker 0 has taken an event of the listening socket. -/
def listenTaken (s : Threads Unit) : Threads Unit :=
  { s.report 3 readEvent with pending := [], queue := [] }

/-- The event of the listening socket reaches worker 0. -/
theorem Ready.takeTask (h : Ready k s) (hs : busySystem.Reachable HasRoom s) :
    busySystem.Reachable HasRoom ((listenTaken s).goTo 0 3 (.lookup readEvent)) := by
  have hreported : busySystem.Reachable HasRoom (s.report 3 readEvent) :=
    reachable_exec (m := .dispatch 3 .readable) hs trivial (exec_dispatch h.listening)
  have hpending : (s.report 3 readEvent).pending = [⟨3, readEvent⟩] := by
    rw [Threads.report, h.pending, List.nil_append]
  have hroom : (s.report 3 readEvent).queue.length < taskQueueSize := by
    rw [show (s.report 3 readEvent).queue = [] from h.queue]
    decide
  have hadded := reachable_exec (m := .addTask) hreported hroom (exec_addTask hpending hroom)
  refine reachable_exec (m := .takeTask 0) hadded trivial ?_
  simp [Threads.exec, Threads.report, h.queue, h.workers, listenTaken]

/-- There the transport accepts the client. -/
theorem Ready.handleEvent (h : Ready k s) (connfd : ℤ) :
    (listenTaken s).server.handleEvent 3 readEvent (acceptInput connfd) =
      .finished (({ (listenTaken s).server with
        list := RpcServer.attachAll (listenTaken s).server.list connfd }.addEvent connfd).modEvent
          (listenTaken s).server.listenfd false) := by
  have hmethod : (listenTaken s).server.method 3 readEvent = .accept := by
    have hslot : (listenTaken s).server.list (4 * 3) = some .serverTransport := h.accepts
    rw [RpcServer.method, if_neg (by decide), getEventId_read, hslot]
    rfl
  have hlistenfd : (listenTaken s).server.listenfd = 3 := h.listenfd
  rw [RpcServer.handleEvent_accept hmethod, RpcServer.accept, if_neg (not_not.mpr hlistenfd.symm)]
  rfl

/-- One more client connects. -/
theorem Ready.connect (h : Ready k s) (hs : busySystem.Reachable HasRoom s) :
    ∃ t, busySystem.Reachable HasRoom t ∧ Ready (k + 1) t := by
  set connfd : ℤ := 6 + k with hconnfd
  have hlistenfd : (listenTaken s).server.listenfd = 3 := h.listenfd
  have hfree : (listenTaken s).Free connfd := ⟨by omega, h.free connfd le_rfl, by omega⟩
  have hfrees : ∀ c, Accepted.connected connfd = .refused c ∨
      Accepted.connected connfd = .connected c → (listenTaken s).Free c := by
    rintro c (hc | hc)
    · cases hc
    · cases hc
      exact hfree
  obtain ⟨t, hgoes, hserver, hworkers, hpending, hqueue⟩ :=
    Threads.handle_alone (w := 0) (listenTaken s) rfl hfrees (h.handleEvent connfd)
  obtain ⟨hreach, hconnection⟩ := reachable_of_goes (h.takeTask hs) hgoes
  have hinterest : ∀ fd, t.server.interest fd =
      if fd = 3 then .armed false
      else if fd = connfd then .armed false else s.server.interest fd := by
    intro fd
    have hne : (3 : ℤ) ≠ connfd := by omega
    rw [hserver, hlistenfd, RpcServer.interest_modEvent, RpcServer.interest_addEvent _ (by omega),
      RpcServer.interest_addEvent _ (by omega), if_neg hne]
    by_cases hfd : fd = 3
    · simp [hfd, listenTaken, Threads.report]
    · simp [hfd, listenTaken, Threads.report]
  refine ⟨t, hreach, ?_⟩
  constructor
  case pending => exact hpending
  case queue => exact hqueue
  case workers =>
    have hidle : (listenTaken s).workers = fun _ => none := h.workers
    rw [hworkers, Threads.goTo, hidle, Function.update_idem]
    exact Function.update_eq_self 0 _
  case listenfd =>
    rw [hserver, RpcServer.modEvent_listenfd, RpcServer.addEvent_listenfd]
    exact h.listenfd
  case listening =>
    rw [hinterest, if_pos rfl]
  case accepts =>
    have hkept := RpcServer.attachAll_apply (listenTaken s).server.list connfd (4 * 3)
    rw [if_neg (by omega), if_neg (by omega), if_neg (by omega)] at hkept
    rw [hserver, RpcServer.modEvent_list, RpcServer.addEvent_list]
    exact hkept.trans h.accepts
  case armed =>
    intro i hi
    rw [hinterest, if_neg (by omega)]
    split
    · rfl
    · exact h.armed i (by omega)
  case free =>
    intro fd hfd
    exact hconnection fd (by omega) (h.free fd (by omega))

/-- Any number of clients can be connected. -/
theorem exists_ready (n : ℕ) : ∃ s, busySystem.Reachable HasRoom s ∧ Ready n s := by
  induction n with
  | zero => exact ⟨_, ⟨[], .init rfl⟩, ready_init⟩
  | succ n ih =>
    obtain ⟨s, hs, hready⟩ := ih
    exact hready.connect hs

/-- `j` tasks are in the queue, and the clients that come after the first `j` have not written
yet. -/
structure Backlogged (n j : ℕ) (s : Threads Unit) : Prop where
  pending : s.pending = []
  queue : s.queue.length = j
  armed : ∀ i, j ≤ i → i < n → s.server.interest (6 + i) = .armed false

/-- The next client writes, and its task is dispatched. -/
theorem Backlogged.report (h : Backlogged n j s) (hj : j < n)
    (hs : busySystem.Reachable HasRoom s) :
    busySystem.Reachable HasRoom (s.report (6 + j) readEvent) ∧
      (s.report (6 + j) readEvent).pending = [⟨6 + j, readEvent⟩] := by
  refine ⟨reachable_exec (m := .dispatch (6 + j) .readable) hs trivial
    (exec_dispatch (h.armed j le_rfl hj)), ?_⟩
  rw [Threads.report, h.pending, List.nil_append]

/-- While there is room its task gets into the queue. -/
theorem Backlogged.next (h : Backlogged n j s) (hj : j < n) (hroom : j < taskQueueSize)
    (hs : busySystem.Reachable HasRoom s) :
    ∃ t, busySystem.Reachable HasRoom t ∧ Backlogged n (j + 1) t := by
  obtain ⟨hreach, hpending⟩ := h.report hj hs
  have hroom' : (s.report (6 + j) readEvent).queue.length < taskQueueSize := by
    rw [show (s.report (6 + j) readEvent).queue = s.queue from rfl, h.queue]
    exact hroom
  refine ⟨_, reachable_exec (m := .addTask) hreach hroom' (exec_addTask hpending hroom'), rfl, ?_,
    fun i hi hin => ?_⟩
  · simp [Threads.report, h.queue]
  · have hne : (6 + i : ℤ) ≠ 6 + j := by omega
    simpa [Threads.report, hne] using h.armed i (by omega) hin

/-- Up to its limit the queue fills. -/
theorem exists_backlogged (hn : taskQueueSize ≤ n) :
    ∀ j ≤ taskQueueSize, ∃ s, busySystem.Reachable HasRoom s ∧ Backlogged n j s := by
  intro j hj
  induction j with
  | zero =>
    obtain ⟨s, hs, hready⟩ := exists_ready n
    exact ⟨s, hs, hready.pending, by rw [hready.queue]; rfl, fun i _ hi => hready.armed i hi⟩
  | succ j ih =>
    obtain ⟨s, hs, hback⟩ := ih (by omega)
    exact hback.next (by omega) (by omega) hs

end Full

/-- With 10001 clients connected that all write, and workers that take nothing, the last task is
in none of the three places. -/
theorem task_lost : ∃ (history : List (ThreadsStep Unit)) (s : Threads Unit),
    (threadsSystem ∅ 3).Run unguarded history s ∧ ¬ Conserved history s := by
  obtain ⟨s, hs, hback⟩ := exists_backlogged (n := taskQueueSize + 1) (by omega) taskQueueSize
    le_rfl
  obtain ⟨⟨history, hrun⟩, hpending⟩ := hback.report (by omega) hs
  have hfull : ¬ HasRoom (s.report (6 + taskQueueSize) readEvent) .addTask := by
    change ¬ s.queue.length < taskQueueSize
    rw [hback.queue]
    exact lt_irrefl _
  obtain ⟨t, hexec⟩ : ∃ t, (s.report (6 + taskQueueSize) readEvent).exec .addTask = some t := by
    simp only [Threads.exec, hpending]
    split <;> exact ⟨_, rfl⟩
  -- up to here every task found room
  have hconserved : Conserved history (s.report (6 + taskQueueSize) readEvent) :=
    hrun.invariant (by rintro _ rfl; exact conserved_init ∅ 3)
      fun _ _ _ _ h hroom hstep => (conserved_exec_iff h hstep).mpr hroom
  exact ⟨_, t, (hrun.mono fun _ _ _ => trivial).step trivial hexec,
    fun h => hfull ((conserved_exec_iff hconserved hexec).mp h)⟩

end DreamboatRpc.Server
