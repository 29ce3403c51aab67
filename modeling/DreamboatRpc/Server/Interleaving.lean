import Mathlib.Logic.Relation
import DreamboatRpc.CS.Slots
import DreamboatRpc.Server.System

/-!
# The threads of the server

The reactor thread and four workers, step by step: a handler is cut where it touches what
other threads may touch, the queues, the handler table, epoll and the open descriptors. The
statements of different workers may come in any order.

Where a handler returns without arming its descriptor, or a task is given up, the event
stays on record as abandoned.

## Main definitions

* `Point`, `Job` — how far a worker has come with an event
* `Threads` — the memory that the threads share, and where each of them is
* `Threads.step` — the next statement of a worker
* `threadsSystem` — the runs
* `Threads.outstanding` — the events that were delivered and not answered

## Main results

* `handle_alone` — the statements of a handler, one after another, are the handler
-/

namespace DreamboatRpc.Server

open CS Rpc Relation

variable {Service : Type}

/-! ## Where a worker is -/

/-- What `ServerTransport::Accept` meets: `accept` fails; it gives a descriptor, of which
`setsockopt` fails; or neither fails. -/
inductive Accepted
  | failed
  | refused (connfd : ℤ)
  | connected (connfd : ℤ)
  deriving DecidableEq

/-- The descriptor that `Accept` returns, if it does not return -1. -/
def Accepted.connfd : Accepted → Option ℤ
  | failed => none
  | refused _ => none
  | connected connfd => some connfd

/-- The next thing a worker does for an event. -/
inductive Point
  /-- `EventHandlerManager::HandleEvent` reads the handler table. -/
  | lookup (type : EventType)
  /-- `RpcRequestHandler::HandleReadEvent`, up to where it has a result -/
  | receive
  /-- `_pipe->Write` -/
  | push (result : RpcResult)
  /-- `_pipe.Empty` in `RpcServer::FileDescriptorEventDone` -/
  | test
  /-- `ModEvent` -/
  | arm (output : Bool)
  /-- `_pipe->Read`, with which `RpcResultSender::HandleWriteEvent` begins -/
  | pop
  | send (result : RpcResult)
  /-- `accept` and `setsockopt` -/
  | accept
  /-- `close` in `Accept` -/
  | refuse (connfd : ℤ)
  /-- The three calls of `AttachEventHandler` -/
  | attachReader (connfd : ℤ)
  | attachWriter (connfd : ℤ)
  | attachCloser (connfd : ℤ)
  /-- `AddEvent` -/
  | add (connfd : ℤ)
  /-- `DetachEventHandler`, `DelEvent` and `close` of `HandleCloseEvent` -/
  | detach
  | delete
  | close
  deriving DecidableEq

/-- A worker that handles an event of a descriptor. -/
structure Job where
  fd : ℤ
  point : Point
  deriving DecidableEq

/-- The queue that a worker reads or writes in what it does next. -/
def Job.queue (job : Job) : Option ℤ :=
  match job.point with
  | .push _ | .test | .pop => some job.fd
  | _ => none

/-! ## The state -/

instance : NeZero threadNum := ⟨by decide⟩

/-- The shared memory and the threads. Connections are numbered in the order they were
accepted. -/
structure Threads (Service : Type) where
  server : RpcServer Service
  pending : List Task
  queue : List Task
  workers : Fin threadNum → Option Job
  abandoned : List ℤ
  connection : ℤ → Option ℕ
  accepted : ℕ

/-- What can happen: epoll reports events of a descriptor, the reactor adds a task, a worker
takes one, or it goes on with the one it has. -/
inductive Move (Service : Type)
  | dispatch (fd : ℤ) (events : Events)
  | addTask
  | takeTask (w : Fin threadNum)
  | work (w : Fin threadNum) (input : Input Service) (accepted : Accepted)

namespace Threads

variable (s : Threads Service)

/-- Before the first client connects. -/
def init (dictionary : Dict (List UInt8) Service) (listenfd : ℤ) : Threads Service where
  server := .listen dictionary listenfd
  pending := []
  queue := []
  workers := fun _ => none
  abandoned := []
  connection := fun _ => none
  accepted := 0

/-- What epoll may report of a descriptor: only what it waits for, and something. -/
def Reports (fd : ℤ) (events : Events) : Prop :=
  ∃ output, s.server.interest fd = .armed output ∧ (events.output → output) ∧
    (events.err || events.rdhup || events.input || events.output || events.hup)

instance (fd : ℤ) (events : Events) : Decidable (s.Reports fd events) :=
  match h : s.server.interest fd with
  | .armed output => decidable_of_iff ((events.output → output) ∧
      (events.err || events.rdhup || events.input || events.output || events.hup))
      (by simp [Reports, h])
  | .absent => isFalse (by simp [Reports, h])
  | .disarmed => isFalse (by simp [Reports, h])

/-- Epoll reports an event, and disarms the descriptor. -/
def report (fd : ℤ) (type : EventType) : Threads Service :=
  { s with
    server := { s.server with interest := Function.update s.server.interest fd .disarmed }
    pending := s.pending ++ [⟨fd, type⟩] }

/-- A descriptor that is not open, as the kernel hands it out. -/
def Free (connfd : ℤ) : Prop :=
  0 ≤ connfd ∧ s.connection connfd = none ∧ connfd ≠ s.server.listenfd

instance (connfd : ℤ) : Decidable (s.Free connfd) := inferInstanceAs (Decidable (_ ∧ _ ∧ _))

/-- A worker goes on. -/
def goTo (w : Fin threadNum) (fd : ℤ) (point : Point) : Threads Service :=
  { s with workers := Function.update s.workers w (some ⟨fd, point⟩) }

/-- A worker is done with an event. -/
def finish (w : Fin threadNum) : Threads Service :=
  { s with workers := Function.update s.workers w none }

/-- A worker returns without having armed or closed the descriptor. -/
def abandon (w : Fin threadNum) (fd : ℤ) : Threads Service :=
  { s with workers := Function.update s.workers w none, abandoned := fd :: s.abandoned }

/-- `accept` opens a descriptor. -/
def opens (connfd : ℤ) : Threads Service :=
  { s with
    connection := Function.update s.connection connfd (some s.accepted)
    accepted := s.accepted + 1 }

/-- `close` -/
def closes (fd : ℤ) : Threads Service :=
  { s with connection := Function.update s.connection fd none }

/-- A call of `AttachEventHandler` -/
def attach (connfd : ℤ) (type : EventType) (handler : EventHandler) : Threads Service :=
  { s with
    server :=
      { s.server with list := s.server.list.attachEventHandler connfd type (some handler) } }

/-- The next statement of worker `w`, which handles an event of `fd`; `none` if it ends the
server, or if the kernel cannot have done what is given. -/
def step (w : Fin threadNum) (fd : ℤ) (input : Input Service) (accepted : Accepted) :
    Point → Option (Threads Service)
  | .lookup type =>
    match s.server.method fd type with
    | .nothing => some (s.abandon w fd)
    | .request => some (s.goTo w fd .receive)
    | .result => some (s.goTo w fd .pop)
    | .accept => some (s.goTo w fd .accept)
    | .close => some (s.goTo w fd .detach)
  | .receive =>
    match s.server.readOutcome input with
    | .exited => none
    | .undefined => none
    | .returned => some (s.abandon w fd)
    | .handled message result =>
      some (s.goTo w fd (if message.header.needReturn then .push result else .test))
  | .push result => some ({ s with server := s.server.pipeWrite fd result }.goTo w fd .test)
  | .test => some (s.goTo w fd (.arm (s.server.returnValues fd ≠ [])))
  | .arm output => some ({ s with server := s.server.modEvent fd output }.finish w)
  | .pop =>
    match s.server.returnValues fd with
    | [] => none
    | result :: rest =>
      some ({ s with server := s.server.pipeRead fd rest }.goTo w fd (.send result))
  | .send _ => if input.send = .error .other then none else some (s.goTo w fd .test)
  | .accept =>
    if fd ≠ s.server.listenfd then none
    else
      match accepted with
      -- what `Accept` returns is not checked
      | .failed => some (s.goTo w fd (.attachReader (-1)))
      | .refused connfd =>
        if s.Free connfd then some ((s.opens connfd).goTo w fd (.refuse connfd)) else none
      | .connected connfd =>
        if s.Free connfd then some ((s.opens connfd).goTo w fd (.attachReader connfd)) else none
  | .refuse connfd => some ((s.closes connfd).goTo w fd (.attachReader (-1)))
  | .attachReader connfd =>
    some ((s.attach connfd readEvent .requestHandler).goTo w fd (.attachWriter connfd))
  | .attachWriter connfd =>
    some ((s.attach connfd writeEvent .resultSender).goTo w fd (.attachCloser connfd))
  | .attachCloser connfd =>
    some ((s.attach connfd closeEvent .serverTransport).goTo w fd (.add connfd))
  -- then the listening socket is armed, which is the descriptor of this event
  | .add connfd => some ({ s with server := s.server.addEvent connfd }.goTo w fd (.arm false))
  | .detach =>
    some ({ s with
      server :=
        { s.server with
          list := s.server.list.detachEventHandler fd
            (readEvent ||| writeEvent ||| closeEvent) } }.goTo w fd .delete)
  | .delete => some ({ s with server := s.server.delEvent fd }.goTo w fd .close)
  | .close => some ((s.closes fd).finish w)

/-- The state after a move; `none` if it cannot happen or ends the server. -/
def exec : Move Service → Option (Threads Service)
  | .dispatch fd events => if s.Reports fd events then events.type.map (s.report fd) else none
  | .addTask =>
    match s.pending with
    | [] => none
    | task :: rest =>
      if s.queue.length < taskQueueSize then
        some { s with pending := rest, queue := s.queue ++ [task] }
      else some { s with pending := rest, abandoned := task.fd :: s.abandoned }
  | .takeTask w =>
    match s.queue, s.workers w with
    | task :: rest, none => some ({ s with queue := rest }.goTo w task.fd (.lookup task.type))
    | _, _ => none
  | .work w input accepted =>
    (s.workers w).bind fun job => s.step w job.fd input accepted job.point

/-- The descriptors of the events that were delivered, and whose descriptor was not armed
again or closed for them. -/
def outstanding : List ℤ :=
  (s.pending ++ s.queue).map Task.fd ++ ((contents s.workers).map Job.fd ++ s.abandoned)

end Threads

/-- The runs of a server with these services that listens on `listenfd`. -/
def threadsSystem (dictionary : Dict (List UInt8) Service) (listenfd : ℤ) :
    TransitionSystem (Threads Service) (Move Service) :=
  .ofExec (.init dictionary listenfd) Threads.exec

/-! ## A handler that is not interrupted -/

namespace Threads

variable {s t u : Threads Service} {w : Fin threadNum} {fd : ℤ} {type : EventType} {point : Point}
  {input : Input Service} {accepted : Accepted} {server : RpcServer Service}

/-- Worker `w` does its next statement, and its calls do what is given. -/
def Goes (w : Fin threadNum) (input : Input Service) (accepted : Accepted)
    (s t : Threads Service) : Prop :=
  s.exec (.work w input accepted) = some t

theorem goes (hw : s.workers w = some ⟨fd, point⟩)
    (hs : s.step w fd input accepted point = some t) : Goes w input accepted s t := by
  simp [Goes, exec, hw, hs]

/-- Worker `w` handles its event to the end, and leaves `server` in the memory of `s`. -/
def Handles (w : Fin threadNum) (input : Input Service) (accepted : Accepted)
    (s : Threads Service) (server : RpcServer Service) : Prop :=
  ∃ t, ReflTransGen (Goes w input accepted) s t ∧ t.server = server ∧
    t.workers = Function.update s.workers w none ∧ t.pending = s.pending ∧ t.queue = s.queue

theorem handles_of_step {point : Point} (hs : (u.goTo w fd point).step w fd input accepted point =
      some t) (hworkers : t.workers = Function.update u.workers w none)
    (hpending : t.pending = u.pending) (hqueue : t.queue = u.queue) :
    Handles w input accepted (u.goTo w fd point) t.server :=
  ⟨t, .single (goes (Function.update_self ..) hs), rfl,
    hworkers.trans (Function.update_idem ..).symm, hpending, hqueue⟩

/-- The first statement, and then the others. -/
theorem Handles.head {point next : Point} {v : Threads Service}
    (h : Handles w input accepted (v.goTo w fd next) server)
    (hs : (u.goTo w fd point).step w fd input accepted point = some (v.goTo w fd next))
    (hworkers : v.workers = u.workers) (hpending : v.pending = u.pending)
    (hqueue : v.queue = u.queue) : Handles w input accepted (u.goTo w fd point) server := by
  obtain ⟨t, hgoes, hserver, hends, hpending', hqueue'⟩ := h
  refine ⟨t, .head (goes (Function.update_self ..) hs) hgoes, hserver, ?_,
    hpending'.trans hpending, hqueue'.trans hqueue⟩
  simp [hends, goTo, hworkers]

theorem goTo_goTo (point next : Point) :
    (u.goTo w fd point).goTo w fd next = u.goTo w fd next := by
  simp [goTo]

theorem arm_alone (u : Threads Service) (output : Bool) :
    Handles w input accepted (u.goTo w fd (.arm output)) (u.server.modEvent fd output) :=
  handles_of_step (u := u) (t := { u with server := u.server.modEvent fd output }.finish w)
    (by simp [step, goTo, finish]) rfl rfl rfl

/-- `FileDescriptorEventDone` -/
theorem test_alone (u : Threads Service) :
    Handles w input accepted (u.goTo w fd .test) (u.server.fileDescriptorEventDone fd) :=
  (arm_alone u _).head (congrArg some (goTo_goTo _ _)) rfl rfl rfl

theorem receive_alone (u : Threads Service) (h : u.server.request fd input = .finished server) :
    Handles w input accepted (u.goTo w fd .receive) server := by
  rw [RpcServer.request] at h
  split at h
  · cases h
  · cases h
  · rename_i hreturned
    cases h
    refine handles_of_step (u := u) (t := u.abandon w fd) ?_ rfl rfl rfl
    simp [step, goTo, abandon, RpcServer.readOutcome, hreturned]
  · rename_i message result hhandled
    cases h
    have hreceive : (u.goTo w fd .receive).step w fd input accepted .receive =
        some (u.goTo w fd (if message.header.needReturn then .push result else .test)) := by
      simp [step, goTo, RpcServer.readOutcome, hhandled]
    rw [RpcServer.answer]
    split at hreceive
    · rename_i hneed
      rw [if_pos hneed]
      have hpush : Handles w input accepted (u.goTo w fd (.push result))
          ((u.server.pipeWrite fd result).fileDescriptorEventDone fd) :=
        (test_alone { u with server := u.server.pipeWrite fd result }).head
          (by simp [step, goTo]) rfl rfl rfl
      exact hpush.head hreceive rfl rfl rfl
    · rename_i hneed
      rw [if_neg hneed]
      exact (test_alone u).head hreceive rfl rfl rfl

theorem pop_alone (u : Threads Service) (h : u.server.result fd input = .finished server) :
    Handles w input accepted (u.goTo w fd .pop) server := by
  rw [RpcServer.result] at h
  split at h
  · cases h
  · rename_i result rest hqueue
    split at h
    · cases h
    · rename_i hsend
      cases h
      have hsent : Handles w input accepted
          ({ u with server := u.server.pipeRead fd rest }.goTo w fd (.send result))
          ((u.server.pipeRead fd rest).fileDescriptorEventDone fd) :=
        (test_alone { u with server := u.server.pipeRead fd rest }).head
          (by simp [step, goTo, hsend]) rfl rfl rfl
      exact hsent.head (by simp [step, goTo, hqueue]) rfl rfl rfl

/-- From `AttachEventHandler` on -/
theorem attach_alone (u : Threads Service) (connfd : ℤ) :
    Handles w input accepted (u.goTo w fd (.attachReader connfd))
      (({ u.server with list := RpcServer.attachAll u.server.list connfd }.addEvent
        connfd).modEvent fd false) := by
  have hadd : ∀ v : Threads Service, Handles w input accepted (v.goTo w fd (.add connfd))
      ((v.server.addEvent connfd).modEvent fd false) := fun v =>
    (arm_alone { v with server := v.server.addEvent connfd } false).head (by simp [step, goTo])
      rfl rfl rfl
  set reader := u.attach connfd readEvent .requestHandler with hreader
  set writer := reader.attach connfd writeEvent .resultSender with hwriter
  have hcloser : Handles w input accepted (writer.goTo w fd (.attachCloser connfd))
      (({ u.server with list := RpcServer.attachAll u.server.list connfd }.addEvent
        connfd).modEvent fd false) :=
    (hadd (writer.attach connfd closeEvent .serverTransport)).head
      (by simp [step, goTo, attach]) rfl rfl rfl
  have hsender : Handles w input accepted (reader.goTo w fd (.attachWriter connfd))
      (({ u.server with list := RpcServer.attachAll u.server.list connfd }.addEvent
        connfd).modEvent fd false) :=
    hcloser.head (by simp [step, goTo, attach, hwriter]) rfl rfl rfl
  exact hsender.head (by simp [step, goTo, attach, hreader]) rfl rfl rfl

theorem accept_alone (u : Threads Service) (hinput : input.accepted = accepted.connfd)
    (hfree : ∀ connfd, accepted = .refused connfd ∨ accepted = .connected connfd → u.Free connfd)
    (h : u.server.accept fd input = .finished server) :
    Handles w input accepted (u.goTo w fd .accept) server := by
  rw [RpcServer.accept] at h
  split at h
  · cases h
  · rename_i hlistening
    have hfd := not_not.mp hlistening
    subst hfd
    cases h
    rw [hinput]
    cases accepted with
    | failed => exact (attach_alone u (-1)).head (by simp [step, goTo]) rfl rfl rfl
    | refused connfd =>
      have hfree' := hfree connfd (.inl rfl)
      have hrefuse : Handles w input (.refused connfd)
          ((u.opens connfd).goTo w u.server.listenfd (.refuse connfd)) _ :=
        (attach_alone ((u.opens connfd).closes connfd) (-1)).head (by simp [step, goTo, closes])
          rfl rfl rfl
      refine hrefuse.head ?_ rfl rfl rfl
      simp only [step, goTo, opens, ne_eq, not_true_eq_false, if_false, Function.update_idem]
      exact if_pos hfree'
    | connected connfd =>
      have hfree' := hfree connfd (.inr rfl)
      refine (attach_alone (u.opens connfd) connfd).head ?_ rfl rfl rfl
      simp only [step, goTo, opens, ne_eq, not_true_eq_false, if_false, Function.update_idem]
      exact if_pos hfree'

theorem detach_alone (u : Threads Service) :
    Handles w input accepted (u.goTo w fd .detach) (u.server.close fd) := by
  set list := u.server.list.detachEventHandler fd (readEvent ||| writeEvent ||| closeEvent)
  set detached : Threads Service := { u with server := { u.server with list := list } }
  have hclose : Handles w input accepted
      ({ detached with server := detached.server.delEvent fd }.goTo w fd .close)
      (u.server.close fd) :=
    handles_of_step (u := { detached with server := detached.server.delEvent fd })
      (t := ({ detached with server := detached.server.delEvent fd }.closes fd).finish w)
      (by simp [step, goTo, closes, finish]) rfl rfl rfl
  have hdelete : Handles w input accepted (detached.goTo w fd .delete) (u.server.close fd) :=
    hclose.head (by simp [step, goTo]) rfl rfl rfl
  exact hdelete.head (by simp [step, goTo, detached, list]) rfl rfl rfl

/-- The statements of a handler that no other thread interrupts do what the handler does as
one step. -/
theorem handle_alone (u : Threads Service) (hinput : input.accepted = accepted.connfd)
    (hfree : ∀ connfd, accepted = .refused connfd ∨ accepted = .connected connfd → u.Free connfd)
    (h : u.server.handleEvent fd type input = .finished server) :
    Handles w input accepted (u.goTo w fd (.lookup type)) server := by
  cases hmethod : u.server.method fd type with
  | nothing =>
    simp only [RpcServer.handleEvent, hmethod, Outcome.finished.injEq] at h
    subst h
    refine handles_of_step (u := u) (t := u.abandon w fd) ?_ rfl rfl rfl
    simp [step, goTo, abandon, hmethod]
  | request =>
    rw [RpcServer.handleEvent_request hmethod] at h
    exact (receive_alone u h).head (by simp [step, goTo, hmethod]) rfl rfl rfl
  | result =>
    rw [RpcServer.handleEvent_result hmethod] at h
    exact (pop_alone u h).head (by simp [step, goTo, hmethod]) rfl rfl rfl
  | accept =>
    rw [RpcServer.handleEvent_accept hmethod] at h
    exact (accept_alone u hinput hfree h).head (by simp [step, goTo, hmethod]) rfl rfl rfl
  | close =>
    rw [RpcServer.handleEvent_close hmethod, Outcome.finished.injEq] at h
    subst h
    exact (detach_alone u).head (by simp [step, goTo, hmethod]) rfl rfl rfl

end Threads

end DreamboatRpc.Server
