import DreamboatRpc.Server.OneShot

/-!
# Handling is serialised

A descriptor has at most one event under way, whatever the order of the threads' statements
and however descriptor numbers are used again; no two workers meet at a queue; and a
descriptor that waits for `EPOLLOUT` has something to send.

## Main results

* `Disciplined.step` — every statement of a worker keeps the discipline
* `disciplined_of_reachable` — it holds in every state of every run
* `serialised` — one event for each descriptor, one worker at each queue, no empty pop
-/

namespace DreamboatRpc.Server

open CS Rpc

variable {Service : Type}

namespace Threads

variable {s t : Threads Service} {w w' : Fin threadNum} {fd connfd : ℤ} {point next : Point}
  {job job' : Job} {o : Option Job}

/-! ## The steps of a worker -/

namespace Disciplined

variable {input : Input Service} {accepted : Accepted}

theorem step_lookup (h : s.Disciplined) {type : EventType}
    (hw : s.workers w = some ⟨fd, .lookup type⟩)
    (hs : s.step w fd input accepted (.lookup type) = some t) : t.Disciplined := by
  obtain ⟨hdisarmed, hqueue⟩ := (h.working w _ hw).relies
  simp only [Threads.step] at hs
  split at hs
  · obtain rfl := Option.some.inj hs
    exact h.abandon hw rfl hdisarmed
  · obtain rfl := Option.some.inj hs
    exact h.goOn_self hw rfl hdisarmed hdisarmed rfl
  · rename_i hmethod
    obtain rfl := Option.some.inj hs
    exact h.goOn_self hw rfl hdisarmed ⟨hdisarmed, hqueue (writeEvent_of_method hmethod)⟩ rfl
  · obtain rfl := Option.some.inj hs
    exact h.goOn_self hw rfl hdisarmed hdisarmed rfl
  · rename_i hmethod
    obtain rfl := Option.some.inj hs
    -- the listening socket has no handler that closes
    have hne : fd ≠ s.server.listenfd := by
      rintro rfl
      exact closeSlot_of_method hmethod h.listening
    exact h.goOn_self hw rfl hdisarmed ⟨hdisarmed, hne⟩ rfl

theorem step_receive (h : s.Disciplined) (hw : s.workers w = some ⟨fd, .receive⟩)
    (hs : s.step w fd input accepted .receive = some t) : t.Disciplined := by
  have hdisarmed : s.server.interest fd = .disarmed := (h.working w _ hw).relies
  simp only [Threads.step] at hs
  split at hs
  · cases hs
  · cases hs
  · obtain rfl := Option.some.inj hs
    exact h.abandon hw rfl hdisarmed
  · obtain rfl := Option.some.inj hs
    split <;> exact h.goOn_self hw rfl hdisarmed hdisarmed rfl

/-- The descriptor is armed, for `EPOLLOUT` only if something is in its queue. -/
theorem step_arm (h : s.Disciplined) {output : Bool}
    (hw : s.workers w = some ⟨fd, .arm output⟩) :
    ({ s with server := s.server.modEvent fd output }.finish w).Disciplined := by
  obtain ⟨hdisarmed, hqueue⟩ := (h.working w _ hw).relies
  have hinterest : ∀ fd', (s.server.modEvent fd output).interest fd' =
      if fd' = fd then .armed output else s.server.interest fd' := by
    intro fd'
    simp [RpcServer.interest_modEvent, hdisarmed]
  refine h.of_step (o := none) hw [] rfl rfl rfl rfl (by simp) ⟨?_, ?_, ?_, ?_⟩
    (by simp [Point.guest]) (by simp) (by simp) ?_ (fun _ => ?_) ?_
  · intro fd' hne _
    exact (hinterest fd').trans (if_neg hne)
  · simp [finish]
  · exact fun _ _ _ => id
  · simp [finish]
  · intro harmed
    have hout : (s.server.modEvent fd output).interest fd = .armed true := harmed
    rw [hinterest, if_pos rfl, Interest.armed.injEq] at hout
    simpa [finish] using hqueue hout
  · simpa [finish] using h.held fd (mem_outstanding_of_job hw)
  · simpa [finish] using h.listening

theorem step_accept (h : s.Disciplined) (hw : s.workers w = some ⟨fd, .accept⟩)
    (hs : s.step w fd input accepted .accept = some t) : t.Disciplined := by
  have hdisarmed : s.server.interest fd = .disarmed := (h.working w _ hw).relies
  simp only [Threads.step] at hs
  split at hs
  · cases hs
  rename_i hlistening
  have hfd := not_not.mp hlistening
  split at hs
  · obtain rfl := Option.some.inj hs
    exact h.goOn_self hw rfl hdisarmed ⟨hdisarmed, hfd⟩ (by simp [Point.guest])
  · split at hs
    · rename_i hfree
      obtain rfl := Option.some.inj hs
      exact h.goOn_opens hw rfl hfree rfl ⟨hdisarmed, hfd⟩ hdisarmed
    · cases hs
  · split at hs
    · rename_i hfree
      obtain rfl := Option.some.inj hs
      exact h.goOn_opens hw rfl hfree (by simp [Point.guest, hfree.1]) ⟨hdisarmed, hfd⟩ hdisarmed
    · cases hs

/-- A descriptor of which `setsockopt` fails is closed again. -/
theorem step_refuse (h : s.Disciplined) (hw : s.workers w = some ⟨fd, .refuse connfd⟩) :
    ((s.closes connfd).goTo w fd (.attachReader (-1))).Disciplined := by
  obtain ⟨hdisarmed, hfd⟩ := (h.working w _ hw).relies
  have hguest : s.Guest connfd := (h.working w _ hw).guest connfd rfl
  have hidle : fd ≠ connfd := fun heq => hguest.idle (heq ▸ mem_outstanding_of_job hw)
  refine h.goOn hw rfl rfl rfl rfl ⟨?_, ?_, ?_, rfl⟩ ?_ ⟨hdisarmed, hfd⟩ (by simp [Point.guest]) ?_
    ?_ h.listening
  · exact fun _ _ _ => rfl
  · exact fun _ _ => rfl
  · intro fd' _ hne hopened
    have hother : fd' ≠ connfd := fun heq => hne (by rw [heq]; rfl)
    simpa [closes, hother] using hopened
  · intro g hg
    obtain rfl := Option.some.inj hg
    simp [closes, hguest.absent]
  · simp [closes, hdisarmed]
  · intro hopened
    simpa [closes, hidle] using hopened

theorem step_add (h : s.Disciplined) (hw : s.workers w = some ⟨fd, .add connfd⟩) :
    ({ s with server := s.server.addEvent connfd }.goTo w fd (.arm false)).Disciplined := by
  obtain ⟨hdisarmed, hfd⟩ := (h.working w _ hw).relies
  have hguest := (h.working w _ hw).guest
  by_cases hconnfd : 0 ≤ connfd
  swap
  · -- -1 is not a descriptor
    have hfails : s.server.addEvent connfd = s.server := by rw [RpcServer.addEvent, if_neg hconnfd]
    rw [hfails]
    exact h.goOn_self hw (by simp [Point.guest, hconnfd]) hdisarmed ⟨hdisarmed, by simp⟩ rfl
  have hset : Point.guest (.add connfd) = some connfd := by rw [Point.guest, if_pos hconnfd]
  obtain ⟨hopened, -, hidle, -⟩ := hguest connfd hset
  have hother : fd ≠ connfd := fun heq => hidle (heq ▸ mem_outstanding_of_job hw)
  have hinterest : ∀ fd', (s.server.addEvent connfd).interest fd' =
      if fd' = connfd then .armed false else s.server.interest fd' :=
    RpcServer.interest_addEvent _ hconnfd
  refine h.goOn hw rfl rfl rfl rfl ⟨?_, ?_, ?_, ?_⟩ ?_ ⟨?_, by simp⟩ (by simp [Point.guest])
    ?_ id ?_
  · intro fd' _ hne
    rw [hset] at hne
    exact (hinterest fd').trans (if_neg fun heq => hne (by rw [heq]))
  · simp
  · exact fun _ _ _ => id
  · simp
  · intro g hg
    rw [hset] at hg
    obtain rfl := Option.some.inj hg
    simp [hinterest, hopened]
  · rw [hinterest, if_neg hother, hdisarmed]
  · simp [hinterest, hother, hdisarmed]
  · simpa using h.listening

theorem step_detach (h : s.Disciplined) (hw : s.workers w = some ⟨fd, .detach⟩)
    {list : HandlerTable}
    (hlist : list = s.server.list.detachEventHandler fd (readEvent ||| writeEvent ||| closeEvent)) :
    ({ s with server := { s.server with list := list } }.goTo w fd .delete).Disciplined := by
  obtain ⟨hdisarmed, hfd⟩ := (h.working w _ hw).relies
  refine h.goOn hw rfl rfl rfl rfl ⟨?_, ?_, ?_, rfl⟩ (by simp [Point.guest]) ⟨hdisarmed, hfd⟩
    (by simp [Point.guest]) (by simp [hdisarmed]) id ?_
  · exact fun _ _ _ => rfl
  · exact fun _ _ => rfl
  · exact fun _ _ _ => id
  · change list (4 * s.server.listenfd + 2) = none
    rw [hlist, HandlerTable.detachEventHandler, HandlerTable.setEventHandler_all]
    split
    · rfl
    · exact h.listening

theorem step_delete (h : s.Disciplined) (hw : s.workers w = some ⟨fd, .delete⟩) :
    ({ s with server := s.server.delEvent fd }.goTo w fd .close).Disciplined := by
  obtain ⟨-, hfd⟩ := (h.working w _ hw).relies
  refine h.goOn hw rfl rfl rfl rfl ⟨?_, ?_, ?_, rfl⟩ (by simp [Point.guest]) ⟨?_, hfd⟩
    (by simp [Point.guest]) ?_ id h.listening
  · intro fd' hne _
    simp [RpcServer.delEvent, hne]
  · exact fun _ _ => rfl
  · exact fun _ _ _ => id
  · simp [RpcServer.delEvent]
  · simp [RpcServer.delEvent]

/-- Closing the descriptor is the last that is done for it. -/
theorem step_close (h : s.Disciplined) (hw : s.workers w = some ⟨fd, .close⟩) :
    ((s.closes fd).finish w).Disciplined := by
  obtain ⟨habsent, -⟩ := (h.working w _ hw).relies
  refine h.of_step (o := none) hw [] rfl rfl rfl rfl (by simp) ⟨?_, ?_, ?_, rfl⟩
    (by simp [Point.guest]) (by simp) (by simp) ?_ ?_ h.listening
  · exact fun _ _ _ => rfl
  · exact fun _ _ => rfl
  · intro fd' hne _ hopened
    simpa [closes, finish, hne] using hopened
  · intro harmed
    have harmed' : s.server.interest fd = .armed true := harmed
    simp [habsent] at harmed'
  · intro hleft
    simp [closes, finish, habsent] at hleft

/-- Every statement of a worker keeps the discipline. -/
theorem step (h : s.Disciplined) (hw : s.workers w = some ⟨fd, point⟩)
    (hs : s.step w fd input accepted point = some t) : t.Disciplined := by
  have hplaced := h.working w _ hw
  cases point with
  | lookup type => exact h.step_lookup hw hs
  | receive => exact h.step_receive hw hs
  | push result =>
    obtain rfl := Option.some.inj hs
    exact h.goOn_queue hw rfl hplaced.relies (.inl rfl)
  | test =>
    obtain rfl := Option.some.inj hs
    have hdisarmed : s.server.interest fd = .disarmed := hplaced.relies
    exact h.goOn_self hw rfl hdisarmed ⟨hdisarmed, of_decide_eq_true⟩ rfl
  | arm output =>
    obtain rfl := Option.some.inj hs
    exact h.step_arm hw
  | pop =>
    simp only [Threads.step] at hs
    split at hs
    · cases hs
    · rename_i result rest _
      obtain rfl := Option.some.inj hs
      exact h.goOn_queue hw rfl hplaced.relies.1 (.inr ⟨result, rfl⟩)
  | send result =>
    have hdisarmed : s.server.interest fd = .disarmed := hplaced.relies
    simp only [Threads.step] at hs
    split at hs
    · cases hs
    · obtain rfl := Option.some.inj hs
      exact h.goOn_self hw rfl hdisarmed hdisarmed rfl
  | accept => exact h.step_accept hw hs
  | refuse connfd =>
    obtain rfl := Option.some.inj hs
    exact h.step_refuse hw
  | attachReader connfd =>
    obtain rfl := Option.some.inj hs
    have hrelies : s.Relies fd (.attachWriter connfd) := hplaced.relies
    exact h.goOn_attach hw rfl rfl hrelies hrelies.1 (.inl rfl) _
  | attachWriter connfd =>
    obtain rfl := Option.some.inj hs
    have hrelies : s.Relies fd (.attachCloser connfd) := hplaced.relies
    exact h.goOn_attach hw rfl rfl hrelies hrelies.1 (.inr (.inl rfl)) _
  | attachCloser connfd =>
    obtain rfl := Option.some.inj hs
    have hrelies : s.Relies fd (.add connfd) := hplaced.relies
    exact h.goOn_attach hw rfl rfl hrelies hrelies.1 (.inr (.inr rfl)) _
  | add connfd =>
    obtain rfl := Option.some.inj hs
    exact h.step_add hw
  | detach =>
    obtain rfl := Option.some.inj hs
    exact h.step_detach hw rfl
  | delete =>
    obtain rfl := Option.some.inj hs
    exact h.step_delete hw
  | close =>
    obtain rfl := Option.some.inj hs
    exact h.step_close hw

end Disciplined

/-! ## The reactor and the task queue -/

namespace Disciplined

/-- What is under way is disarmed, or about to be closed. -/
theorem not_armed (h : s.Disciplined) (hfd : fd ∈ s.outstanding) (output : Bool) :
    s.server.interest fd ≠ .armed output := by
  obtain ⟨task, htask, rfl⟩ | ⟨w, job, hjob, rfl⟩ | habandoned := mem_outstanding.mp hfd
  · exact (h.waiting task htask).not_armed output
  · exact (h.working w job hjob).relies.not_armed output
  · simp [h.abandoned fd habandoned]

/-- Tasks are moved, and nothing else. -/
theorem of_perm (h : s.Disciplined) (hserver : t.server = s.server)
    (hconnection : t.connection = s.connection) (hperm : t.outstanding.Perm s.outstanding)
    (hwaiting : ∀ task ∈ t.pending ++ t.queue, task ∈ s.pending ++ s.queue)
    (hworking : ∀ w job, t.workers w = some job → s.workers w = some job ∨
      ∃ task ∈ s.pending ++ s.queue, job = ⟨task.fd, .lookup task.type⟩)
    (habandoned : ∀ fd ∈ t.abandoned, fd ∈ s.abandoned ∨
      ∃ task ∈ s.pending ++ s.queue, task.fd = fd) : t.Disciplined := by
  have hrelies : ∀ fd point, s.Relies fd point → t.Relies fd point :=
    fun fd point hr => hr.congr (by rw [hserver]) (by rw [hserver]) (by rw [hserver])
  constructor
  case nodup => exact hperm.nodup_iff.mpr h.nodup
  case waiting => exact fun task htask => hrelies _ _ (h.waiting task (hwaiting task htask))
  case working =>
    intro w job hjob
    rcases hworking w job hjob with hold | ⟨task, htask, rfl⟩
    · have hplaced := h.working w job hold
      refine ⟨hrelies _ _ hplaced.relies, fun g hg => ?_⟩
      obtain ⟨hopened, habsent, hidle, hne⟩ := hplaced.guest g hg
      exact ⟨by rwa [hconnection], by rwa [hserver], fun hmem => hidle (hperm.mem_iff.mp hmem),
        by rwa [hserver]⟩
    · exact ⟨hrelies _ _ (h.waiting task htask), by simp [Point.guest]⟩
  case abandoned =>
    intro fd hfd
    rw [hserver]
    rcases habandoned fd hfd with hold | ⟨task, htask, rfl⟩
    · exact h.abandoned fd hold
    · exact (h.waiting task htask).1
  case armed =>
    rw [hserver]
    exact h.armed
  case held =>
    intro fd hfd
    rw [hserver, hconnection]
    exact h.held fd (hperm.mem_iff.mp hfd)
  case registered =>
    rw [hserver, hconnection]
    exact h.registered
  case listening =>
    rw [hserver]
    exact h.listening
  case nonneg =>
    rw [hserver]
    exact h.nonneg

/-- Epoll reports an event of a descriptor that has none under way. -/
theorem report (h : s.Disciplined) {events : Events} {type : EventType}
    (hreports : s.Reports fd events) (htype : events.type = some type) :
    (s.report fd type).Disciplined := by
  obtain ⟨output, harmed, houtput, -⟩ := hreports
  have hidle : fd ∉ s.outstanding := fun hmem => h.not_armed hmem output harmed
  have hperm : (s.report fd type).outstanding.Perm (fd :: s.outstanding) :=
    outstanding_report type
  have hinterest : ∀ fd', (s.report fd type).server.interest fd' =
      if fd' = fd then .disarmed else s.server.interest fd' := by
    simp [Threads.report, Function.update_apply]
  have hmem : ∀ fd', fd' ∈ s.outstanding → fd' ≠ fd := fun fd' hfd' heq => hidle (heq ▸ hfd')
  have hother : ∀ fd' point, fd' ≠ fd → s.Relies fd' point → (s.report fd type).Relies fd' point :=
    fun fd' point hne hr => hr.congr ((hinterest fd').trans (if_neg hne)) rfl rfl
  -- an event of type `WRITE_EVENT` was waited for
  have hwrite : type = writeEvent → s.server.returnValues fd ≠ [] := by
    rintro rfl
    rw [houtput (Events.output_of_type htype)] at harmed
    exact h.armed fd harmed
  constructor
  case nodup => exact hperm.nodup_iff.mpr (List.nodup_cons.mpr ⟨hidle, h.nodup⟩)
  case waiting =>
    intro task htask
    simp only [Threads.report, List.append_assoc, List.mem_append, List.mem_singleton] at htask
    have hold : task ∈ s.pending ++ s.queue →
        (s.report fd type).Relies task.fd (.lookup task.type) := fun htask =>
      hother _ _ (hmem _ (mem_outstanding.mpr (.inl ⟨task, htask, rfl⟩))) (h.waiting task htask)
    rcases htask with hpending | rfl | hqueue
    · exact hold (List.mem_append_left _ hpending)
    · exact ⟨(hinterest fd).trans (if_pos rfl), hwrite⟩
    · exact hold (List.mem_append_right _ hqueue)
  case working =>
    intro w job hjob
    have hplaced := h.working w job hjob
    refine ⟨hother _ _ (hmem _ (mem_outstanding_of_job hjob)) hplaced.relies, fun g hg => ?_⟩
    obtain ⟨hopened, habsent, hnot, hne⟩ := hplaced.guest g hg
    have hgfd : g ≠ fd := by
      rintro rfl
      simp [habsent] at harmed
    refine ⟨hopened, ?_, fun hg' => ?_, hne⟩
    · rw [hinterest, if_neg hgfd, habsent]
    · exact (List.mem_cons.mp (hperm.mem_iff.mp hg')).elim hgfd hnot
  case abandoned =>
    intro fd' hfd'
    have hne := hmem fd' (mem_outstanding.mpr (.inr (.inr hfd')))
    rw [hinterest, if_neg hne]
    exact h.abandoned fd' hfd'
  case armed =>
    intro fd' hfd'
    rw [hinterest] at hfd'
    split at hfd'
    · cases hfd'
    · exact h.armed fd' hfd'
  case held =>
    intro fd' hfd'
    rcases List.mem_cons.mp (hperm.mem_iff.mp hfd') with rfl | hold
    · exact h.registered fd' (by simp [harmed])
    · exact h.held fd' hold
  case registered =>
    intro fd' hfd'
    by_cases hne : fd' = fd
    · subst hne
      exact h.registered fd' (by simp [harmed])
    · rw [hinterest, if_neg hne] at hfd'
      exact h.registered fd' hfd'
  case listening => exact h.listening
  case nonneg => exact h.nonneg

theorem exec (h : s.Disciplined) {m : Move Service} (hs : s.exec m = some t) :
    t.Disciplined := by
  cases m with
  | dispatch fd events =>
    simp only [Threads.exec] at hs
    split at hs
    · rename_i hreports
      obtain ⟨type, htype, rfl⟩ := Option.map_eq_some_iff.mp hs
      exact h.report hreports htype
    · cases hs
  | addTask =>
    have hperm := outstanding_addTask hs
    simp only [Threads.exec] at hs
    split at hs
    · cases hs
    · rename_i task rest hpending
      have htask : task ∈ s.pending ++ s.queue := by simp [hpending]
      have hrest : ∀ task' ∈ rest, task' ∈ s.pending ++ s.queue := by
        intro task' hmem
        rw [hpending]
        exact List.mem_append_left _ (List.mem_cons_of_mem _ hmem)
      split at hs
      · obtain rfl := Option.some.inj hs
        refine h.of_perm rfl rfl hperm (fun task' hmem => ?_) (fun w job => .inl) (fun fd => .inl)
        rcases List.mem_append.mp hmem with hmem | hmem
        · exact hrest task' hmem
        · rcases List.mem_append.mp hmem with hmem | hmem
          · exact List.mem_append_right _ hmem
          · rwa [List.mem_singleton.mp hmem]
      · obtain rfl := Option.some.inj hs
        refine h.of_perm rfl rfl hperm (fun task' hmem => ?_) (fun w job => .inl) (fun fd hfd => ?_)
        · exact (List.mem_append.mp hmem).elim (hrest task') (List.mem_append_right _)
        · rcases List.mem_cons.mp hfd with rfl | hold
          · exact .inr ⟨task, htask, rfl⟩
          · exact .inl hold
  | takeTask w =>
    have hperm := outstanding_takeTask hs
    simp only [Threads.exec] at hs
    split at hs
    · rename_i task rest hqueue hfree
      obtain rfl := Option.some.inj hs
      have htask : task ∈ s.pending ++ s.queue := by simp [hqueue]
      refine h.of_perm rfl rfl hperm (fun task' hmem => ?_) (fun w' job hjob => ?_) (fun fd => .inl)
      · rw [hqueue]
        rcases List.mem_append.mp hmem with hmem | hmem
        · exact List.mem_append_left _ hmem
        · exact List.mem_append_right _ (List.mem_cons_of_mem _ hmem)
      · simp only [goTo] at hjob
        by_cases hww : w' = w
        · subst hww
          rw [Function.update_self, Option.some.injEq] at hjob
          exact .inr ⟨task, htask, hjob.symm⟩
        · rw [Function.update_of_ne hww] at hjob
          exact .inl hjob
    · cases hs
  | work w input accepted =>
    obtain ⟨job, hjob, hstep⟩ := Option.bind_eq_some_iff.mp hs
    exact h.step hjob hstep

end Disciplined

theorem disciplined_init (dictionary : Dict (List UInt8) Service) {listenfd : ℤ}
    (hlisten : 0 ≤ listenfd) : (Threads.init dictionary listenfd).Disciplined := by
  have hnone : (Threads.init dictionary listenfd).outstanding = [] := by
    simp [outstanding, contents, Threads.init]
  constructor
  case nodup => simp [hnone]
  case waiting => simp [Threads.init]
  case working => simp [Threads.init]
  case abandoned => simp [Threads.init]
  case armed =>
    intro fd hfd
    simp only [Threads.init, RpcServer.listen, Function.update_apply] at hfd
    split at hfd <;> cases hfd
  case held => simp [hnone]
  case registered =>
    intro fd hfd
    simp only [Threads.init, RpcServer.listen, Function.update_apply] at hfd ⊢
    split at hfd
    · exact .inl ‹_›
    · exact absurd rfl hfd
  case listening =>
    simp only [Threads.init, RpcServer.listen, HandlerTable.attachEventHandler, Option.isSome_some,
      if_true, HandlerTable.setEventHandler_read]
    rw [Function.update_of_ne (by omega)]
  case nonneg => exact hlisten

theorem disciplined_of_reachable {dictionary : Dict (List UInt8) Service} {listenfd : ℤ}
    (hlisten : 0 ≤ listenfd) {G : Threads Service → Move Service → Prop}
    (h : (threadsSystem dictionary listenfd).Reachable G s) : s.Disciplined := by
  refine TransitionSystem.Reachable.invariant (I := Threads.Disciplined) ?_ ?_ h
  · rintro _ rfl
    exact disciplined_init dictionary hlisten
  · intro s m t hs _ hstep
    exact hs.exec hstep

end Threads

/-! ## The result -/

section Result

/-- A step of the threads. -/
abbrev ThreadsStep (Service : Type) := Transition (Threads Service) (Move Service)

/-- An event of the descriptor is delivered. -/
def delivers (fd : ℤ) (x : ThreadsStep Service) : Bool :=
  match x.event with
  | .dispatch fd' _ => fd' == fd
  | _ => false

/-- The handler of an event of the descriptor arms it again, or closes it. -/
def answers (fd : ℤ) (x : ThreadsStep Service) : Bool :=
  match x.event with
  | .work w _ _ => (x.source.workers w).any fun job => job.fd == fd && job.point.isLast
  | _ => false

variable {dictionary : Dict (List UInt8) Service} {listenfd : ℤ}
  {history : List (ThreadsStep Service)} {s t : Threads Service}

theorem count_outstanding_exec {m : Move Service} (hs : s.exec m = some t) (fd : ℤ) :
    (if delivers fd ⟨s, m, t⟩ then 1 else 0) + s.outstanding.count fd =
      (if answers fd ⟨s, m, t⟩ then 1 else 0) + t.outstanding.count fd := by
  cases m with
  | dispatch fd' events =>
    simp only [Threads.exec] at hs
    split at hs
    · obtain ⟨type, -, rfl⟩ := Option.map_eq_some_iff.mp hs
      rw [(Threads.outstanding_report type).count_eq, List.count_cons]
      simp only [delivers, answers, Bool.false_eq_true, if_false, Nat.zero_add]
      exact Nat.add_comm _ _
    · cases hs
  | addTask => simp [delivers, answers, (Threads.outstanding_addTask hs).count_eq]
  | takeTask w => simp [delivers, answers, (Threads.outstanding_takeTask hs).count_eq]
  | work w input accepted =>
    obtain ⟨job, hjob, hstep⟩ := Option.bind_eq_some_iff.mp hs
    obtain ⟨fd', point⟩ := job
    have hperm := Threads.outstanding_work hjob hstep
    simp only [delivers, answers, hjob, Option.any_some]
    split at hperm
    · rename_i hlast
      rw [hperm.count_eq, List.count_cons]
      simp only [hlast, Bool.and_true, Bool.false_eq_true, if_false, Nat.zero_add]
      exact Nat.add_comm _ _
    · rename_i hlast
      simp [hperm.count_eq, hlast]

/-- The events that were delivered are those that were answered and those under way. -/
theorem countP_delivers (hrun : (threadsSystem dictionary listenfd).Run unguarded history s)
    (fd : ℤ) : history.countP (delivers fd) =
      history.countP (answers fd) + s.outstanding.count fd := by
  induction hrun with
  | init hinit =>
    cases hinit
    simp [Threads.outstanding, contents, Threads.init]
  | step _ _ hstep ih =>
    have hcount := count_outstanding_exec hstep fd
    rw [List.countP_cons, List.countP_cons]
    omega

/-- In every state of every run: at most one event of a descriptor was delivered and not
answered by arming or closing it, and then the descriptor is still open; no two workers are
at the same queue; and what is about to be read is not empty. -/
theorem serialised (hlisten : 0 ≤ listenfd)
    (hrun : (threadsSystem dictionary listenfd).Run unguarded history s) :
    (∀ fd, history.countP (delivers fd) ≤ history.countP (answers fd) + 1 ∧
      (history.countP (delivers fd) = history.countP (answers fd) + 1 →
        fd = s.server.listenfd ∨ s.connection fd ≠ none)) ∧
    (∀ w w' job job' fd, s.workers w = some job → s.workers w' = some job' →
      job.queue = some fd → job'.queue = some fd → w = w') ∧
    ∀ w fd, s.workers w = some ⟨fd, .pop⟩ → s.server.returnValues fd ≠ [] := by
  have hs := Threads.disciplined_of_reachable hlisten ⟨history, hrun⟩
  have hqueue : ∀ {job : Job} {fd : ℤ}, job.queue = some fd → job.fd = fd := by
    intro job fd hfd
    obtain ⟨fd', point⟩ := job
    cases point <;> simp_all [Job.queue]
  refine ⟨fun fd => ?_, ?_, fun w fd hw => (hs.working w _ hw).relies.2⟩
  · have hcount := countP_delivers hrun fd
    have hone : s.outstanding.count fd ≤ 1 := List.nodup_iff_count_le_one.mp hs.nodup fd
    refine ⟨by omega, fun heq => hs.held fd (List.count_pos_iff.mp ?_)⟩
    omega
  · intro w w' job job' fd hw hw' hjob hjob'
    exact hs.fd_inj hw hw' ((hqueue hjob).trans (hqueue hjob').symm)

/-- `EPOLLOUT` and nothing else -/
def Events.writable : Events := ⟨false, false, false, true, false⟩

/-- Worker `0` accepts descriptor 5, worker `1` handles a request that arrives there, and
worker `0` gets the event that the result can be sent. -/
def answersRequest : List (Move Unit) :=
  let input := requestInput (requestHeader [97] 1 true).toBytes [0]
  [.dispatch 3 .readable, .addTask, .takeTask 0] ++
    List.replicate 7 (.work 0 input (.connected 5)) ++
    [.dispatch 5 .readable, .addTask, .takeTask 1] ++ List.replicate 5 (.work 1 input .failed) ++
    [.dispatch 5 .writable, .addTask, .takeTask 0, .work 0 input .failed]

/-- Worker `0` is about to read the queue of descriptor 5. -/
def readsQueue (s : Threads Unit) : Bool := decide (s.workers 0 = some ⟨5, .pop⟩)

theorem serialised_answersRequest : ∃ (history : List (ThreadsStep Unit)) (s : Threads Unit),
    (threadsSystem ((∅ : Dict (List UInt8) Unit).set [97] ()) 3).Run unguarded history s ∧
      s.workers 0 = some ⟨5, .pop⟩ ∧ s.server.returnValues 5 ≠ [] := by
  have hreplay : (replay Threads.exec (fun _ _ => true) []
      (Threads.init ((∅ : Dict (List UInt8) Unit).set [97] ()) 3) answersRequest).any
        (fun r => readsQueue r.2) = true := by decide +kernel
  obtain ⟨history, s, hrun, htest⟩ := exists_run_of_replay (fun _ s => readsQueue s) hreplay
  have hrun' : (threadsSystem ((∅ : Dict (List UInt8) Unit).set [97] ()) 3).Run unguarded
      history s := hrun.mono fun _ _ _ => trivial
  have hpop := of_decide_eq_true htest
  exact ⟨history, s, hrun', hpop, (serialised (by decide) hrun').2.2 0 5 hpop⟩

end Result

end DreamboatRpc.Server
