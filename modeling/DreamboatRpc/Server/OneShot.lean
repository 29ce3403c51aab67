import DreamboatRpc.Server.Interleaving

/-!
# The one-shot discipline

A delivered event disarms its descriptor, and the handler arms it again only when it is
done with the queue, or closes it as the last thing it does. What a worker relies on
concerns the descriptor of its event and the one it sets up, so a statement of another
worker leaves it alone.

## Main definitions

* `Threads.Frame`, `Threads.Leaves` — what a statement leaves alone, and how it ends
* `Threads.Guest` — a descriptor that a worker sets up
* `Threads.Relies`, `Threads.Placed` — what holds of memory where a worker is
* `Threads.Disciplined` — the invariant

## Main results

* `leaves_of_step` — the ways in which a statement ends
* `outstanding_work` — a statement ends an event only by arming or closing its descriptor
* `Disciplined.of_step` — what a statement has to keep for the invariant to hold
-/

namespace DreamboatRpc.Server

open CS Rpc

variable {Service : Type}

/-- The descriptor that a worker sets up. -/
def Point.guest : Point → Option ℤ
  | .refuse connfd => some connfd
  | .attachReader connfd | .attachWriter connfd | .attachCloser connfd | .add connfd =>
    if 0 ≤ connfd then some connfd else none
  | _ => none

/-- The descriptor is armed again, or closed. -/
def Point.isLast : Point → Bool
  | .arm _ | .close => true
  | _ => false

namespace Threads

/-! ## The invariant -/

section Invariant

variable (s : Threads Service)

/-- A descriptor that was just accepted: it is open, and neither epoll nor a worker has
anything to do with it. -/
structure Guest (connfd : ℤ) : Prop where
  opened : s.connection connfd ≠ none
  absent : s.server.interest connfd = .absent
  idle : connfd ∉ s.outstanding
  ne_listenfd : connfd ≠ s.server.listenfd

/-- What a worker that handles an event of `fd` relies on at a point. -/
def Relies (fd : ℤ) : Point → Prop
  | .lookup type => s.server.interest fd = .disarmed ∧
      (type = writeEvent → s.server.returnValues fd ≠ [])
  | .pop => s.server.interest fd = .disarmed ∧ s.server.returnValues fd ≠ []
  | .arm output => s.server.interest fd = .disarmed ∧
      (output = true → s.server.returnValues fd ≠ [])
  | .refuse _ | .attachReader _ | .attachWriter _ | .attachCloser _ | .add _ =>
    s.server.interest fd = .disarmed ∧ fd = s.server.listenfd
  | .detach | .delete => s.server.interest fd = .disarmed ∧ fd ≠ s.server.listenfd
  | .close => s.server.interest fd = .absent ∧ fd ≠ s.server.listenfd
  | .receive | .push _ | .test | .send _ | .accept => s.server.interest fd = .disarmed

/-- What holds of memory where a worker is. -/
structure Placed (job : Job) : Prop where
  relies : s.Relies job.fd job.point
  guest : ∀ connfd, job.point.guest = some connfd → s.Guest connfd

/-- No two events of a descriptor are under way, and nothing is armed that should not be. -/
structure Disciplined : Prop where
  nodup : s.outstanding.Nodup
  waiting : ∀ task ∈ s.pending ++ s.queue, s.Relies task.fd (.lookup task.type)
  working : ∀ w job, s.workers w = some job → s.Placed job
  abandoned : ∀ fd ∈ s.abandoned, s.server.interest fd = .disarmed
  armed : ∀ fd, s.server.interest fd = .armed true → s.server.returnValues fd ≠ []
  held : ∀ fd ∈ s.outstanding, fd = s.server.listenfd ∨ s.connection fd ≠ none
  registered : ∀ fd, s.server.interest fd ≠ .absent →
    fd = s.server.listenfd ∨ s.connection fd ≠ none
  listening : s.server.list (4 * s.server.listenfd + 2) = none
  nonneg : 0 ≤ s.server.listenfd

end Invariant

variable {s t : Threads Service} {w w' : Fin threadNum} {fd connfd : ℤ} {point next : Point}
  {job job' : Job} {o : Option Job}

/-! ## How a statement ends -/

/-- What every statement leaves as it is: the workers, the tasks, and what is not open, except for
the descriptor that is accepted. -/
structure Frame (accepted : Accepted) (s u : Threads Service) : Prop where
  workers : u.workers = s.workers
  pending : u.pending = s.pending
  queue : u.queue = s.queue
  abandoned : u.abandoned = s.abandoned
  unopened : ∀ fd, accepted ≠ .refused fd → accepted ≠ .connected fd →
    s.connection fd = none → u.connection fd = none

/-- After a statement the worker goes on with its event; or is done with it, when the descriptor
was armed or closed; or gives it up. -/
inductive Leaves (accepted : Accepted) (w : Fin threadNum) (fd : ℤ) (s : Threads Service)
    (last : Bool) : Threads Service → Prop
  | goesOn {u : Threads Service} {next : Point} (hlast : last = false)
      (hframe : Frame accepted s u) :
      Leaves accepted w fd s last (u.goTo w fd next)
  | finishes {u : Threads Service} (hlast : last = true) (hframe : Frame accepted s u) :
      Leaves accepted w fd s last (u.finish w)
  | abandons (hlast : last = false) : Leaves accepted w fd s last (s.abandon w fd)

theorem Frame.of_connection {accepted : Accepted} {u : Threads Service}
    (hworkers : u.workers = s.workers) (hpending : u.pending = s.pending)
    (hqueue : u.queue = s.queue) (habandoned : u.abandoned = s.abandoned)
    (hconnection : u.connection = s.connection) : Frame accepted s u :=
  ⟨hworkers, hpending, hqueue, habandoned, fun fd _ _ hnone => by rw [hconnection, hnone]⟩

theorem Frame.closes {accepted : Accepted} : Frame accepted s (s.closes fd) := by
  refine ⟨rfl, rfl, rfl, rfl, fun fd' _ _ hnone => ?_⟩
  simp only [Threads.closes, Function.update_apply]
  split
  · rfl
  · exact hnone

theorem Frame.opens {accepted : Accepted}
    (h : accepted = .refused connfd ∨ accepted = .connected connfd) :
    Frame accepted s (s.opens connfd) := by
  refine ⟨rfl, rfl, rfl, rfl, fun fd' hrefused hconnected hnone => ?_⟩
  have hne : fd' ≠ connfd := by
    rintro rfl
    exact h.elim hrefused hconnected
  simpa only [Threads.opens, Function.update_of_ne hne] using hnone

/-- Every statement of a worker ends in one of these ways. -/
theorem leaves_of_step {input : Input Service} {accepted : Accepted}
    (hs : s.step w fd input accepted point = some t) :
    Leaves accepted w fd s point.isLast t := by
  have hsame : Frame accepted s s := .of_connection rfl rfl rfl rfl rfl
  cases point with
  | lookup type =>
    simp only [Threads.step] at hs
    split at hs <;> obtain rfl := Option.some.inj hs
    · exact .abandons rfl
    all_goals exact .goesOn rfl hsame
  | receive =>
    simp only [Threads.step] at hs
    split at hs
    · cases hs
    · cases hs
    · obtain rfl := Option.some.inj hs
      exact .abandons rfl
    · obtain rfl := Option.some.inj hs
      exact .goesOn rfl hsame
  | arm output =>
    obtain rfl := Option.some.inj hs
    exact .finishes rfl (.of_connection rfl rfl rfl rfl rfl)
  | close =>
    obtain rfl := Option.some.inj hs
    exact .finishes rfl .closes
  | pop =>
    simp only [Threads.step] at hs
    split at hs
    · cases hs
    · obtain rfl := Option.some.inj hs
      exact .goesOn rfl (.of_connection rfl rfl rfl rfl rfl)
  | send result =>
    simp only [Threads.step] at hs
    split at hs
    · cases hs
    · obtain rfl := Option.some.inj hs
      exact .goesOn rfl hsame
  | accept =>
    simp only [Threads.step] at hs
    split at hs
    · cases hs
    split at hs
    · obtain rfl := Option.some.inj hs
      exact .goesOn rfl hsame
    · split at hs
      · obtain rfl := Option.some.inj hs
        exact .goesOn rfl (.opens (.inl rfl))
      · cases hs
    · split at hs
      · obtain rfl := Option.some.inj hs
        exact .goesOn rfl (.opens (.inr rfl))
      · cases hs
  | refuse connfd =>
    obtain rfl := Option.some.inj hs
    exact .goesOn rfl .closes
  | push _ | test | attachReader _ | attachWriter _ | attachCloser _ | add _ | detach | delete =>
    obtain rfl := Option.some.inj hs
    exact .goesOn rfl (.of_connection rfl rfl rfl rfl rfl)

/-! ## The events under way -/

theorem mem_outstanding : fd ∈ s.outstanding ↔
    (∃ task ∈ s.pending ++ s.queue, task.fd = fd) ∨
      (∃ w job, s.workers w = some job ∧ job.fd = fd) ∨ fd ∈ s.abandoned := by
  simp only [outstanding, List.mem_append, List.mem_map, mem_contents]
  grind

theorem mem_outstanding_of_job (h : s.workers w = some job) : job.fd ∈ s.outstanding :=
  mem_outstanding.mpr (.inr (.inl ⟨w, job, h, rfl⟩))

/-- The events under way with and without the one of a worker. -/
theorem outstanding_update (s : Threads Service) (w : Fin threadNum) (o : Option Job) :
    ∃ rest, s.outstanding.Perm ((s.workers w).toList.map Job.fd ++ (rest ++ s.abandoned)) ∧
      ∀ t : Threads Service, t.workers = Function.update s.workers w o →
        t.pending = s.pending → t.queue = s.queue →
        t.outstanding.Perm (o.toList.map Job.fd ++ (rest ++ t.abandoned)) := by
  obtain ⟨rest, hbefore, hafter⟩ := contents_update s.workers w o
  -- the tasks come first in the list and are moved behind the worker
  have hmove : ∀ (a b c d : List ℤ), (a ++ ((b ++ c) ++ d)).Perm (b ++ ((a ++ c) ++ d)) := by
    intro a b c d
    have hswap : (a ++ b ++ (c ++ d)).Perm (b ++ a ++ (c ++ d)) :=
      List.perm_append_comm.append_right (c ++ d)
    simpa [List.append_assoc] using hswap
  refine ⟨(s.pending ++ s.queue).map Task.fd ++ rest.map Job.fd, ?_, ?_⟩
  · refine List.Perm.trans ?_ (hmove _ _ _ _)
    rw [← List.map_append]
    exact ((hbefore.map Job.fd).append_right _).append_left _
  · intro t hworkers hpending hqueue
    refine List.Perm.trans ?_ (hmove _ _ _ _)
    rw [outstanding, hworkers, hpending, hqueue, ← List.map_append]
    exact ((hafter.map Job.fd).append_right _).append_left _

/-- A worker goes on with its event, or is done with it, or abandons it. -/
theorem outstanding_step (hw : s.workers w = some ⟨fd, point⟩) (left : List ℤ)
    (hworkers : t.workers = Function.update s.workers w o) (hpending : t.pending = s.pending)
    (hqueue : t.queue = s.queue) (habandoned : t.abandoned = left ++ s.abandoned) :
    ∃ rest, s.outstanding.Perm (fd :: rest) ∧
      t.outstanding.Perm ((o.toList.map Job.fd ++ left) ++ rest) := by
  obtain ⟨rest, hbefore, hafter⟩ := outstanding_update s w o
  refine ⟨rest ++ s.abandoned, by simpa [hw] using hbefore, ?_⟩
  refine (hafter t hworkers hpending hqueue).trans ?_
  rw [habandoned, List.append_assoc]
  refine List.Perm.append_left _ ?_
  rw [← List.append_assoc, ← List.append_assoc]
  exact List.perm_append_comm.append_right _

theorem outstanding_goTo (hw : s.workers w = some ⟨fd, point⟩) {u : Threads Service}
    (hworkers : u.workers = s.workers) (hpending : u.pending = s.pending)
    (hqueue : u.queue = s.queue) (habandoned : u.abandoned = s.abandoned) :
    (u.goTo w fd next).outstanding.Perm s.outstanding := by
  have hupdate : (u.goTo w fd next).workers = Function.update s.workers w (some ⟨fd, next⟩) := by
    rw [goTo, hworkers]
  obtain ⟨rest, hbefore, hafter⟩ :=
    outstanding_step hw [] hupdate hpending hqueue habandoned
  exact hafter.trans hbefore.symm

theorem outstanding_finish (hw : s.workers w = some ⟨fd, point⟩) {u : Threads Service}
    (hworkers : u.workers = s.workers) (hpending : u.pending = s.pending)
    (hqueue : u.queue = s.queue) (habandoned : u.abandoned = s.abandoned) :
    s.outstanding.Perm (fd :: (u.finish w).outstanding) := by
  have hupdate : (u.finish w).workers = Function.update s.workers w none := by
    rw [finish, hworkers]
  obtain ⟨rest, hbefore, hafter⟩ :=
    outstanding_step hw [] hupdate hpending hqueue habandoned
  exact hbefore.trans (List.Perm.cons _ hafter.symm)

theorem outstanding_abandon (hw : s.workers w = some ⟨fd, point⟩) :
    (s.abandon w fd).outstanding.Perm s.outstanding := by
  obtain ⟨rest, hbefore, hafter⟩ :=
    outstanding_step (t := s.abandon w fd) hw [fd] rfl rfl rfl rfl
  exact hafter.trans hbefore.symm

theorem outstanding_report (type : EventType) :
    (s.report fd type).outstanding.Perm (fd :: s.outstanding) := by
  simp only [outstanding, Threads.report, List.map_append, List.append_assoc,
    List.singleton_append]
  exact List.perm_middle

theorem outstanding_addTask (hs : s.exec .addTask = some t) :
    t.outstanding.Perm s.outstanding := by
  simp only [Threads.exec] at hs
  split at hs
  · cases hs
  · rename_i task rest hpending
    split at hs
    · obtain rfl := Option.some.inj hs
      have hmoved : (rest ++ (s.queue ++ [task])).Perm (s.pending ++ s.queue) := by
        rw [hpending, ← List.append_assoc]
        exact List.perm_append_singleton task _
      exact (hmoved.map Task.fd).append_right _
    · obtain rfl := Option.some.inj hs
      simp only [outstanding, hpending, List.cons_append, List.map_cons, ← List.append_assoc]
      exact List.perm_middle

theorem outstanding_takeTask (hs : s.exec (.takeTask w) = some t) :
    t.outstanding.Perm s.outstanding := by
  simp only [Threads.exec] at hs
  split at hs
  · rename_i task rest hqueue hfree
    obtain rfl := Option.some.inj hs
    obtain ⟨others, hbefore, hafter⟩ := outstanding_update { s with queue := rest } w
      (some ⟨task.fd, .lookup task.type⟩)
    refine (hafter ({ s with queue := rest }.goTo w task.fd (.lookup task.type)) rfl rfl
      rfl).trans ?_
    have hless : ({ s with queue := rest } : Threads Service).outstanding.Perm
        (others ++ s.abandoned) := by simpa [hfree] using hbefore
    refine List.Perm.trans (List.Perm.cons _ hless.symm) ?_
    simp only [outstanding, hqueue, List.map_append, List.map_cons, List.append_assoc,
      List.cons_append]
    exact List.perm_middle.symm
  · cases hs

/-- A statement of a worker does not change which events are under way, unless it arms or
closes the descriptor. -/
theorem outstanding_work {input : Input Service} {accepted : Accepted}
    (hw : s.workers w = some ⟨fd, point⟩) (hs : s.step w fd input accepted point = some t) :
    if point.isLast then s.outstanding.Perm (fd :: t.outstanding)
    else t.outstanding.Perm s.outstanding := by
  cases leaves_of_step hs with
  | goesOn hlast hframe =>
    rw [hlast]
    exact outstanding_goTo hw hframe.workers hframe.pending hframe.queue hframe.abandoned
  | finishes hlast hframe =>
    rw [hlast]
    exact outstanding_finish hw hframe.workers hframe.pending hframe.queue hframe.abandoned
  | abandons hlast =>
    rw [hlast]
    exact outstanding_abandon hw

namespace Disciplined

/-- Workers handle events of different descriptors. -/
theorem fd_inj (h : s.Disciplined) (hw : s.workers w = some job) (hw' : s.workers w' = some job')
    (heq : job.fd = job'.fd) : w = w' := by
  have hnodup := h.nodup
  rw [outstanding, List.nodup_append, List.nodup_append] at hnodup
  exact eq_of_nodup_contents hnodup.2.1.1 hw hw' heq

/-- A worker's descriptor is not the one that another event under way is of. -/
theorem fd_ne_of_task (h : s.Disciplined) (hw : s.workers w = some job) {task : Task}
    (htask : task ∈ s.pending ++ s.queue) : task.fd ≠ job.fd := by
  have hnodup := h.nodup
  rw [outstanding, List.nodup_append] at hnodup
  refine hnodup.2.2 _ (List.mem_map_of_mem htask) _ (List.mem_append_left _ ?_)
  exact List.mem_map_of_mem (mem_contents.mpr ⟨w, hw⟩)

theorem fd_ne_of_abandoned (h : s.Disciplined) (hw : s.workers w = some job)
    (hfd : fd ∈ s.abandoned) : fd ≠ job.fd := by
  have hnodup := h.nodup
  rw [outstanding, List.nodup_append, List.nodup_append] at hnodup
  have hne := hnodup.2.1.2.2 _ (List.mem_map_of_mem (mem_contents.mpr ⟨w, hw⟩)) fd hfd
  exact Ne.symm hne

/-- Only one worker sets up a descriptor. -/
theorem guest_inj (h : s.Disciplined) (hw : s.workers w = some job)
    (hw' : s.workers w' = some job') (hguest : job.point.guest ≠ none)
    (hguest' : job'.point.guest ≠ none) : w = w' := by
  have hlistens : ∀ {v : Fin threadNum} {j : Job}, s.workers v = some j →
      j.point.guest ≠ none → j.fd = s.server.listenfd := by
    intro v j hv hg
    obtain ⟨fd, point⟩ := j
    have hrelies := (h.working v _ hv).relies
    cases point <;> simp_all [Point.guest, Relies]
  exact h.fd_inj hw hw' ((hlistens hw hguest).trans (hlistens hw' hguest').symm)

end Disciplined

/-! ## What a worker leaves alone -/

/-- `t` has what `s` has of all descriptors but `fd` and the one that is set up. -/
structure Apart (s t : Threads Service) (fd : ℤ) (guest : Option ℤ) : Prop where
  interest : ∀ fd' ≠ fd, guest ≠ some fd' → t.server.interest fd' = s.server.interest fd'
  returnValues : ∀ fd' ≠ fd, t.server.returnValues fd' = s.server.returnValues fd'
  connection : ∀ fd' ≠ fd, guest ≠ some fd' → s.connection fd' ≠ none → t.connection fd' ≠ none
  listenfd : t.server.listenfd = s.server.listenfd

theorem Relies.congr {fd' : ℤ} (h : s.Relies fd' point)
    (hinterest : t.server.interest fd' = s.server.interest fd')
    (hqueue : t.server.returnValues fd' = s.server.returnValues fd')
    (hlistenfd : t.server.listenfd = s.server.listenfd) : t.Relies fd' point := by
  cases point <;> simpa only [Relies, hinterest, hqueue, hlistenfd] using h

/-- A worker is at work on a descriptor that does not wait for events. -/
theorem Relies.not_armed (h : s.Relies fd point) (output : Bool) :
    s.server.interest fd ≠ .armed output := by
  have hcases : s.server.interest fd = .disarmed ∨ s.server.interest fd = .absent := by
    cases point with
    | close => exact .inr h.1
    | receive | push | test | send | accept => exact .inl h
    | _ => exact .inl h.1
  rcases hcases with hinterest | hinterest <;> simp [hinterest]

namespace Disciplined

/-- The statement of one worker leaves what another relies on. -/
theorem placed_of_apart (h : s.Disciplined) (hw : s.workers w = some ⟨fd, point⟩)
    (hapart : Apart s t fd point.guest) (hsubset : t.outstanding ⊆ s.outstanding) (hne : w' ≠ w)
    (hw' : s.workers w' = some job) : t.Placed job := by
  have hplaced := h.working w' job hw'
  have hfd : job.fd ≠ fd := fun heq => hne (h.fd_inj hw' hw heq)
  have hguest : point.guest ≠ some job.fd :=
    fun hg => ((h.working w _ hw).guest job.fd hg).idle (mem_outstanding_of_job hw')
  constructor
  · exact hplaced.relies.congr (hapart.interest _ hfd hguest) (hapart.returnValues _ hfd)
      hapart.listenfd
  · intro g hg
    have hold := hplaced.guest g hg
    have hgfd : g ≠ fd := fun heq => hold.idle (heq ▸ mem_outstanding_of_job hw)
    -- two workers cannot both set up a descriptor
    have hnot : point.guest ≠ some g := by
      intro hpoint
      exact hne (h.guest_inj hw' hw (by simp [hg]) (by simp [hpoint]))
    constructor
    case opened => exact hapart.connection g hgfd hnot hold.opened
    case absent => exact (hapart.interest g hgfd hnot).trans hold.absent
    case idle => exact fun hmem => hold.idle (hsubset hmem)
    case ne_listenfd =>
      rw [hapart.listenfd]
      exact hold.ne_listenfd

/-- The steps of a worker: it is enough to look at its own descriptor and the one it sets
up. -/
theorem of_step (h : s.Disciplined) (hw : s.workers w = some ⟨fd, point⟩) (left : List ℤ)
    (hworkers : t.workers = Function.update s.workers w o) (hpending : t.pending = s.pending)
    (hqueue : t.queue = s.queue) (habandoned : t.abandoned = left ++ s.abandoned)
    (hkept : (o.toList.map Job.fd ++ left).Sublist [fd]) (hapart : Apart s t fd point.guest)
    (hguest : ∀ g, point.guest = some g → t.server.interest g ≠ .armed true ∧
      (t.server.interest g ≠ .absent → t.connection g ≠ none))
    (hnext : t.outstanding ⊆ s.outstanding → ∀ job, o = some job → t.Placed job)
    (hleft : left ≠ [] → t.server.interest fd = .disarmed)
    (harmed : t.server.interest fd = .armed true → t.server.returnValues fd ≠ [])
    (hopen : o ≠ none ∨ left ≠ [] ∨ t.server.interest fd ≠ .absent →
      fd = t.server.listenfd ∨ t.connection fd ≠ none)
    (htable : t.server.list (4 * t.server.listenfd + 2) = none) : t.Disciplined := by
  obtain ⟨rest, hbefore, hafter⟩ := outstanding_step hw left hworkers hpending hqueue habandoned
  have hsubperm : t.outstanding.Subperm s.outstanding := by
    refine hafter.subperm.trans (List.Subperm.trans ?_ hbefore.symm.subperm)
    exact (hkept.append_right rest).subperm
  have hsubset : t.outstanding ⊆ s.outstanding := hsubperm.subset
  have hout : ∀ fd' ∈ rest, fd' ≠ fd := by
    have hnodup := hbefore.nodup_iff.mp h.nodup
    exact fun fd' hfd' heq => (List.nodup_cons.mp hnodup).1 (heq ▸ hfd')
  have hgone : ∀ fd' ∈ s.outstanding, point.guest ≠ some fd' :=
    fun fd' hfd' hg => ((h.working w _ hw).guest fd' hg).idle hfd'
  -- what was under way of other descriptors is as it was
  have hother : ∀ fd' ∈ s.outstanding, fd' ≠ fd → ∀ p, s.Relies fd' p → t.Relies fd' p :=
    fun fd' hmem hne p hp => hp.congr (hapart.interest fd' hne (hgone fd' hmem))
      (hapart.returnValues fd' hne) hapart.listenfd
  constructor
  case nodup =>
    obtain ⟨l, hperm, hsublist⟩ := hsubperm
    exact hperm.nodup_iff.mp (h.nodup.sublist hsublist)
  case waiting =>
    intro task htask
    rw [hpending, hqueue] at htask
    exact hother _ (mem_outstanding.mpr (.inl ⟨task, htask, rfl⟩)) (h.fd_ne_of_task hw htask) _
      (h.waiting task htask)
  case working =>
    intro w' job hjob
    rw [hworkers] at hjob
    by_cases hww : w' = w
    · subst hww
      rw [Function.update_self] at hjob
      exact hnext hsubset job hjob
    · rw [Function.update_of_ne hww] at hjob
      exact h.placed_of_apart hw hapart hsubset hww hjob
  case abandoned =>
    intro fd' hfd'
    rw [habandoned] at hfd'
    rcases List.mem_append.mp hfd' with hmem | hmem
    · have heq : fd' = fd :=
        List.mem_singleton.mp (hkept.subset (List.mem_append_right _ hmem))
      rw [heq]
      exact hleft (List.ne_nil_of_mem hmem)
    · have hne := h.fd_ne_of_abandoned hw hmem
      rw [hapart.interest fd' hne (hgone fd' (mem_outstanding.mpr (.inr (.inr hmem))))]
      exact h.abandoned fd' hmem
  case armed =>
    intro fd' hfd'
    by_cases hne : fd' = fd
    · subst hne
      exact harmed hfd'
    · by_cases hg : point.guest = some fd'
      · exact absurd hfd' (hguest fd' hg).1
      · rw [hapart.interest fd' hne hg] at hfd'
        rw [hapart.returnValues fd' hne]
        exact h.armed fd' hfd'
  case held =>
    intro fd' hfd'
    by_cases hne : fd' = fd
    · subst hne
      -- it is under way in `t` only if the worker keeps or abandons it
      rcases List.mem_append.mp (hafter.mem_iff.mp hfd') with hmem | hmem
      · apply hopen
        cases o with
        | some job => exact .inl (by simp)
        | none => exact .inr (.inl (List.ne_nil_of_mem (by simpa using hmem)))
      · exact absurd rfl (hout _ hmem)
    · rw [hapart.listenfd]
      exact (h.held fd' (hsubset hfd')).imp_right
        (hapart.connection fd' hne (hgone fd' (hsubset hfd')))
  case registered =>
    intro fd' hfd'
    by_cases hne : fd' = fd
    · subst hne
      exact hopen (.inr (.inr hfd'))
    · by_cases hg : point.guest = some fd'
      · exact .inr ((hguest fd' hg).2 hfd')
      · rw [hapart.interest fd' hne hg] at hfd'
        rw [hapart.listenfd]
        exact (h.registered fd' hfd').imp_right (hapart.connection fd' hne hg)
  case listening => exact htable
  case nonneg =>
    rw [hapart.listenfd]
    exact h.nonneg

/-- A worker goes on, and has changed memory at most. -/
theorem goOn (h : s.Disciplined) (hw : s.workers w = some ⟨fd, point⟩) {u : Threads Service}
    (hworkers : u.workers = s.workers) (hpending : u.pending = s.pending)
    (hqueue : u.queue = s.queue) (habandoned : u.abandoned = s.abandoned)
    (hapart : Apart s u fd point.guest)
    (hguest : ∀ g, point.guest = some g → u.server.interest g ≠ .armed true ∧
      (u.server.interest g ≠ .absent → u.connection g ≠ none))
    (hrelies : u.Relies fd next)
    (hsetup : ∀ g, next.guest = some g → u.connection g ≠ none ∧ u.server.interest g = .absent ∧
      g ∉ s.outstanding ∧ g ≠ u.server.listenfd)
    (harmed : u.server.interest fd ≠ .armed true)
    (hopen : s.connection fd ≠ none → u.connection fd ≠ none)
    (htable : u.server.list (4 * u.server.listenfd + 2) = none) :
    (u.goTo w fd next).Disciplined := by
  refine h.of_step (o := some ⟨fd, next⟩) hw [] ?_ hpending hqueue habandoned (by simp)
    ⟨hapart.interest, hapart.returnValues, hapart.connection, hapart.listenfd⟩ hguest ?_ (by simp)
    (fun hcontra => absurd hcontra harmed) ?_ htable
  · rw [goTo, hworkers]
  · intro hsubset job hjob
    obtain rfl := Option.some.inj hjob
    refine ⟨hrelies, fun g hg => ?_⟩
    obtain ⟨hopened, habsent, hidle, hne⟩ := hsetup g hg
    exact ⟨hopened, habsent, fun hmem => hidle (hsubset hmem), hne⟩
  · intro _
    have hheld := h.held fd (mem_outstanding_of_job hw)
    rw [← hapart.listenfd] at hheld
    exact hheld.imp_right hopen

/-- A worker goes on without having changed anything. -/
theorem goOn_self (h : s.Disciplined) (hw : s.workers w = some ⟨fd, point⟩)
    (hguest : point.guest = none) (hdisarmed : s.server.interest fd = .disarmed)
    (hrelies : s.Relies fd next) (hsetup : next.guest = none) :
    (s.goTo w fd next).Disciplined := by
  refine h.goOn hw rfl rfl rfl rfl ⟨?_, ?_, ?_, rfl⟩ (by simp [hguest]) hrelies (by simp [hsetup])
    (by simp [hdisarmed]) id h.listening
  · exact fun _ _ _ => rfl
  · exact fun _ _ => rfl
  · exact fun _ _ _ => id

theorem abandon (h : s.Disciplined) (hw : s.workers w = some ⟨fd, point⟩)
    (hguest : point.guest = none) (hdisarmed : s.server.interest fd = .disarmed) :
    (s.abandon w fd).Disciplined := by
  refine h.of_step (o := none) hw [fd] rfl rfl rfl rfl (by simp) ⟨?_, ?_, ?_, rfl⟩
    (by simp [hguest]) (by simp) (fun _ => hdisarmed) (fun hcontra => ?_) (fun _ => ?_)
    h.listening
  · exact fun _ _ _ => rfl
  · exact fun _ _ => rfl
  · exact fun _ _ _ => id
  · have hinterest : s.server.interest fd = .armed true := hcontra
    simp [hdisarmed] at hinterest
  · exact h.held fd (mem_outstanding_of_job hw)

/-- A worker touches the queue of its descriptor and goes on. -/
theorem goOn_queue (h : s.Disciplined) (hw : s.workers w = some ⟨fd, point⟩)
    (hguest : point.guest = none) (hdisarmed : s.server.interest fd = .disarmed)
    {queue : List RpcResult} (hnext : next = .test ∨ ∃ result, next = .send result) :
    ({ s with server := s.server.pipeRead fd queue }.goTo w fd next).Disciplined := by
  refine h.goOn hw rfl rfl rfl rfl ⟨?_, ?_, ?_, rfl⟩ (by simp [hguest]) ?_ ?_ ?_ id h.listening
  · exact fun _ _ _ => rfl
  · intro fd' hne
    simp [RpcServer.pipeRead, hne]
  · exact fun _ _ _ => id
  · rcases hnext with rfl | ⟨result, rfl⟩ <;> exact hdisarmed
  · rcases hnext with rfl | ⟨result, rfl⟩ <;> simp [Point.guest]
  · simp [RpcServer.pipeRead, hdisarmed]

/-- A worker attaches a handler to the descriptor it sets up. -/
theorem goOn_attach (h : s.Disciplined) (hw : s.workers w = some ⟨fd, point⟩)
    (hguest : point.guest = if 0 ≤ connfd then some connfd else none)
    (hnext : next.guest = if 0 ≤ connfd then some connfd else none)
    (hrelies : s.Relies fd next) (hdisarmed : s.server.interest fd = .disarmed)
    {type : EventType} (htype : type = readEvent ∨ type = writeEvent ∨ type = closeEvent)
    (handler : EventHandler) :
    ((s.attach connfd type handler).goTo w fd next).Disciplined := by
  have hplaced := h.working w _ hw
  have hsetup : ∀ g, point.guest = some g → s.Guest g := hplaced.guest
  have hne : connfd ≠ s.server.listenfd := by
    by_cases hconnfd : 0 ≤ connfd
    · exact (hsetup connfd (by rw [hguest, if_pos hconnfd])).ne_listenfd
    · exact fun heq => hconnfd (heq ▸ h.nonneg)
  refine h.goOn hw rfl rfl rfl rfl ⟨?_, ?_, ?_, rfl⟩ ?_ (hrelies.congr rfl rfl rfl) ?_ ?_ id ?_
  · exact fun _ _ _ => rfl
  · exact fun _ _ => rfl
  · exact fun _ _ _ => id
  · intro g hg
    have habsent : s.server.interest g = .absent := (hsetup g hg).absent
    simp [Threads.attach, habsent]
  · intro g hg
    have hg' := hsetup g (by rw [hguest, ← hnext, hg])
    exact ⟨hg'.opened, hg'.absent, hg'.idle, hg'.ne_listenfd⟩
  · simp [Threads.attach, hdisarmed]
  · -- no slot of the listening socket is set
    have hslot : ∀ i : ℤ, i = 4 * connfd ∨ i = 4 * connfd + 1 ∨ i = 4 * connfd + 2 →
        4 * s.server.listenfd + 2 ≠ i := by omega
    have hupdate : (s.attach connfd type handler).server.list (4 * s.server.listenfd + 2) =
        s.server.list (4 * s.server.listenfd + 2) := by
      simp only [Threads.attach, HandlerTable.attachEventHandler, Option.isSome_some, if_true]
      rcases htype with rfl | rfl | rfl
      · rw [HandlerTable.setEventHandler_read, Function.update_of_ne (hslot _ (.inl rfl))]
      · rw [HandlerTable.setEventHandler_write, Function.update_of_ne (hslot _ (.inr (.inl rfl)))]
      · rw [HandlerTable.setEventHandler_close, Function.update_of_ne (hslot _ (.inr (.inr rfl)))]
    exact hupdate.trans h.listening

/-- The kernel hands out a descriptor. -/
theorem goOn_opens (h : s.Disciplined) (hw : s.workers w = some ⟨fd, point⟩)
    (hguest : point.guest = none) (hfree : s.Free connfd) (hnext : next.guest = some connfd)
    (hrelies : s.Relies fd next) (hdisarmed : s.server.interest fd = .disarmed) :
    ((s.opens connfd).goTo w fd next).Disciplined := by
  obtain ⟨hnonneg, hclosed, hne⟩ := hfree
  refine h.goOn hw rfl rfl rfl rfl ⟨?_, ?_, ?_, rfl⟩ (by simp [hguest]) (hrelies.congr rfl rfl rfl)
    ?_ ?_ ?_ h.listening
  · exact fun _ _ _ => rfl
  · exact fun _ _ => rfl
  · intro fd' _ _ hopened
    have hother : fd' ≠ connfd := fun heq => hopened (heq ▸ hclosed)
    simpa [opens, hother] using hopened
  · -- nothing is left of an earlier connection of that number
    intro g hg
    obtain rfl := Option.some.inj (hnext.symm.trans hg)
    refine ⟨by simp [opens], ?_, fun hmem => ?_, hne⟩
    · by_contra hregistered
      exact (h.registered connfd hregistered).elim hne fun hopened => hopened hclosed
    · exact (h.held connfd hmem).elim hne fun hopened => hopened hclosed
  · simp [opens, hdisarmed]
  · intro hopened
    have hother : fd ≠ connfd := fun heq => hopened (heq ▸ hclosed)
    simpa [opens, hother] using hopened

end Disciplined

theorem writeEvent_of_method {type : EventType} (h : s.server.method fd type = .result) :
    type = writeEvent := by
  unfold RpcServer.method at h
  split at h
  · cases h
  split at h
  · cases h
  · rename_i handler _
    unfold EventHandler.method at h
    split at h
    · cases handler <;> cases h
    split at h
    · cases handler <;> cases h
    split at h
    · rename_i htype
      exact htype
    · cases h

theorem closeSlot_of_method {type : EventType} (h : s.server.method fd type = .close) :
    s.server.list (4 * fd + 2) ≠ none := by
  unfold RpcServer.method at h
  split at h
  · cases h
  split at h
  · cases h
  · rename_i handler hslot
    unfold EventHandler.method at h
    split at h
    · rename_i htype
      subst htype
      rw [← getEventId_close, hslot]
      simp
    split at h
    · cases handler <;> cases h
    split at h
    · cases handler <;> cases h
    · cases h

end Threads

end DreamboatRpc.Server
