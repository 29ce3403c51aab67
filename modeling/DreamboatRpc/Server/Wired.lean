import DreamboatRpc.Server.System

/-!
# Descriptors, handlers and registrations

In every run the descriptors of open connections, and only they besides the listening
socket, have handlers and are registered, and no descriptor has two events under way.

## Main definitions

* `System.Wired` — the invariant

## Main results

* `wired_of_reachable` — it holds in every reachable state
-/

namespace DreamboatRpc.Server

open CS Rpc TransitionSystem

variable {Service : Type}

namespace System

variable {s t u : System Service} {fd fd' : ℤ} {c : ℕ} {task : Task} {input : Input Service}
  {stream : List UInt8}

/-- Open descriptors have their handlers and stand for different connections, and an event
under way keeps its descriptor disarmed. -/
structure Wired (s : System Service) : Prop where
  nodup : (s.inFlight.map Task.fd).Nodup
  disarmed : ∀ task ∈ s.inFlight, s.server.interest task.fd = .disarmed
  connected : ∀ fd c, s.connection fd = some c → 0 ≤ fd ∧ s.server.Connected fd
  absent : ∀ fd, s.connection fd = none → fd ≠ s.server.listenfd →
    s.server.interest fd = .absent
  listening : s.connection s.server.listenfd = none
  injective : ∀ fd fd' c, s.connection fd = some c → s.connection fd' = some c → fd = fd'
  accepted : ∀ fd c, s.connection fd = some c → c < s.accepted

theorem wired_init (dictionary : Dict (List UInt8) Service) (listenfd : ℤ) :
    (init dictionary listenfd).Wired where
  nodup := List.nodup_nil
  disarmed _ h := by cases h
  connected _ _ h := by cases h
  absent fd _ h := by
    change fd ≠ listenfd at h
    simp [init, RpcServer.listen, h]
  listening := rfl
  injective _ _ _ h := by cases h
  accepted _ _ h := by cases h

theorem Wired.ne_listenfd (h : s.Wired) (hc : s.connection fd = some c) :
    fd ≠ s.server.listenfd := by
  rintro rfl
  rw [h.listening] at hc
  cases hc

/-- A handler that returns keeps the invariant if it leaves the registrations of the other
events under way alone. -/
theorem Wired.of_handled (h : s.Wired) (htask : task ∈ s.running)
    (hinFlight : u.inFlight = s.inFlight) (hrunning : u.running = s.running)
    (hinterest : ∀ other ∈ s.inFlight, other.fd ≠ task.fd →
      u.server.interest other.fd = s.server.interest other.fd)
    (hconnected : ∀ fd c, u.connection fd = some c → 0 ≤ fd ∧ u.server.Connected fd)
    (habsent : ∀ fd, u.connection fd = none → fd ≠ u.server.listenfd →
      u.server.interest fd = .absent)
    (hlistening : u.connection u.server.listenfd = none)
    (hinjective : ∀ fd fd' c, u.connection fd = some c → u.connection fd' = some c → fd = fd')
    (haccepted : ∀ fd c, u.connection fd = some c → c < u.accepted) :
    (u.done task).Wired := by
  -- the task that is done was the only one of its descriptor
  have hperm := inFlight_perm_done (s := u) (hrunning ▸ htask)
  rw [hinFlight] at hperm
  have hnodup := (hperm.map Task.fd).nodup_iff.mp h.nodup
  rw [List.map_cons, List.nodup_cons] at hnodup
  refine ⟨hnodup.2, fun other hother => ?_, hconnected, habsent, hlistening, hinjective,
    haccepted⟩
  have hmem : other ∈ s.inFlight := hperm.mem_iff.mpr (List.mem_cons_of_mem _ hother)
  have hne : other.fd ≠ task.fd := by
    intro heq
    apply hnodup.1
    rw [← heq]
    exact List.mem_map_of_mem hother
  exact (hinterest other hmem hne).trans (h.disarmed other hmem)

/-- The case in which the handler touched its own descriptor only. -/
theorem Wired.of_only (h : s.Wired) (htask : task ∈ s.running) (hc : s.connection task.fd = some c)
    (hinFlight : u.inFlight = s.inFlight) (hrunning : u.running = s.running)
    (hconnection : u.connection = s.connection) (haccepted : u.accepted = s.accepted)
    (honly : RpcServer.Only task.fd s.server u.server) : (u.done task).Wired := by
  refine h.of_handled htask hinFlight hrunning (fun other _ hne => honly.interest _ hne)
    (fun fd c hopen => ?_) (fun fd hnone hne => ?_) ?_ ?_ ?_
  · rw [hconnection] at hopen
    obtain ⟨hnonneg, hold⟩ := h.connected fd c hopen
    refine ⟨hnonneg, ?_⟩
    constructor
    case registered =>
      -- its own descriptor is as before, or armed again
      by_cases heq : fd = task.fd
      · subst heq
        rcases honly.registered with hsame | ⟨-, harmed⟩
        · rw [hsame]
          exact hold.registered
        · rw [harmed]
          simp
      · rw [honly.interest fd heq]
        exact hold.registered
    all_goals rw [honly.list]
    · exact hold.reader
    · exact hold.writer
    · exact hold.closer
  · rw [hconnection] at hnone
    rw [honly.listenfd] at hne
    have hfd : fd ≠ task.fd := by
      rintro rfl
      rw [hc] at hnone
      cases hnone
    rw [honly.interest fd hfd]
    exact h.absent fd hnone hne
  · rw [hconnection, honly.listenfd]
    exact h.listening
  · rw [hconnection]
    exact h.injective
  · rw [hconnection, haccepted]
    exact h.accepted

/-- Attaching the handlers of one descriptor leaves the others connected. -/
theorem connected_of_attachAll {server server' : RpcServer Service} {connfd : ℤ}
    (h : server.Connected fd) (hne : fd ≠ connfd)
    (hlist : server'.list = RpcServer.attachAll server.list connfd)
    (hinterest : server'.interest fd = server.interest fd) : server'.Connected fd := by
  constructor
  case registered =>
    rw [hinterest]
    exact h.registered
  all_goals
    rw [hlist, RpcServer.attachAll_apply, if_neg (by omega), if_neg (by omega),
      if_neg (by omega)]
  · exact h.reader
  · exact h.writer
  · exact h.closer

/-- Accepting a client sets up one more descriptor. -/
theorem Wired.of_connect (h : s.Wired) (htask : task ∈ s.running) {connfd : ℤ}
    {server : RpcServer Service} (haccepted : input.accepted = some connfd)
    (hnonneg : 0 ≤ connfd) (hfree : s.connection connfd = none)
    (hne : connfd ≠ s.server.listenfd)
    (hserver : s.server.accept task.fd input = .finished server) :
    ((s.connect connfd stream server).done task).Wired := by
  obtain ⟨hfd, heq⟩ := RpcServer.accept_finished hserver
  rw [haccepted, Option.getD_some] at heq
  have hnew : server.Connected connfd := by
    have := RpcServer.connected_accept (s := s.server) hnonneg haccepted
    rw [hfd] at hserver
    rw [hserver] at this
    exact this
  have hlistenfd : server.listenfd = s.server.listenfd := by
    rw [heq]
    simp
  -- all that is new belongs to `connfd`, but for the socket, which is armed again
  have hlist : server.list = RpcServer.attachAll s.server.list connfd := by
    rw [heq]
    simp
  have hinterest : ∀ fd, fd ≠ connfd → fd ≠ s.server.listenfd →
      server.interest fd = s.server.interest fd := by
    intro fd hfd hlisten
    rw [heq, RpcServer.interest_modEvent, if_neg (by simp [hlisten]),
      RpcServer.interest_addEvent _ hnonneg, if_neg hfd]
  have hconnection : ∀ fd, (s.connect connfd stream server).connection fd =
      if fd = connfd then some s.accepted else s.connection fd :=
    fun fd => Function.update_apply ..
  refine h.of_handled htask rfl rfl (fun other hother hother' => ?_) (fun fd c hopen => ?_)
    (fun fd hnone hlisten => ?_) ?_ (fun fd fd' c hopen hopen' => ?_) (fun fd c hopen => ?_)
  · -- the new descriptor was not registered, so no event of it is under way
    refine hinterest other.fd ?_ (hfd ▸ hother')
    intro heq'
    have hdisarmed := h.disarmed other hother
    rw [heq', h.absent connfd hfree hne] at hdisarmed
    cases hdisarmed
  · rw [hconnection] at hopen
    by_cases hfd' : fd = connfd
    · rw [hfd']
      exact ⟨hnonneg, hnew⟩
    · rw [if_neg hfd'] at hopen
      obtain ⟨hnonneg', hold⟩ := h.connected fd c hopen
      exact ⟨hnonneg', connected_of_attachAll hold hfd' hlist
        (hinterest fd hfd' (h.ne_listenfd hopen))⟩
  · rw [hconnection] at hnone
    split at hnone
    · cases hnone
    · rename_i hfd'
      change fd ≠ server.listenfd at hlisten
      rw [hlistenfd] at hlisten
      exact (hinterest fd hfd' hlisten).trans (h.absent fd hnone hlisten)
  · change (s.connect connfd stream server).connection server.listenfd = none
    rw [hconnection, hlistenfd, if_neg hne.symm]
    exact h.listening
  · rw [hconnection] at hopen hopen'
    split at hopen <;> split at hopen'
    · -- a connection that is new is none of the old ones
      rename_i hfd₁ hfd₂
      rw [hfd₁, hfd₂]
    · cases hopen
      exact absurd (h.accepted _ _ hopen') (lt_irrefl _)
    · cases hopen'
      exact absurd (h.accepted _ _ hopen) (lt_irrefl _)
    · exact h.injective _ _ _ hopen hopen'
  · rw [hconnection] at hopen
    split at hopen
    · cases hopen
      exact Nat.lt_succ_self _
    · exact Nat.lt_succ_of_lt (h.accepted fd c hopen)

/-- If `accept` fails, the slots of descriptor -1 are written and the socket goes on
listening. -/
theorem Wired.of_refused (h : s.Wired) (htask : task ∈ s.running)
    {server : RpcServer Service} (hnone : input.accepted = none)
    (hserver : s.server.accept task.fd input = .finished server) :
    (({ s with server := server } : System Service).done task).Wired := by
  obtain ⟨hfd, heq⟩ := RpcServer.accept_finished hserver
  rw [hnone, Option.getD_none] at heq
  have hlistenfd : server.listenfd = s.server.listenfd := by
    rw [heq]
    simp
  have hinterest : ∀ fd, fd ≠ s.server.listenfd → server.interest fd = s.server.interest fd := by
    intro fd hlisten
    rw [heq, RpcServer.interest_modEvent, if_neg (by simp [hlisten])]
    simp [RpcServer.addEvent]
  refine h.of_handled htask rfl rfl (fun other _ hother => hinterest _ (hfd ▸ hother))
    (fun fd c hopen => ?_) (fun fd hclosed hlisten => ?_) ?_ h.injective h.accepted
  · obtain ⟨hnonneg, hold⟩ := h.connected fd c hopen
    refine ⟨hnonneg, connected_of_attachAll hold (by omega : fd ≠ -1) ?_
      (hinterest fd (h.ne_listenfd hopen))⟩
    rw [heq]
    simp
  · change fd ≠ server.listenfd at hlisten
    rw [hlistenfd] at hlisten
    exact (hinterest fd hlisten).trans (h.absent fd hclosed hlisten)
  · change s.connection server.listenfd = none
    rw [hlistenfd]
    exact h.listening

/-- Closing a descriptor takes its handlers and its registration. -/
theorem Wired.of_disconnect (h : s.Wired) (htask : task ∈ s.running)
    (hc : s.connection task.fd = some c) :
    ((s.disconnect task.fd (s.server.close task.fd)).done task).Wired := by
  have hinterest : ∀ fd, fd ≠ task.fd →
      (s.server.close task.fd).interest fd = s.server.interest fd :=
    fun fd hfd => Function.update_of_ne hfd _ _
  have hopen : ∀ fd c, (s.disconnect task.fd (s.server.close task.fd)).connection fd = some c →
      fd ≠ task.fd ∧ s.connection fd = some c := by
    intro fd c hopen
    simp only [System.disconnect, Function.update_apply] at hopen
    split at hopen
    · cases hopen
    · rename_i hfd
      exact ⟨hfd, hopen⟩
  refine h.of_handled htask rfl rfl (fun other _ hother => hinterest _ hother)
    (fun fd c hfd => ?_) (fun fd hclosed hlisten => ?_) ?_ (fun fd fd' c h₁ h₂ => ?_)
    (fun fd c hfd => h.accepted fd c (hopen fd c hfd).2)
  · obtain ⟨hne, hold⟩ := hopen fd c hfd
    obtain ⟨hnonneg, hconnected⟩ := h.connected fd c hold
    refine ⟨hnonneg, ?_⟩
    -- the slots of different descriptors do not overlap
    have hlist : ∀ i, 4 * fd ≤ i → i ≤ 4 * fd + 2 →
        (s.server.close task.fd).list i = s.server.list i := by
      intro i hlow hhigh
      simp only [RpcServer.close, RpcServer.delEvent, HandlerTable.detachEventHandler,
        HandlerTable.setEventHandler_all]
      rw [if_neg]
      simp only [List.mem_cons, List.not_mem_nil, or_false]
      omega
    constructor
    case registered =>
      change (s.server.close task.fd).interest fd ≠ _
      rw [hinterest fd hne]
      exact hconnected.registered
    · exact (hlist _ (by omega) (by omega)).trans hconnected.reader
    · exact (hlist _ (by omega) (by omega)).trans hconnected.writer
    · exact (hlist _ (by omega) (by omega)).trans hconnected.closer
  · by_cases hfd : fd = task.fd
    · rw [hfd]
      exact Function.update_self ..
    · change Function.update s.connection task.fd none fd = none at hclosed
      rw [Function.update_of_ne hfd] at hclosed
      exact (hinterest fd hfd).trans (h.absent fd hclosed hlisten)
  · change (Function.update s.connection task.fd none) s.server.listenfd = none
    rw [Function.update_of_ne (h.ne_listenfd hc).symm]
    exact h.listening
  · exact h.injective _ _ _ (hopen _ _ h₁).2 (hopen _ _ h₂).2

/-- The event of an armed descriptor is the first one of it that is under way. -/
theorem Wired.report (h : s.Wired) {events : Events} (hreports : s.Reports fd events)
    (type : EventType) : (s.report fd type).Wired := by
  obtain ⟨output, harmed, -⟩ := hreports
  -- a descriptor with an event under way is disarmed, so it has no other one
  have hnew : ∀ task ∈ s.inFlight, task.fd ≠ fd := by
    rintro task htask rfl
    rw [h.disarmed task htask] at harmed
    cases harmed
  have hperm : (s.report fd type).inFlight.Perm (⟨fd, type⟩ :: s.inFlight) := by
    simp only [inFlight, System.report, List.append_assoc, List.cons_append, List.nil_append]
    exact List.perm_middle
  have hinterest : ∀ fd', (s.report fd type).server.interest fd' =
      if fd' = fd then .disarmed else s.server.interest fd' :=
    fun fd' => Function.update_apply ..
  refine ⟨?_, fun task htask => ?_, fun fd' c hc => ?_, fun fd' hnone hne => ?_, h.listening,
    h.injective, h.accepted⟩
  · rw [(hperm.map Task.fd).nodup_iff, List.map_cons, List.nodup_cons]
    refine ⟨?_, h.nodup⟩
    intro hmem
    obtain ⟨task, htask, heq⟩ := List.mem_map.mp hmem
    exact hnew task htask heq
  · rw [hinterest]
    rcases List.mem_cons.mp (hperm.mem_iff.mp htask) with rfl | htask
    · rw [if_pos rfl]
    · rw [if_neg (hnew task htask)]
      exact h.disarmed task htask
  · obtain ⟨hnonneg, hold⟩ := h.connected fd' c hc
    refine ⟨hnonneg, hold.reader, hold.writer, hold.closer, ?_⟩
    rw [hinterest]
    split
    · simp
    · exact hold.registered
  · rw [hinterest, if_neg]
    · exact h.absent fd' hnone hne
    · rintro rfl
      rw [h.absent fd' hnone hne] at harmed
      cases harmed

theorem Wired.of_moved (h : s.Wired) (hmoved : s.Moved t) : t.Wired := by
  obtain ⟨l, hperm, hsublist⟩ := hmoved.inFlight
  have hmem : ∀ task ∈ t.inFlight, task ∈ s.inFlight :=
    fun task htask => hmoved.inFlight.subset htask
  have hnodup : (t.inFlight.map Task.fd).Nodup :=
    (hperm.map Task.fd).nodup_iff.mp (h.nodup.sublist (hsublist.map _))
  have hrest := hmoved.rest
  constructor
  · exact hnodup
  · intro task htask
    rw [hrest]
    exact h.disarmed task (hmem task htask)
  all_goals
    rw [hrest]
  · exact h.connected
  · exact h.absent
  · exact h.listening
  · exact h.injective
  · exact h.accepted

theorem Wired.exec (h : s.Wired) {a : Action Service} (hexec : s.exec a = some t) :
    t.Wired := by
  rcases exec_cases hexec with ⟨fd, events, type, -, hreports, -, rfl⟩ | ⟨hmoved, -⟩ |
    ⟨task, input, stream, u, rfl, hrunning, hworked, rfl⟩
  · exact h.report hreports type
  · exact h.of_moved hmoved
  cases hworked with
  | nothing =>
    exact h.of_handled hrunning rfl rfl (fun _ _ _ => rfl) h.connected h.absent h.listening
      h.injective h.accepted
  | request _ hc _ hserver =>
    exact h.of_only hrunning hc rfl rfl rfl rfl (RpcServer.request_finished hserver).1
  | result _ hc hserver =>
    exact h.of_only hrunning hc rfl rfl rfl rfl (RpcServer.result_finished hserver).1
  | refused _ hnone hserver => exact h.of_refused hrunning hnone hserver
  | connect _ haccepted hnonneg hfree hne hserver =>
    exact h.of_connect hrunning haccepted hnonneg hfree hne hserver
  | disconnect _ hc => exact h.of_disconnect hrunning hc

end System

theorem wired_of_reachable {dictionary : Dict (List UInt8) Service} {listenfd : ℤ}
    {G : System Service → Action Service → Prop} {s : System Service}
    (h : (serverSystem dictionary listenfd).Reachable G s) : s.Wired := by
  refine h.invariant (fun s hs => ?_) fun s a t hs _ hstep => ?_
  · rw [ofExec_init.mp hs]
    exact System.wired_init dictionary listenfd
  · exact hs.exec (ofExec_step.mp hstep)

end DreamboatRpc.Server
