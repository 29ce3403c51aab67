import DreamboatRpc.Server.Wired

/-!
# Results stay on their connection

Results wait in the queue of a descriptor, and closing the descriptor leaves the queue as it
is. If the kernel hands the number to a later connection, that one gets what the earlier
one left.

## Main definitions

* `CleanAccept`, `CleanFor` — an accepted descriptor has an empty queue, or that of one connection
* `System.Isolated`, `System.IsolatedOn` — what connections were sent and what waits for them
  are their results

## Main results

* `response_isolation` — as long as accepted descriptors have empty queues, a connection is
  sent results of its own requests only, in their order
* `result_misdelivered` — otherwise not
-/

namespace DreamboatRpc.Server

open CS Rpc TransitionSystem

variable {Service : Type}

/-- A descriptor that is accepted has an empty queue. -/
def CleanAccept (s : System Service) : Action Service → Prop
  | .handle task input _ => s.server.method task.fd task.type = .accept →
      ∀ connfd, input.accepted = some connfd → s.server.returnValues connfd = []
  | _ => True

instance (s : System Service) (a : Action Service) : Decidable (CleanAccept s a) := by
  cases a with
  | handle task input stream =>
    cases h : input.accepted with
    | none => exact isTrue (by simp [CleanAccept, h])
    | some connfd =>
      apply decidable_of_iff (s.server.method task.fd task.type = .accept →
        s.server.returnValues connfd = [])
      simp [CleanAccept, h]
  | _ => exact isTrue trivial

/-- If a descriptor is accepted as connection `c`, it has an empty queue. -/
def CleanFor (c : ℕ) (s : System Service) : Action Service → Prop
  | .handle task input _ => s.server.method task.fd task.type = .accept → s.accepted = c →
      ∀ connfd, input.accepted = some connfd → s.server.returnValues connfd = []
  | _ => True

theorem CleanAccept.cleanFor {s : System Service} {a : Action Service} (h : CleanAccept s a)
    (c : ℕ) : CleanFor c s a := by
  cases a with
  | handle task input stream => exact fun hmethod _ => h hmethod
  | _ => trivial

namespace System

variable {s t : System Service}

/-- The results given to `send` on a connection; they were sent if every `send` completed. -/
def sentOn (s : System Service) (c : ℕ) : List RpcResult := (s.sends c).map Prod.fst

/-- What was sent on a connection is the first part of the results of its own requests, and
while it is open the rest waits in the queue of its descriptor. -/
structure Isolated (s : System Service) : Prop where
  sent : ∀ c, s.sentOn c <+: s.answered c
  waiting : ∀ fd c, s.connection fd = some c →
    s.answered c = s.sentOn c ++ s.server.returnValues fd
  later : ∀ c, s.accepted ≤ c → s.sends c = [] ∧ s.answered c = []

/-- The same for one connection. -/
structure IsolatedOn (s : System Service) (c : ℕ) : Prop where
  sent : s.sentOn c <+: s.answered c
  waiting : ∀ fd, s.connection fd = some c →
    s.answered c = s.sentOn c ++ s.server.returnValues fd
  later : s.accepted ≤ c → s.sends c = [] ∧ s.answered c = []

theorem Isolated.of_on (h : ∀ c, s.IsolatedOn c) : s.Isolated :=
  ⟨fun c => (h c).sent, fun fd c hc => (h c).waiting fd hc, fun c hc => (h c).later hc⟩

section On

variable {c : ℕ} {fd : ℤ} {input : Input Service} {server : RpcServer Service}

theorem isolatedOn_init (dictionary : Dict (List UInt8) Service) (listenfd : ℤ) (c : ℕ) :
    (init dictionary listenfd).IsolatedOn c where
  sent := List.prefix_rfl
  waiting _ h := by cases h
  later _ := ⟨rfl, rfl⟩

/-- A step that is not about the connection; it may have been closed. -/
theorem IsolatedOn.of_same (h : s.IsolatedOn c)
    (hconnection : ∀ fd, t.connection fd = some c → s.connection fd = some c)
    (haccepted : s.accepted ≤ t.accepted) (hsends : t.sends c = s.sends c)
    (hanswered : t.answered c = s.answered c)
    (hreturnValues : ∀ fd, s.connection fd = some c →
      t.server.returnValues fd = s.server.returnValues fd) : t.IsolatedOn c where
  sent := by
    rw [sentOn, hsends, hanswered]
    exact h.sent
  waiting fd hc := by
    rw [sentOn, hsends, hanswered, hreturnValues fd (hconnection fd hc)]
    exact h.waiting fd (hconnection fd hc)
  later hc := by
    rw [hsends, hanswered]
    exact h.later (haccepted.trans hc)

/-- A handler that works for the connection. -/
theorem IsolatedOn.of_own (hw : s.Wired) (hc : s.connection fd = some c)
    (hconnection : t.connection = s.connection) (haccepted : t.accepted = s.accepted)
    (hown : t.answered c = t.sentOn c ++ t.server.returnValues fd) : t.IsolatedOn c where
  sent := by
    rw [hown]
    exact List.prefix_append _ _
  waiting fd' hc' := by
    -- an open connection has one descriptor, the one the handler worked for
    rw [hconnection] at hc'
    rw [hw.injective _ _ _ hc' hc]
    exact hown
  later hle := by
    rw [haccepted] at hle
    exact absurd (hw.accepted fd c hc) (Nat.not_lt.mpr hle)

/-- The descriptor of another connection is another one. -/
theorem ne_of_connection {c' : ℕ} {fd' : ℤ} (hc : s.connection fd = some c)
    (hc' : s.connection fd' = some c') (hne : c' ≠ c) : fd' ≠ fd := by
  rintro rfl
  exact hne (Option.some.inj (hc'.symm.trans hc))

/-- The request handler of a connection queues the results of that connection. -/
theorem IsolatedOn.received (h : s.IsolatedOn c) (hw : s.Wired) {c₀ : ℕ}
    (hc : s.connection fd = some c₀) (hserver : s.server.request fd input = .finished server) :
    (s.received c₀ input server).IsolatedOn c := by
  obtain ⟨honly, hqueue⟩ := RpcServer.request_finished hserver
  by_cases heq : c = c₀
  · subst heq
    refine .of_own hw hc rfl rfl ?_
    simp only [System.received, sentOn, Function.update_self]
    rw [hqueue, ← List.append_assoc, h.waiting _ hc, sentOn]
  · refine h.of_same (fun _ => id) le_rfl rfl (Function.update_of_ne heq _ _) fun fd' hc' => ?_
    exact honly.returnValues _ (ne_of_connection hc hc' heq)

/-- The result sender of a connection sends the first result that waits for it. -/
theorem IsolatedOn.sent_result (h : s.IsolatedOn c) (hw : s.Wired) {c₀ : ℕ}
    (hc : s.connection fd = some c₀) (hserver : s.server.result fd input = .finished server) :
    (s.sent c₀ fd input server).IsolatedOn c := by
  obtain ⟨honly, -, r, hqueue⟩ := RpcServer.result_finished hserver
  by_cases heq : c = c₀
  · subst heq
    have hsent : (s.sent c fd input server).sentOn c = s.sentOn c ++ [r] := by
      simp [System.sent, sentOn, hqueue]
    refine .of_own hw hc rfl rfl ?_
    -- the result moves from the queue to what was sent
    change s.answered c = _ ++ server.returnValues fd
    rw [hsent, h.waiting fd hc, hqueue]
    simp
  · refine h.of_same (fun _ => id) le_rfl (Function.update_of_ne heq _ _) rfl fun fd' hc' => ?_
    exact honly.returnValues _ (ne_of_connection hc hc' heq)

/-- A connection that starts with an empty queue is isolated, and so are the others. -/
theorem IsolatedOn.connect (h : s.IsolatedOn c) {connfd : ℤ} {stream : List UInt8}
    (hempty : s.accepted = c → s.server.returnValues connfd = [])
    (hserver : s.server.accept fd input = .finished server) :
    (s.connect connfd stream server).IsolatedOn c := by
  have hreturnValues : server.returnValues = s.server.returnValues := by
    rw [(RpcServer.accept_finished hserver).2]
    simp
  by_cases heq : s.accepted = c
  · -- the new number differs from all earlier ones, so nothing was sent or answered
    have hnew := h.later heq.le
    refine ⟨h.sent, fun fd' hc => ?_, fun _ => hnew⟩
    change s.answered c = s.sentOn c ++ server.returnValues fd'
    rw [hreturnValues]
    simp only [System.connect, Function.update_apply] at hc
    split at hc
    · rename_i hfd
      rw [hfd, hempty heq, sentOn, hnew.1, hnew.2]
      rfl
    · exact h.waiting fd' hc
  · refine h.of_same (fun fd' hc => ?_) (Nat.le_succ _) rfl rfl fun fd' _ => ?_
    · simp only [System.connect, Function.update_apply] at hc
      split at hc
      · exact absurd (Option.some.inj hc) heq
      · exact hc
    · exact congrFun hreturnValues fd'

theorem IsolatedOn.disconnect (h : s.IsolatedOn c) (fd : ℤ) :
    (s.disconnect fd (s.server.close fd)).IsolatedOn c := by
  refine h.of_same (fun fd' hc => ?_) le_rfl rfl rfl fun _ _ => rfl
  simp only [System.disconnect, Function.update_apply] at hc
  split at hc
  · cases hc
  · exact hc

/-- An action that does not start the connection with results in its queue keeps it isolated. -/
theorem IsolatedOn.exec (h : s.IsolatedOn c) (hw : s.Wired) {a : Action Service}
    (hclean : CleanFor c s a) (hexec : s.exec a = some t) : t.IsolatedOn c := by
  rcases exec_cases hexec with ⟨fd, events, type, -, -, -, rfl⟩ | ⟨hmoved, -⟩ |
    ⟨task, input, stream, u, rfl, -, hworked, rfl⟩
  · exact h.of_same (fun _ => id) le_rfl rfl rfl fun _ _ => rfl
  · rw [hmoved.rest]
    exact h.of_same (fun _ => id) le_rfl rfl rfl fun _ _ => rfl
  have hu : u.IsolatedOn c := by
    cases hworked with
    | nothing => exact h
    | request _ hc _ hserver => exact h.received hw hc hserver
    | result _ hc hserver => exact h.sent_result hw hc hserver
    | refused _ _ hserver =>
      refine h.of_same (fun _ => id) le_rfl rfl rfl fun _ _ => ?_
      rw [(RpcServer.accept_finished hserver).2]
      simp
    | connect hmethod haccepted _ _ _ hserver =>
      exact h.connect (fun heq => hclean hmethod heq _ haccepted) hserver
    | disconnect => exact h.disconnect _
  exact hu.of_same (fun _ => id) le_rfl rfl rfl fun _ _ => rfl

end On

end System

theorem isolatedOn_of_reachable {dictionary : Dict (List UInt8) Service} {listenfd : ℤ}
    {s : System Service} {c : ℕ}
    (h : (serverSystem dictionary listenfd).Reachable (CleanFor c) s) : s.IsolatedOn c := by
  obtain ⟨history, hrun⟩ := h
  induction hrun with
  | init hs =>
    rw [ofExec_init.mp hs]
    exact System.isolatedOn_init dictionary listenfd c
  | step hrun hclean hstep ih =>
    exact ih.exec (wired_of_reachable ⟨_, hrun⟩) hclean (ofExec_step.mp hstep)

/-- In every run in which accepted descriptors have empty queues, what was sent on a
connection is the first part of the results of the requests received on that connection. -/
theorem response_isolation (dictionary : Dict (List UInt8) Service) (listenfd : ℤ)
    {s : System Service} (h : (serverSystem dictionary listenfd).Reachable CleanAccept s)
    (c : ℕ) : s.sentOn c <+: s.answered c := by
  obtain ⟨history, hrun⟩ := h
  have hisolated : s.Isolated := .of_on fun c =>
    isolatedOn_of_reachable ⟨history, hrun.mono fun _ _ hclean => hclean.cleanFor c⟩
  exact hisolated.sent c

/-! ## Two runs -/

/-- The event is reported and its task reaches a worker, which handles it. -/
def serveEvent (fd : ℤ) (events : Events) (input : Input Unit) (stream : List UInt8) :
    List (Action Unit) :=
  [.dispatch fd events, .addTask, .takeTask,
    .handle ⟨fd, events.type.getD 0⟩ input stream]

/-- The calls of a handler that calls nothing. -/
def noInput : Input Unit where
  header := .error .other
  body := .error .other
  stack := []
  handle := fun _ _ => none
  send := .error .eagain
  accepted := none

/-- A client connects as descriptor 5 and will write `stream`. -/
def acceptClient (stream : List UInt8) : List (Action Unit) :=
  serveEvent 3 .readable { noInput with accepted := some 5 } stream

/-- A request with one byte of parameters. -/
def shortRequest (needReturn : Bool) : List UInt8 :=
  (requestHeader [97] 1 needReturn).toBytes ++ [0]

/-- It is received at descriptor 5 and answered with a result. -/
def receiveRequest (needReturn : Bool) : List (Action Unit) :=
  serveEvent 5 .readable (requestInput (requestHeader [97] 1 needReturn).toBytes [0]) []

/-- Descriptor 5 is writable, and all bytes of a result are sent. -/
def sendResult : List (Action Unit) :=
  serveEvent 5 ⟨false, false, false, true, false⟩
    { noInput with send := .sent RpcResult.size } []

/-- The client of descriptor 5 closes while the socket is readable and writable. -/
def hangUp : List (Action Unit) := serveEvent 5 ⟨false, true, true, true, false⟩ noInput []

/-- The services of these runs. -/
def oneService : Dict (List UInt8) Unit := (∅ : Dict (List UInt8) Unit).set [97] ()

/-- One result was sent on the first connection. -/
def sentOnFirst (s : System Unit) : Bool := (s.sentOn 0).length == 1

/-- One result was sent on each of the first two connections. -/
def sentOnBoth (s : System Unit) : Bool := sentOnFirst s && (s.sentOn 1).length == 1

/-- The first client gets its result before it closes, so that the next one with the same
descriptor finds the queue empty. -/
theorem response_isolation_nextClient :
    ∃ s : System Unit, sentOnBoth s ∧ s.sentOn 1 <+: s.answered 1 := by
  have hreplay : (replay System.exec (fun s a => decide (CleanAccept s a)) []
      (System.init oneService 3)
      (acceptClient (shortRequest true) ++ receiveRequest true ++ sendResult ++
        serveEvent 5 ⟨false, true, true, false, false⟩ noInput [] ++
        acceptClient (shortRequest true) ++ receiveRequest true ++ sendResult)).any
      (fun r => sentOnBoth r.2) = true := by decide +kernel
  obtain ⟨history, s, hrun, htest⟩ := exists_run_of_replay (fun _ s => sentOnBoth s) hreplay
  refine ⟨s, htest, response_isolation oneService 3 ⟨history, hrun.mono ?_⟩ 1⟩
  intro s a hclean
  exact of_decide_eq_true hclean

/-- A result was sent on the second connection, none of whose requests needs a return. -/
def sentOnSecond (s : System Unit) : Bool :=
  (s.sentOn 1).length == 1 && (s.answered 1).isEmpty

/-- A result that its own client did not wait for is sent to the next one with the same
descriptor. -/
theorem result_misdelivered :
    ¬ ∀ (dictionary : Dict (List UInt8) Unit) (listenfd : ℤ) (s : System Unit),
      (serverSystem dictionary listenfd).Reachable unguarded s →
        ∀ c, s.sentOn c <+: s.answered c := by
  intro hisolated
  have hreplay : (replay System.exec (fun _ _ => true) [] (System.init oneService 3)
      (acceptClient (shortRequest true) ++ receiveRequest true ++ hangUp ++
        acceptClient (shortRequest false) ++ receiveRequest false ++ sendResult)).any
      (fun r => sentOnSecond r.2) = true := by decide +kernel
  obtain ⟨history, s, hrun, htest⟩ := exists_run_of_replay (fun _ s => sentOnSecond s) hreplay
  have hsent := hisolated oneService 3 s ⟨history, hrun.mono fun _ _ _ => trivial⟩ 1
  simp only [sentOnSecond, Bool.and_eq_true, beq_iff_eq, List.isEmpty_iff] at htest
  rw [htest.2, List.prefix_nil] at hsent
  rw [hsent] at htest
  simp at htest

end DreamboatRpc.Server
