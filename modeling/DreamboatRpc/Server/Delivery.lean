import DreamboatRpc.CS.ByteStream
import DreamboatRpc.Server.Isolation

/-!
# Results on a full socket

The result sender takes a result out of the pipe and then calls `send`. If the socket has
room for a part of it only, or for nothing, the rest is not sent again: the result has left
the pipe, and what is written next follows the part that was taken.

## Main definitions

* `System.Delivers` — no result left the pipe of a connection before all of it was written
* `sendsWhole` — the condition on the calls of `send`
* `Accepts` — in a step a descriptor is accepted

## Main results

* `System.sends_of_exec` — how the calls of `send` on a connection grow
* `cleanAccept_of_run` — a descriptor that is handed out for the first time has an empty queue
* `delivers_iff` — when no result is lost
-/

namespace DreamboatRpc.Server

open CS Rpc TransitionSystem

variable {Service : Type}

/-- The number of bytes a call of `send` took. -/
def Send.taken : Send → ℕ
  | sent n => n
  | error _ => 0

namespace System

/-- The results given to `send` on a connection, in memory, and how much of them was taken. -/
def sendsOn (s : System Service) (c : ℕ) : List (List UInt8 × ℕ) :=
  (s.sends c).map fun x => (x.1.toBytes, x.2.taken)

/-- The results that left the pipe for the connection are on its socket, which has nothing but
the results of its requests, in order. -/
def Delivers (s : System Service) (c : ℕ) : Prop :=
  Intact (s.sendsOn c) ((s.answered c).map RpcResult.toBytes)

end System

/-- The result sender of the connection, if it runs, has its result taken as a whole. -/
def sendsWhole (c : ℕ) (s : System Service) : Action Service → Bool
  | .handle task input _ => decide (s.server.method task.fd task.type = .result →
      s.connection task.fd = some c → RpcResult.size ≤ input.send.taken)
  | .dispatch _ _ | .addTask | .takeTask => true

namespace System

variable {s t : System Service} {a : Action Service} {c : ℕ}

/-- An action calls `send` on the connection once, for a result, or not at all. -/
theorem sends_of_exec (hexec : s.exec a = some t) :
    (t.sends c = s.sends c ∧ sendsWhole c s a = true) ∨
    ∃ task input stream r, a = .handle task input stream ∧
      s.server.method task.fd task.type = .result ∧ s.connection task.fd = some c ∧
      t.sends c = s.sends c ++ [(r, input.send)] := by
  rcases exec_cases hexec with ⟨fd, events, type, rfl, -, -, rfl⟩ | ⟨hmoved, hevent⟩ |
    ⟨task, input, stream, u, rfl, -, hworked, rfl⟩
  · exact .inl ⟨rfl, rfl⟩
  · refine .inl ⟨by rw [hmoved.rest], ?_⟩
    rcases hevent with ⟨rfl | rfl, -⟩ | ⟨rfl, -⟩
    · rfl
    · rfl
    · rfl
  · have hother : s.server.method task.fd task.type ≠ .result →
        sendsWhole c s (.handle task input stream) = true := fun hne => by simp [sendsWhole, hne]
    cases hworked with
    | nothing hmethod => exact .inl ⟨rfl, hother (by simp [hmethod])⟩
    | request hmethod _ _ _ => exact .inl ⟨rfl, hother (by simp [hmethod])⟩
    | refused hmethod _ _ => exact .inl ⟨rfl, hother (by simp [hmethod])⟩
    | connect hmethod _ _ _ _ _ => exact .inl ⟨rfl, hother (by simp [hmethod])⟩
    | disconnect hmethod _ => exact .inl ⟨rfl, hother (by simp [hmethod])⟩
    | @result c₀ server hmethod hc hserver =>
      by_cases heq : c = c₀
      · subst heq
        obtain ⟨-, -, r, hqueue⟩ := RpcServer.result_finished hserver
        refine .inr ⟨task, input, stream, r, rfl, hmethod, hc, ?_⟩
        simp [System.done, System.sent, hqueue]
      · refine .inl ⟨Function.update_of_ne heq _ _, ?_⟩
        simp [sendsWhole, hc, Ne.symm heq]

/-- The calls of `send` on the connection have all taken a whole result, also in this action,
iff they had before and it meets the condition. -/
theorem sendsOn_whole_iff (h : ∀ x ∈ s.sendsOn c, x.1.length ≤ x.2)
    (hexec : s.exec a = some t) :
    (∀ x ∈ t.sendsOn c, x.1.length ≤ x.2) ↔ sendsWhole c s a = true := by
  rcases sends_of_exec (c := c) hexec with
    ⟨hsame, hwhole⟩ | ⟨task, input, stream, r, rfl, hmethod, hc, hsends⟩
  · rw [sendsOn, hsame]
    exact ⟨fun _ => hwhole, fun _ => h⟩
  · have hlast : t.sendsOn c = s.sendsOn c ++ [(r.toBytes, input.send.taken)] := by
      rw [sendsOn, hsends, List.map_append]
      rfl
    rw [hlast, List.forall_mem_append, List.forall_mem_singleton, RpcResult.length_toBytes]
    simp only [sendsWhole, hmethod, hc, forall_const, decide_eq_true_eq]
    exact ⟨fun hall => hall.2, fun hwhole => ⟨h, hwhole⟩⟩

theorem IsolatedOn.delivers_iff_sends (h : s.IsolatedOn c) :
    s.Delivers c ↔ ∀ x ∈ s.sendsOn c, x.1.length ≤ x.2 := by
  refine intact_iff ?_
  have hsent := h.sent.map RpcResult.toBytes
  simpa only [sendsOn, sentOn, List.map_map, Function.comp_def] using hsent

end System

/-! ## Descriptors -/

/-- A client is accepted as the descriptor. -/
def Accepts (x : Transition (System Service) (Action Service)) (fd : ℤ) : Prop :=
  ∃ task input stream, x.event = .handle task input stream ∧
    x.source.server.method task.fd task.type = .accept ∧ input.accepted = some fd

section Descriptors

variable {dictionary : Dict (List UInt8) Service} {listenfd : ℤ} {s t : System Service}
  {a : Action Service} {history : List (Transition (System Service) (Action Service))}

/-- The descriptors that are open, or have results in their queue, were accepted. -/
structure AcceptedBefore (history : List (Transition (System Service) (Action Service)))
    (s : System Service) : Prop where
  connection : ∀ fd c, s.connection fd = some c → ∃ x ∈ history, Accepts x fd
  returnValues : ∀ fd, s.server.returnValues fd ≠ [] → ∃ x ∈ history, Accepts x fd

theorem AcceptedBefore.of_only (h : AcceptedBefore history s) {fd : ℤ} {c : ℕ}
    (hc : s.connection fd = some c) (hconnection : t.connection = s.connection)
    (honly : RpcServer.Only fd s.server t.server) : AcceptedBefore history t where
  connection fd' c' hc' := h.connection fd' c' (hconnection ▸ hc')
  returnValues fd' hne := by
    by_cases heq : fd' = fd
    · exact heq ▸ h.connection fd c hc
    · exact h.returnValues fd' (honly.returnValues fd' heq ▸ hne)

theorem AcceptedBefore.exec (h : AcceptedBefore history s) (hexec : s.exec a = some t) :
    AcceptedBefore (⟨s, a, t⟩ :: history) t := by
  have hmono : ∀ u, AcceptedBefore history u → AcceptedBefore (⟨s, a, t⟩ :: history) u := by
    intro u hu
    constructor
    · intro fd c hc
      obtain ⟨x, hx, haccepts⟩ := hu.connection fd c hc
      exact ⟨x, List.mem_cons_of_mem _ hx, haccepts⟩
    · intro fd hne
      obtain ⟨x, hx, haccepts⟩ := hu.returnValues fd hne
      exact ⟨x, List.mem_cons_of_mem _ hx, haccepts⟩
  rcases System.exec_cases hexec with ⟨fd, events, type, -, -, -, rfl⟩ | ⟨hmoved, -⟩ |
    ⟨task, input, stream, u, rfl, -, hworked, rfl⟩
  · exact hmono _ ⟨h.connection, h.returnValues⟩
  · refine hmono _ ?_
    rw [hmoved.rest]
    exact ⟨h.connection, h.returnValues⟩
  cases hworked with
  | nothing => exact hmono _ ⟨h.connection, h.returnValues⟩
  | request _ hc _ hserver =>
    exact hmono _ (h.of_only hc rfl (RpcServer.request_finished hserver).1)
  | result _ hc hserver =>
    exact hmono _ (h.of_only hc rfl (RpcServer.result_finished hserver).1)
  | refused _ _ hserver =>
    refine hmono _ ⟨h.connection, fun fd hne => h.returnValues fd ?_⟩
    simpa [System.done, (RpcServer.accept_finished hserver).2] using hne
  | @connect connfd server hmethod haccepted _ _ _ hserver =>
    have hearlier := hmono _ h
    constructor
    · intro fd c hc
      simp only [System.done, System.connect, Function.update_apply] at hc
      split at hc
      · rename_i hfd
        exact ⟨_, List.mem_cons_self .., task, input, stream, rfl, hmethod, hfd ▸ haccepted⟩
      · exact hearlier.connection fd c hc
    · intro fd hne
      refine hearlier.returnValues fd ?_
      simpa [System.done, System.connect, (RpcServer.accept_finished hserver).2] using hne
  | disconnect =>
    refine hmono _ ⟨fun fd c hc => ?_, h.returnValues⟩
    simp only [System.done, System.disconnect, Function.update_apply] at hc
    split at hc
    · cases hc
    · exact h.connection fd c hc

/-- In a run that hands out no descriptor twice, accepted descriptors have empty queues. -/
theorem cleanAccept_of_run (hrun : (serverSystem dictionary listenfd).Run unguarded history s)
    (hfresh : ∀ x earlier, x :: earlier <:+ history → ∀ fd, Accepts x fd →
      ∀ y ∈ earlier, ¬ Accepts y fd) :
    (serverSystem dictionary listenfd).Run CleanAccept history s := by
  have hinv : AcceptedBefore history s ∧
      (serverSystem dictionary listenfd).Run CleanAccept history s := by
    induction hrun with
    | init hs =>
      refine ⟨⟨fun fd c hc => ?_, fun fd hne => ?_⟩, .init hs⟩ <;> rw [ofExec_init.mp hs] at *
      · cases hc
      · exact absurd rfl hne
    | @step history s t a hrun _ hstep ih =>
      obtain ⟨hbefore, hclean⟩ :=
        ih fun x earlier hsuffix => hfresh x earlier (hsuffix.trans (List.suffix_cons _ _))
      refine ⟨hbefore.exec (ofExec_step.mp hstep), hclean.step ?_ hstep⟩
      cases a with
      | handle task input stream =>
        intro hmethod connfd haccepted
        by_contra hne
        obtain ⟨y, hy, haccepts⟩ := hbefore.returnValues connfd hne
        exact hfresh _ _ List.suffix_rfl connfd ⟨task, input, stream, rfl, hmethod, haccepted⟩ y
          hy haccepts
      | _ => trivial
  exact hinv.2

end Descriptors

/-! ## The result -/

/-- In every run that does not start the connection with results of another one in its queue:
no result leaves the pipe of the connection before all of it is written, and nothing else is
written, iff every call of `send` on the connection takes a whole result. -/
theorem delivers_iff (dictionary : Dict (List UInt8) Service) (listenfd : ℤ) (c : ℕ)
    {s : System Service} {history : List (Transition (System Service) (Action Service))}
    (hrun : (serverSystem dictionary listenfd).Run (CleanFor c) history s) :
    (∀ x ∈ history, x.target.Delivers c) ↔
      ∀ x ∈ history, sendsWhole c x.source x.event = true := by
  have htargets : (∀ x ∈ history, ∀ y ∈ x.target.sendsOn c, y.1.length ≤ y.2) ↔
      ∀ x ∈ history, sendsWhole c x.source x.event = true := by
    apply hrun.targets_iff (I := fun s => ∀ y ∈ s.sendsOn c, y.1.length ≤ y.2)
      (C := fun s a => sendsWhole c s a = true)
    · intro s hs
      rw [ofExec_init.mp hs]
      simp [System.sendsOn, System.init]
    · intro s a t _ h hstep
      exact System.sendsOn_whole_iff h (ofExec_step.mp hstep)
  rw [← htargets]
  refine forall₂_congr fun x hx => ?_
  obtain ⟨hreach, hclean, hstep⟩ := hrun.of_mem hx
  have hisolated : x.target.IsolatedOn c :=
    (isolatedOn_of_reachable hreach).exec (wired_of_reachable hreach) hclean
      (ofExec_step.mp hstep)
  exact hisolated.delivers_iff_sends

/-- One result was sent on the first connection, and every step met the condition. -/
def sendsFirst (history : List (Transition (System Unit) (Action Unit))) (s : System Unit) :
    Bool :=
  sentOnFirst s && history.all fun x => sendsWhole 0 x.source x.event

theorem delivers_iff_sendResult :
    ∃ (history : List (Transition (System Unit) (Action Unit))) (s : System Unit),
      sendsFirst history s ∧ ∀ x ∈ history, x.target.Delivers 0 := by
  have hreplay : (replay System.exec (fun s a => decide (CleanAccept s a)) []
      (System.init oneService 3)
      (acceptClient (shortRequest true) ++ receiveRequest true ++ sendResult)).any
      (fun r => sendsFirst r.1 r.2) = true := by decide +kernel
  obtain ⟨history, s, hrun, htest⟩ := exists_run_of_replay sendsFirst hreplay
  refine ⟨history, s, htest, (delivers_iff oneService 3 0 (hrun.mono ?_)).mpr ?_⟩
  · intro s a hclean
    exact (of_decide_eq_true hclean : CleanAccept s a).cleanFor 0
  · simp only [sendsFirst, Bool.and_eq_true, List.all_eq_true] at htest
    exact htest.2

/-- The socket is reported writable, and has no room when `send` is called. -/
def sendAgain : List (Action Unit) := serveEvent 5 ⟨false, false, false, true, false⟩ noInput []

/-- A result of the first connection is in no queue any more, and nothing of it was written. -/
def lostFirst (s : System Unit) : Bool :=
  (s.sendsOn 0).any fun x => decide (x.2 < x.1.length)

/-- Without the condition a result is lost when the socket is full. -/
theorem result_lost :
    ¬ ∀ (dictionary : Dict (List UInt8) Unit) (listenfd : ℤ) (s : System Unit),
      (serverSystem dictionary listenfd).Reachable CleanAccept s → ∀ c, s.Delivers c := by
  intro hdelivers
  have hreplay : (replay System.exec (fun s a => decide (CleanAccept s a)) []
      (System.init oneService 3)
      (acceptClient (shortRequest true) ++ receiveRequest true ++ sendAgain)).any
      (fun r => lostFirst r.2) = true := by decide +kernel
  obtain ⟨history, s, hrun, htest⟩ := exists_run_of_replay (fun _ s => lostFirst s) hreplay
  have hreach : (serverSystem oneService 3).Reachable CleanAccept s :=
    ⟨history, hrun.mono fun _ _ hclean => of_decide_eq_true hclean⟩
  have hwhole := flatten_prefix_written_iff.mp (hdelivers oneService 3 s hreach 0).taken
  obtain ⟨x, hx, hless⟩ := List.any_eq_true.mp htest
  exact absurd (hwhole x hx) (not_le.mpr (of_decide_eq_true hless))

end DreamboatRpc.Server
