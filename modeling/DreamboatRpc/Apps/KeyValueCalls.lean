import DreamboatRpc.Apps.KeyValueMessages
import DreamboatRpc.CS.Linearizability
import DreamboatRpc.Client.CallNumbers

/-!
# Calls of the key-value service

Any number of clients call the key-value service of one server. The server has one handler at
work for a connection at a time; it takes the first request on the connection, parses it and
computes the index, gets the lock and does the rest, packs the result and lets it be sent. The
steps of clients and handlers interleave as they like.

## Main definitions

* `Network`, `Network.exec`, `networkSystem` — clients, connections, handlers and the store
* `Orderly` — the runs in which nothing is cut off and no table is full
* `Session` — what holds of a client, its connection and its handler

## Main results

* `Session.call`, `Session.goOn`, `Session.receive`, `Session.perform`, `Session.reply` — every
  step keeps it
* `Session.callback` — a callback is given what the request of its call returned
-/

namespace DreamboatRpc.Apps

open CS Rpc Common

variable [KVCodecs]

/-- Where the handler of a connection is: between two requests; before it gets the lock of the
dictionary; or after it released the lock. -/
inductive HandlerPoint
  | idle
  | called (request : Request) (index : Int32)
  | returned (response : Response)
  deriving DecidableEq

/-- The clients with their connections, the store, and the handler of each connection. What was
asked for in each call of a client is known to its callback; the history of calls is kept. -/
structure Network (κ τ : Type*) where
  clients : κ → Client.System τ
  base : KVServiceBase
  handlers : κ → HandlerPoint
  requests : κ → ℕ → Option Request
  history : List (OperationEvent (κ × ℕ) Request Response)

/-- What can happen: a thread of a client calls a proxy; a client takes a step of its own; the
event loop of a client executes a callback; and a handler takes one of its three steps. -/
inductive NetworkAction (κ τ : Type*)
  | call (k : κ) (t : Option τ) (sync : Bool) (request : Request) (padding : CharArray 3)
      (beyond : ℤ)
  | client (k : κ) (a : Client.Action τ)
  | callback (k : κ) (data : List UInt8) (left : Unparsed)
  | receive (k : κ) (stack data : List UInt8) (left : Unparsed)
  | perform (k : κ)
  | reply (k : κ) (res : RpcResult) (log : LogInput)

/-- Whether a client takes the step by itself. -/
def stepsAlone {τ : Type*} : Client.Action τ → Bool
  | .call .. | .answer .. | .exec => false
  | _ => true

namespace Network

variable {κ τ : Type*}

/-- Before any call. -/
def init : Network κ τ where
  clients _ := .init
  base := .init
  handlers _ := .idle
  requests _ _ := none
  history := []

variable [DecidableEq κ] [DecidableEq τ] (s : Network κ τ)

/-- `CallRPCAsync` or `CallRPC` of a proxy. -/
def call (k : κ) (t : Option τ) (sync : Bool) (request : Request) (padding : CharArray 3)
    (beyond : ℤ) : Option (Network κ τ) :=
  ((s.clients k).exec (.call t sync request.service.proxy request.encoding padding beyond)).map
    fun client =>
      let c := (s.clients k).calls
      { s with
        clients := Function.update s.clients k client
        requests := Function.update s.requests k
          (Function.update (s.requests k) c (some request))
        history := .invoked (k, c) request :: s.history }

/-- `CallbackFunction::Exec`: the callback that is found parses the result as its call says. -/
def callback (k : κ) (data : List UInt8) (left : Unparsed) : Option (Network κ τ) :=
  match (s.clients k).loop with
  | .received _ res =>
    match Client.slotAt (s.clients k).slots (Client.resultId res) with
    | some (.callback c) =>
      (s.requests k c).bind fun request =>
        ((s.clients k).exec .exec).map fun client =>
          let response := request.service.responseIn res.returnBuffer.bytes data left
          { s with
            clients := Function.update s.clients k client
            history := .returned (k, c) response :: s.history }
    | _ => none
  | _ => none

/-- `HandleReadEvent` of the connection, where both calls of `recv` get what they ask for, up to
the index of the dictionary. -/
def receive (k : κ) (stack data : List UInt8) (left : Unparsed) : Option (Network κ τ) :=
  match s.handlers k, (s.clients k).wire with
  | .idle, r :: _ =>
    let message := Server.asReceived r.message
    (services.get? (cString (Server.servicenameMemory message stack))).map fun service =>
      let request := service.requestIn (Server.parametersMemory message stack) data left
      { s with
        handlers := Function.update s.handlers k
          (.called request (getAllottedBucket request.id)) }
  | _, _ => none

/-- What the store does while the handler holds the lock. -/
def perform (k : κ) : Option (Network κ τ) :=
  match s.handlers k with
  | .called request index =>
    (bucketAt index).map fun b =>
      { s with
        base := (s.base.perform b request).1
        handlers := Function.update s.handlers k (.returned (s.base.perform b request).2) }
  | _ => none

/-- What is returned is logged; the result is packed, and sent for the request it answers. -/
def reply (k : κ) (res : RpcResult) (log : LogInput) : Option (Network κ τ) :=
  match s.handlers k with
  | .returned response =>
    if response.logged log then
      (response.toRpcResult res).bind fun result =>
        ((s.clients k).exec (.answer 0 result.returnBuffer)).map fun client =>
          { s with
            clients := Function.update s.clients k client
            handlers := Function.update s.handlers k .idle }
    else none
  | _ => none

/-- The state after an action; `none` if it cannot happen. -/
def exec : NetworkAction κ τ → Option (Network κ τ)
  | .call k t sync request padding beyond => s.call k t sync request padding beyond
  | .client k a =>
    if stepsAlone a then
      ((s.clients k).exec a).map fun client =>
        { s with clients := Function.update s.clients k client }
    else none
  | .callback k data left => s.callback k data left
  | .receive k stack data left => s.receive k stack data left
  | .perform k => s.perform k
  | .reply k res log => s.reply k res log

end Network

/-- Runs of the network. -/
abbrev networkSystem (κ τ : Type*) [DecidableEq κ] [DecidableEq τ] :
    TransitionSystem (Network κ τ) (NetworkAction κ τ) :=
  .ofExec Network.init Network.exec

/-- Requests that are made fit and have a dictionary; a request is made while at most 1022 ids
are in use; and results arrive whole. -/
def Orderly {κ τ : Type*} (s : Network κ τ) : NetworkAction κ τ → Prop
  | .call k _ _ request _ _ =>
    request.Fits ∧ HasDict request.id ∧ (s.clients k).live.length + 1 < Client.maxRequests
  | .client _ a => a.readsWhole
  | _ => True

instance {κ τ : Type*} (s : Network κ τ) (a : NetworkAction κ τ) : Decidable (Orderly s a) := by
  cases a <;> unfold Orderly Request.Fits <;> infer_instance

/-! ## A client, its connection and its handler -/

section Session

variable {τ : Type*} (requests : ℕ → Option Request) (served : ℕ → Option Response)

/-- The message of a call carries its request, which has not been served. -/
def Asks (c : ℕ) (m : RpcMessage) : Prop :=
  served c = none ∧ ∃ request, requests c = some request ∧ Carries m request

/-- The result of a call is parsed as what its request returned. -/
def Answers (c : ℕ) (res : RpcResult) : Prop :=
  ∃ request response, requests c = some request ∧ served c = some response ∧
    ∀ data left, request.service.responseIn res.returnBuffer.bytes data left = response

/-- The handler is at work on the first request of its connection, and no other was served. -/
def Handles (wire : List Client.Request) : HandlerPoint → Prop
  | .idle => ∀ r ∈ wire, Asks requests served r.call r.message
  | .called request index =>
    (∀ r ∈ wire, Asks requests served r.call r.message) ∧
      index = getAllottedBucket request.id ∧
        ∃ r rest, wire = r :: rest ∧ requests r.call = some request
  | .returned response =>
    ∃ r rest, wire = r :: rest ∧ (∀ r ∈ rest, Asks requests served r.call r.message) ∧
      served r.call = some response ∧
        ∃ request, requests r.call = some request ∧ Returns request response

/-- What holds of a client with its connection and its handler, for the requests of its calls
and what was served of them. -/
structure Session (handler : HandlerPoint) (client : Client.System τ) : Prop where
  placed : ∃ place, Client.Custody client place ∧
    Client.Awaited client.calls client.executed place
  answered : Client.Answered client
  live : client.live.length < Client.maxRequests
  requests_lt : ∀ c, (requests c).isSome → c < client.calls
  served_lt : ∀ c, (served c).isSome → c < client.calls
  underway : Client.Underway (Asks requests served) (Answers requests served) client
  handles : Handles requests served client.wire handler

variable {requests served} {handler : HandlerPoint} {client client' : Client.System τ}
  {request : Request} {response : Response}

/-- A request more on the wire does not concern the handler. -/
theorem Handles.append {wire : List Client.Request} {r : Client.Request}
    (h : Handles requests served wire handler) (hr : Asks requests served r.call r.message) :
    Handles requests served (wire ++ [r]) handler := by
  have happend : ∀ wire, (∀ r ∈ wire, Asks requests served r.call r.message) →
      ∀ r' ∈ wire ++ [r], Asks requests served r'.call r'.message := by
    intro wire hwire r' hr'
    rcases List.mem_append.mp hr' with hr' | hr'
    · exact hwire r' hr'
    · rwa [List.mem_singleton.mp hr']
  cases handler with
  | idle => exact happend wire h
  | called request index =>
    obtain ⟨hall, hindex, r', rest, rfl, hrequest⟩ := h
    exact ⟨happend _ hall, hindex, r', rest ++ [r], rfl, hrequest⟩
  | returned response =>
    obtain ⟨r', rest, rfl, hrest, hserved⟩ := h
    exact ⟨r', rest ++ [r], rfl, happend rest hrest, hserved⟩

/-- What is asked and answered stays so when a new call is made. -/
theorem Asks.update {c : ℕ} {m : RpcMessage} {n : ℕ} (h : Asks requests served c m)
    (hn : c ≠ n) : Asks (Function.update requests n (some request)) served c m := by
  obtain ⟨hserved, req, hreq, hcarries⟩ := h
  exact ⟨hserved, req, by rwa [Function.update_of_ne hn], hcarries⟩

theorem Answers.update {c : ℕ} {res : RpcResult} {n : ℕ} (h : Answers requests served c res)
    (hn : c ≠ n) : Answers (Function.update requests n (some request)) served c res := by
  obtain ⟨req, rsp, hreq, hrest⟩ := h
  exact ⟨req, rsp, by rwa [Function.update_of_ne hn], hrest⟩

theorem Handles.update {wire : List Client.Request} {n : ℕ}
    (h : Handles requests served wire handler) (hn : ∀ c, (requests c).isSome → c ≠ n) :
    Handles (Function.update requests n (some request)) served wire handler := by
  have hasks : ∀ wire : List Client.Request,
      (∀ r ∈ wire, Asks requests served r.call r.message) →
      ∀ r ∈ wire, Asks (Function.update requests n (some request)) served r.call r.message := by
    intro wire hwire r hr
    obtain ⟨-, req, hreq, -⟩ := hwire r hr
    exact (hwire r hr).update (hn _ (by rw [hreq]; rfl))
  have hold : ∀ c req, requests c = some req →
      Function.update requests n (some request) c = some req := by
    intro c req hreq
    rwa [Function.update_of_ne (hn c (by rw [hreq]; rfl))]
  cases handler with
  | idle => exact hasks wire h
  | called request index =>
    obtain ⟨hall, hindex, r, rest, rfl, hrequest⟩ := h
    exact ⟨hasks _ hall, hindex, r, rest, rfl, hold _ _ hrequest⟩
  | returned response =>
    obtain ⟨r, rest, rfl, hrest, hserved, req, hreq, hreturns⟩ := h
    exact ⟨r, rest, rfl, hasks rest hrest, hserved, req, hold _ _ hreq, hreturns⟩

namespace Session

theorem init : Session (fun _ => none) (fun _ => none) .idle (Client.System.init : Client.System τ)
    where
  placed := ⟨_, .init, .init⟩
  answered := ⟨by simp [Client.System.init], by simp [Client.System.init]⟩
  live := by
    change 0 < Client.maxRequests
    decide
  requests_lt _ h := by cases h
  served_lt _ h := by cases h
  underway := .init
  handles _ h := by cases h

variable [DecidableEq τ]

/-- A request that fits is made. -/
theorem call (h : Session requests served handler client) (hfits : request.Fits)
    (hlive : client.live.length + 1 < Client.maxRequests) {t : Option τ} {sync : Bool}
    {padding : CharArray 3} {beyond : ℤ}
    (hs : client.exec (.call t sync request.service.proxy request.encoding padding beyond) =
      some client') :
    Session (Function.update requests client.calls (some request)) served handler client' := by
  have hnew : ∀ c, (requests c).isSome → c ≠ client.calls :=
    fun c hc => (h.requests_lt c hc).ne
  have hnone : served client.calls = none := by
    rw [← Option.not_isSome_iff_eq_none]
    exact fun hsome => lt_irrefl _ (h.served_lt _ hsome)
  have hstart : client' = client.callRpcAsync t sync request.service.proxy request.encoding
      padding beyond := by
    simp only [Client.System.exec] at hs
    split at hs
    · exact (Option.some.inj hs).symm
    · cases hs
  have hcalls := Client.System.exec_call_calls hs
  have hwire : client'.wire = client.wire := by
    rw [hstart]
    simp only [Client.System.callRpcAsync]
    split <;> rfl
  have hlive' : client'.live.length < Client.maxRequests := by
    rw [hstart]
    simp only [Client.System.callRpcAsync]
    split
    · exact h.live
    · simpa using hlive
  obtain ⟨place, hcustody, hawaited⟩ := h.placed
  refine ⟨hcustody.exec_awaited hawaited h.answered (by rfl) hlive' hs,
    h.answered.exec hcustody (by rfl) hs, hlive', fun c hc => ?_, fun c hc => ?_, ?_, ?_⟩
  · rw [hcalls]
    rcases eq_or_ne c client.calls with rfl | hne
    · exact Nat.lt_succ_self _
    · rw [Function.update_of_ne hne] at hc
      exact Nat.lt_succ_of_lt (h.requests_lt c hc)
  · rw [hcalls]
    exact Nat.lt_succ_of_lt (h.served_lt c hc)
  · -- the new message carries the request; the others are of earlier calls
    have hbefore : Client.Underway
        (Asks (Function.update requests client.calls (some request)) served)
        (Answers (Function.update requests client.calls (some request)) served) client := by
      refine h.underway.imp (fun c m hc => ?_) (fun c r hc => ?_)
      · obtain ⟨-, req, hreq, -⟩ := id hc
        exact hc.update (hnew c (by rw [hreq]; rfl))
      · obtain ⟨req, -, hreq, -⟩ := id hc
        exact hc.update (hnew c (by rw [hreq]; rfl))
    rw [hstart]
    refine hbefore.call fun id => ⟨hnone, request, Function.update_self .., ?_⟩
    exact carries_callMessage hfits padding id
  · rw [hwire]
    exact h.handles.update hnew

/-- A client takes a step of its own. -/
theorem goOn (h : Session requests served handler client) {a : Client.Action τ}
    (hgoes : a.goesOn) (hwhole : a.readsWhole) (hs : client.exec a = some client') :
    Session requests served handler client' := by
  have hbegins : a.begins = false := by
    cases a <;> first | rfl | cases hgoes
  have hlive := lt_of_le_of_lt (Client.System.exec_live hs hbegins) h.live
  obtain ⟨place, hcustody, hawaited⟩ := h.placed
  have hcalls := Client.System.exec_calls hs hbegins
  obtain ⟨hunderway, hwire⟩ := h.underway.exec (fun c m hc => by
    obtain ⟨hserved, request, hrequest, hcarries⟩ := hc
    exact ⟨hserved, request, hrequest, hcarries.needReturn⟩) hgoes hs
  refine ⟨hcustody.exec_awaited hawaited h.answered hwhole hlive hs,
    h.answered.exec hcustody hwhole hs, hlive, fun c hc => ?_, fun c hc => ?_, hunderway, ?_⟩
  · rw [hcalls]
    exact h.requests_lt c hc
  · rw [hcalls]
    exact h.served_lt c hc
  · rcases hwire with hwire | ⟨r, hr, hwire⟩
    · rw [hwire]
      exact h.handles
    · rw [hwire]
      exact h.handles.append hr

omit [DecidableEq τ] in
/-- The event loop executes the callback of the call whose result it received, and gives it what
the request returned. -/
theorem callback (h : Session requests served handler client) {answers : Option ℕ}
    {res : RpcResult} {c : ℕ} (hloop : client.loop = .received answers res)
    (hslot : Client.slotAt client.slots (Client.resultId res) = some (.callback c)) :
    Answers requests served c res ∧ c ∉ client.executed.map Prod.fst := by
  obtain ⟨place, hcustody, hawaited⟩ := h.placed
  cases answers with
  | none => exact absurd hloop (h.answered.received res)
  | some c' =>
    obtain rfl : c = c' := by simpa [(hcustody.execute hloop).1] using hslot.symm
    have hplace : place (Client.resultId res) = .handled (.received c) :=
      hcustody.handled (by rw [hloop]; rfl)
    exact ⟨h.underway.received c res hloop, hawaited.not_executed _ c (by rw [hplace]; rfl)⟩

omit [DecidableEq τ] in
/-- The handler takes the first request. -/
theorem receive (h : Session requests served .idle client) {r : Client.Request}
    {rest : List Client.Request} (hwire : client.wire = r :: rest)
    (hrequest : requests r.call = some request) :
    Session requests served (.called request (getAllottedBucket request.id)) client :=
  ⟨h.placed, h.answered, h.live, h.requests_lt, h.served_lt, h.underway,
    h.handles, rfl, r, rest, hwire, hrequest⟩

omit [DecidableEq τ] in
/-- No thread has in hand, and no queue holds, a call that is on the wire, and it is there
once. -/
theorem distinct (h : Session requests served handler client) {r : Client.Request}
    {rest : List Client.Request} (hwire : client.wire = r :: rest) :
    Client.Underway (fun c _ => c ≠ r.call) (fun _ _ => True) client ∧
      ∀ r' ∈ rest, r'.call ≠ r.call := by
  obtain ⟨place, hcustody, hawaited⟩ := h.placed
  have hcalls : client.outstanding.map Prod.snd = client.pendingRequests.map Client.Request.call ++
      (r.call :: rest.map Client.Request.call) ++ client.answers.map Client.Answer.call := by
    rw [Client.System.outstanding, hwire]
    simp [Function.comp_def]
  have hmem : r.call ∈ client.outstanding.map Prod.snd := by
    rw [hcalls]
    simp
  have hnodup := hawaited.nodup hcustody.requests
  rw [hcalls, List.nodup_append, List.nodup_append] at hnodup
  obtain ⟨⟨-, hhere, hqueued⟩, -, -⟩ := hnodup
  refine ⟨⟨fun t c sync b m ht heq => ?_, fun t c sync m ht heq => ?_, fun r' hr' => ?_,
    fun _ _ => trivial, fun _ _ _ => trivial⟩, fun r' hr' heq => ?_⟩
  · have hhand : (client.threads t).inHand = some (Client.messageId m, false, c) := by
      rw [ht]
      rfl
    exact hawaited.inHand hcustody hhand (heq ▸ hmem)
  · have hhand : (client.threads t).inHand = some (Client.messageId m, true, c) := by
      rw [ht]
      rfl
    exact hawaited.inHand hcustody hhand (heq ▸ hmem)
  · exact hqueued _ (List.mem_map_of_mem hr') _ (List.mem_cons_self ..)
  · apply (List.nodup_cons.mp hhere).1
    rw [← heq]
    exact List.mem_map_of_mem hr'

omit [DecidableEq τ] in
/-- The store serves the request. -/
theorem perform {index : Int32}
    (h : Session requests served (.called request index) client) {r : Client.Request}
    {rest : List Client.Request}
    (hwire : client.wire = r :: rest) (hrequest : requests r.call = some request)
    (hreturns : Returns request response) :
    Session requests (Function.update served r.call (some response)) (.returned response)
      client := by
  obtain ⟨hothers, hrest⟩ := h.distinct hwire
  have hall := h.handles.1
  rw [hwire, List.forall_mem_cons] at hall
  have hnone := hall.1.1
  refine ⟨h.placed, h.answered, h.live, h.requests_lt, fun c hc => ?_,
    h.underway.imp₂ hothers (fun c m hasks hne => ?_) (fun c res hanswers _ => ?_),
    r, rest, hwire, fun r' hr' => ?_, Function.update_self .., request, hrequest, hreturns⟩
  · rcases eq_or_ne c r.call with rfl | hne
    · exact h.requests_lt _ (by rw [hrequest]; rfl)
    · rw [Function.update_of_ne hne] at hc
      exact h.served_lt c hc
  · exact ⟨by rw [Function.update_of_ne hne]; exact hasks.1, hasks.2⟩
  · -- what was answered had been served before
    obtain ⟨req, rsp, hreq, hserved, hparse⟩ := hanswers
    have hne : c ≠ r.call := by
      rintro rfl
      rw [hnone] at hserved
      cases hserved
    exact ⟨req, rsp, hreq, by rwa [Function.update_of_ne hne], hparse⟩
  · have hasks := hall.2 r' hr'
    exact ⟨by rw [Function.update_of_ne (hrest r' hr')]; exact hasks.1, hasks.2⟩

/-- The result goes back. -/
theorem reply (h : Session requests served (.returned response) client) {res result : RpcResult}
    (hresult : response.toRpcResult res = some result)
    (hs : client.exec (.answer 0 result.returnBuffer) = some client') :
    Session requests served .idle client' := by
  obtain ⟨r, rest, hwire, hrest, hserved, request, hrequest, hreturns⟩ := h.handles
  have hlive := lt_of_le_of_lt (Client.System.exec_live hs rfl) h.live
  obtain ⟨place, hcustody, hawaited⟩ := h.placed
  have hr : client.wire[0]? = some r := by rw [hwire]; rfl
  have hcalls := Client.System.exec_calls hs rfl
  have hwire' : client'.wire = rest := by
    rw [Client.System.exec, Client.System.answerRequest, hr, Option.map_some] at hs
    rw [← Option.some.inj hs]
    simp [hwire]
  refine ⟨hcustody.exec_awaited hawaited h.answered (by rfl) hlive hs,
    h.answered.exec hcustody (by rfl) hs, hlive, fun c hc => ?_, fun c hc => ?_,
    h.underway.answer hr (fun seqno => ⟨request, response, hrequest, hserved, ?_⟩) hs, ?_⟩
  · rw [hcalls]
    exact h.requests_lt c hc
  · rw [hcalls]
    exact h.served_lt c hc
  · intro data left
    rw [← hreturns.service]
    exact responseIn_toRpcResult hreturns.zero_notMem hresult data left
  · rw [hwire']
    exact hrest

end Session

end Session

end DreamboatRpc.Apps
