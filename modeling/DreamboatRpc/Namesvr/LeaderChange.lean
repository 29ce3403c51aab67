import DreamboatRpc.Namesvr.System
import DreamboatRpc.Raft.ElectionSafety

/-!
# The registry after a leader change

A new leader first appends an entry of its own, whose value is an empty dictionary. When
that entry is committed it is what the handlers read as the registry. So the registry
survives a change of leaders only if no server is registered; otherwise every server is
refused at its next heartbeat, and its process exits.

The value of the entry is still the empty dictionary when the leader commits it: a handler
only changes the dictionary at the commit index, and no other entry refers to the one of
the leader.

## Main definitions

* `takesOffice` — the node that enters `_leader` in a step
* `CommitsFirstEntry` — a node commits the first entry of a leader
* `Preserved` — the registry is what it was, and no server in it is refused

## Main results

* `leader_change_registry` — the registry is preserved exactly if it is empty
* `registry_wiped` — a run in which a registered server is refused
-/

namespace DreamboatRpc.Namesvr

open CS Raft

variable {n : ℕ}

/-- A step of the name server. -/
abbrev NameServerStep (n : ℕ) := Transition (NameServer n) (Action n)

/-- The node that enters `_leader` in a step. -/
def takesOffice (x : NameServerStep n) : Option (Fin n) :=
  match x.event with
  | .raft (.run p) =>
    if (x.source.cluster.nodes p).currentRole = .leader then some p else none
  | _ => none

/-- The place of the first entry of the leader that `p` becomes in step `x`. -/
def firstPlace (x : NameServerStep n) (p : Fin n) : ℕ := (x.source.cluster.nodes p).log.length

/-- In step `y` node `q` commits the entry that `p` broadcast on entering `_leader` in
step `x`, as it was broadcast. -/
def CommitsFirstEntry (x : NameServerStep n) (p : Fin n) (y : NameServerStep n) (q : Fin n) :
    Prop :=
  (y.source.cluster.nodes q).commitIndex ≠ firstPlace x p ∧
    (y.target.cluster.nodes q).commitIndex = firstPlace x p ∧
    ((y.target.cluster.nodes q).log[firstPlace x p]?.map
      fun e => (e.term, e.entry.registry, e.id)) =
        some ((x.source.cluster.nodes p).currentTerm, ∅, -1)

instance (x : NameServerStep n) (p : Fin n) (y : NameServerStep n) (q : Fin n) :
    Decidable (CommitsFirstEntry x p y q) :=
  inferInstanceAs (Decidable (_ ∧ _ ∧ _))

/-- The handlers of node `q` read the registry `servers`, and no server in it is answered a
heartbeat in a way that makes its process exit. -/
def Preserved (servers : Registry) (s : NameServer n) (q : Fin n) : Prop :=
  s.read q = some servers ∧
    ∀ svrId svr, servers.get? svrId = some svr → ∀ cpuUsage memoryUsage now,
      heartbeatRound (reply (heartbeat svrId.ip svrId.port cpuUsage memoryUsage now) (s.read q)) =
        .running

/-! ## Addresses -/

theorem lt_freshAddress {nd : Node n Obj} {e : Entry Obj} {a : ℕ}
    (he : e ∈ nd.log ++ nd.clientQueue) (ha : e.entry.address = some a) :
    a < freshAddress nd := by
  have hle : ∀ {l : List ℕ} {b : ℕ}, b ∈ l → b ≤ l.foldr max 0 := by
    intro l b hb
    induction l with
    | nil => simp at hb
    | cons c l ih =>
      rcases List.mem_cons.mp hb with rfl | hb
      · exact le_max_left _ _
      · exact (ih hb).trans (le_max_right _ _)
  have hmem : a ∈ (nd.log ++ nd.clientQueue ++ nd.logHash.map Prod.snd).map
      fun e => e.entry.address.getD 0 :=
    List.mem_map.mpr ⟨e, List.mem_append_left _ he, by simp [ha]⟩
  exact Nat.lt_succ_of_le (hle hmem)

/-- Every dictionary in the log or the client queue of a node has an address, and requests
carry copies. -/
structure WellFormed (s : NameServer n) : Prop where
  ready : s.cluster.Ready
  nodes : ∀ q, ∀ e ∈ (s.cluster.nodes q).log ++ (s.cluster.nodes q).clientQueue,
    e.entry.address ≠ none
  net : ∀ p q, ∀ packet ∈ s.cluster.net p q, ∀ t e, packet.message = .clientRequest t e →
    e.entry.address = none

theorem mem_mapEntries {f : Obj → Obj} {nd : Node n Obj} {e : Entry Obj}
    (he : e ∈ (nd.mapEntries f).log ++ (nd.mapEntries f).clientQueue) :
    ∃ e₀ ∈ nd.log ++ nd.clientQueue, e = e₀.map f := by
  simp only [Node.mapEntries, ← List.map_append] at he
  obtain ⟨e₀, he₀, rfl⟩ := List.mem_map.mp he
  exact ⟨e₀, he₀, rfl⟩

theorem request_of_mem_map {packets : List (Packet n Obj)} {g : Obj → Obj}
    {packet : Packet n Obj} {t : ℕ} {e : Entry Obj} (hpacket : packet ∈ packets.map (Packet.map g))
    (hmessage : packet.message = .clientRequest t e) :
    ∃ packet₀ ∈ packets, ∃ e₀, packet₀.message = .clientRequest t e₀ ∧ e = e₀.map g := by
  obtain ⟨packet₀, hpacket₀, rfl⟩ := List.mem_map.mp hpacket
  cases hold : packet₀.message with
  | clientRequest t₀ e₀ =>
    simp only [Packet.map, hold, Message.map, Message.clientRequest.injEq] at hmessage
    obtain ⟨rfl, rfl⟩ := hmessage
    exact ⟨packet₀, hpacket₀, e₀, hold, rfl⟩
  | _ => simp [Packet.map, hold, Message.map] at hmessage

theorem WellFormed.settle (s : NameServer n) {cluster : Cluster n Obj} (hready : cluster.Ready) :
    WellFormed (s.settle cluster) := by
  refine ⟨hready.revalue, ?_, ?_⟩
  · intro q e he
    obtain ⟨e₀, -, rfl⟩ := mem_mapEntries he
    simp only [Entry.map, Obj.allocate]
    split
    · simp
    · assumption
  · intro p q packet hpacket t e hmessage
    obtain ⟨-, -, e₀, -, rfl⟩ := request_of_mem_map hpacket hmessage
    rfl

theorem WellFormed.submit {s : NameServer n} (h : WellFormed s) (p : Fin n) (servers : Registry)
    (owed : Owed) : WellFormed { s.submit p servers with owed := owed } := by
  unfold NameServer.submit
  split
  · exact ⟨h.ready, h.nodes, h.net⟩
  · rename_i o ho
    have hkeep : ∀ q, ∀ e ∈ (s.cluster.nodes q).log ++ (s.cluster.nodes q).clientQueue,
        (Entry.map (if q = p then Obj.overwrite o.address servers else id) e).entry.address ≠
          none := by
      intro q e he
      simp only [Entry.map]
      split
      · unfold Obj.overwrite
        split <;> exact h.nodes q e he
      · exact h.nodes q e he
    constructor
    · have hready := h.ready.revalue (f := fun q =>
        if q = p then Obj.overwrite o.address servers else id) (g := id)
      exact hready.setNode ((hready p).congr rfl rfl)
    · intro q e he
      simp only [Cluster.setNode_nodes] at he
      split at he
      · rename_i hq
        subst hq
        simp only [Node.clientRequest, ← List.append_assoc] at he
        rcases List.mem_append.mp he with he | he
        · obtain ⟨e₀, he₀, rfl⟩ := mem_mapEntries he
          exact hkeep q e₀ he₀
        · -- the dictionary that was read is in the log
          rw [List.mem_singleton.mp he]
          obtain ⟨e₀, he₀, rfl⟩ := Option.map_eq_some_iff.mp ho
          exact h.nodes q e₀ (List.mem_append_left _ (List.mem_of_getElem? he₀))
      · obtain ⟨e₀, he₀, rfl⟩ := mem_mapEntries he
        exact hkeep q e₀ he₀
    · intro p' q packet hpacket t e hmessage
      have hcopied : packet ∈ (s.cluster.net p' q).map (Packet.map id) := hpacket
      obtain ⟨packet₀, hpacket₀, e₀, hmessage₀, rfl⟩ := request_of_mem_map hcopied hmessage
      exact h.net p' q packet₀ hpacket₀ t e₀ hmessage₀

/-- What a handler does to the name server: nothing, or it ends its thread, or it submits. -/
theorem NameServer.exec_cases {s s' : NameServer n} {a : Action n} (hs : s.exec a = some s') :
    (∃ e cluster, a = .raft e ∧ isThread e = true ∧ s.cluster.exec e = some cluster ∧
      s' = s.settle cluster) ∨
    (s'.cluster = s.cluster) ∨
    ∃ p servers owed, s' = { s.submit p servers with owed := owed } := by
  have hcall : ∀ p handle owe, (s.call p handle owe).cluster = s.cluster ∨
      ∃ p' servers owed, s.call p handle owe = { s.submit p' servers with owed := owed } := by
    intro p handle owe
    unfold NameServer.call
    split
    · exact .inl rfl
    · split
      · exact .inl rfl
      · exact .inr ⟨p, _, _, rfl⟩
  cases a with
  | raft e =>
    simp only [NameServer.exec] at hs
    split at hs
    · rename_i hthread
      obtain ⟨cluster, hcluster, rfl⟩ := Option.map_eq_some_iff.mp hs
      exact .inl ⟨e, cluster, rfl, hthread, hcluster, rfl⟩
    · simp at hs
  | register p ip port serviceName now =>
    simp only [NameServer.exec, Option.some.injEq] at hs
    exact hs ▸ .inr (hcall _ _ _)
  | heartbeat p ip port cpuUsage memoryUsage now =>
    simp only [NameServer.exec, Option.some.injEq] at hs
    exact hs ▸ .inr (hcall _ _ _)
  | monitorClients p now =>
    simp only [NameServer.exec] at hs
    split at hs
    · simp only [Option.some.injEq] at hs
      subst hs
      unfold NameServer.monitor
      split
      · exact .inr (.inl rfl)
      · exact .inr (.inr ⟨p, _, _, rfl⟩)
    · simp at hs

theorem WellFormed.of_cluster_eq {s s' : NameServer n} (h : WellFormed s)
    (hcluster : s'.cluster = s.cluster) : WellFormed s' := by
  obtain ⟨hready, hnodes, hnet⟩ := h
  rw [← hcluster] at hready hnodes hnet
  exact ⟨hready, hnodes, hnet⟩

theorem wellFormed {G : NameServer n → Action n → Prop} {s : NameServer n}
    (h : (nameServerSystem n).Reachable G s) : WellFormed s := by
  refine TransitionSystem.Reachable.invariant (I := WellFormed) ?_ ?_ h
  · rintro _ rfl
    refine ⟨Cluster.ready_init.revalue, ?_, ?_⟩
    · intro q e he
      obtain ⟨e₀, he₀, rfl⟩ := mem_mapEntries he
      simp only [Entry.map, Obj.allocate]
      split
      · simp
      · assumption
    · intro p q packet hpacket
      simp [NameServer.init, Cluster.revalue, Cluster.init, FifoNetwork.empty] at hpacket
  · intro s a s' hs _ hstep
    obtain ⟨e, cluster, -, -, hcluster, rfl⟩ | hsame | ⟨p, servers, owed, rfl⟩ :=
      NameServer.exec_cases hstep
    · exact .settle s (hs.ready.exec hcluster)
    · exact hs.of_cluster_eq hsame
    · exact hs.submit p servers owed

/-! ## The first entry of a leader -/

/-- Entry `i` of a node is the first one of its term `t`, and as it was broadcast. Nothing
else refers to its dictionary, which is at address `a`. -/
structure Untouched (i a t : ℕ) (nd : Node n Obj) : Prop where
  entry : nd.log[i]? = some ⟨t, ⟨some a, ∅⟩, -1⟩
  only : ∀ j e, j ≠ i → nd.log[j]? = some e → e.entry.address ≠ some a
  queue : ∀ e ∈ nd.clientQueue, e.entry.address ≠ some a

namespace Untouched

variable {i a t : ℕ} {nd nd' : Node n Obj}

theorem congr (h : Untouched i a t nd) (hlog : nd'.log = nd.log)
    (hqueue : nd'.clientQueue = nd.clientQueue) : Untouched i a t nd' :=
  ⟨by rw [hlog]; exact h.entry, by rw [hlog]; exact h.only, by rw [hqueue]; exact h.queue⟩

/-- A change of values that keeps the dictionary at `a`, and moves none there. -/
theorem mapEntries (h : Untouched i a t nd) {f : Obj → Obj}
    (hkeep : f ⟨some a, ∅⟩ = ⟨some a, ∅⟩)
    (hmove : ∀ e ∈ nd.log ++ nd.clientQueue, e.entry.address ≠ some a →
      (f e.entry).address ≠ some a) : Untouched i a t (nd.mapEntries f) := by
  refine ⟨?_, fun j e hj he => ?_, fun e he => ?_⟩
  · simp [Node.mapEntries, h.entry, Entry.map, hkeep]
  · simp only [Node.mapEntries, List.getElem?_map, Option.map_eq_some_iff] at he
    obtain ⟨e₀, he₀, rfl⟩ := he
    exact hmove e₀ (List.mem_append_left _ (List.mem_of_getElem? he₀)) (h.only j e₀ hj he₀)
  · simp only [Node.mapEntries, List.mem_map] at he
    obtain ⟨e₀, he₀, rfl⟩ := he
    exact hmove e₀ (List.mem_append_right _ he₀) (h.queue e₀ he₀)

/-- A dictionary that gets an address gets a new one. -/
theorem allocate (h : Untouched i a t nd) :
    Untouched i a t (nd.mapEntries (Obj.allocate (freshAddress nd))) := by
  have hlt : a < freshAddress nd :=
    lt_freshAddress (List.mem_append_left _ (List.mem_of_getElem? h.entry)) rfl
  refine h.mapEntries (by simp [Obj.allocate]) (fun e he hne => ?_)
  unfold Obj.allocate
  split
  · simpa using (ne_of_lt hlt).symm
  · exact hne

/-- What a leader appends is not at `a`. -/
theorem append (h : Untouched i a t nd) {new : List (Entry Obj)} (hlog : nd'.log = nd.log ++ new)
    (hnew : ∀ e ∈ new, e.entry.address ≠ some a)
    (hqueue : ∀ e ∈ nd'.clientQueue, e ∈ nd.clientQueue) : Untouched i a t nd' := by
  have hi := (List.getElem?_eq_some_iff.mp h.entry).1
  refine ⟨?_, fun j e hj he => ?_, fun e he => h.queue e (hqueue e he)⟩
  · rw [hlog, List.getElem?_append_left hi]
    exact h.entry
  · rw [hlog] at he
    rcases Nat.lt_or_ge j nd.log.length with hlt | hge
    · rw [List.getElem?_append_left hlt] at he
      exact h.only j e hj he
    · rw [List.getElem?_append_right hge] at he
      exact hnew e (List.mem_of_getElem? he)

/-- One iteration of the leader. -/
theorem leader (h : Untouched i a t nd) (hready : nd.Ready) (heartbeat : Bool)
    (expired : Fin n → Bool) (incoming : Option (Fin n × Message n Obj))
    (hcopy : ∀ q t e, incoming = some (q, .clientRequest t e) → e.entry.address = none) :
    Untouched i a t (nd.leader heartbeat expired incoming) := by
  by_cases hrole : nd.currentRole = .leader
  swap
  · unfold Node.leader
    rw [if_neg hrole]
    exact h.congr rfl rfl
  obtain ⟨nd₁, hops, hcases⟩ := Node.leader_cases (C := fun _ _ => True)
    (O := fun e : Entry Obj => e.entry.address ≠ some a) hrole hready heartbeat expired incoming
    (fun q t e he => by rw [hcopy q t e he]; simp) (fun _ _ _ _ _ => trivial)
  obtain ⟨new, hlog, hnew⟩ := hops.log
  have hqueue := hops.clientQueue
  obtain heq | ⟨q, term, j, u, -, -, heq⟩ | ⟨entry, rest, hrest, -, -, heq⟩ := hcases
  · rw [heq]
    exact h.append hlog hnew (by rw [hqueue]; exact fun _ => id)
  · rw [heq]
    -- stepping down appends nothing
    have hlog' : (nd₁.yieldTo q term).log = nd.log ++ new := hlog
    have hqueue' : (nd₁.yieldTo q term).clientQueue = nd.clientQueue := hqueue
    exact h.append hlog' hnew (by rw [hqueue']; exact fun _ => id)
  · obtain ⟨talker, next, reached, hbroadcast⟩ :=
      Node.broadcastAppendEntries_eq { nd₁ with clientQueue := rest } entry
    rw [heq, hbroadcast]
    -- the entry that was taken from the queue is added to the log
    have hlog' : (({ nd₁ with clientQueue := rest } : Node n Obj).appended entry).log =
        nd.log ++ (new ++ [entry]) := by
      simp [Node.appended, hlog]
    refine h.append hlog' (fun e he => ?_) ?_
    · rcases List.mem_append.mp he with he | he
      · exact hnew e he
      · rw [List.mem_singleton.mp he]
        exact h.queue entry (by simp [hrest])
    · simp only [Node.appended, hrest]
      exact fun e he => List.mem_cons_of_mem _ he

end Untouched

section Steps

variable {s s' : NameServer n} {a : Action n} {p : Fin n} {i address t : ℕ}

/-- A new leader has its first entry at the end of its log. -/
theorem untouched_of_takesOffice (h : WellFormed s) (hs : s.exec a = some s')
    (hx : takesOffice ⟨s, a, s'⟩ = some p) :
    ∃ address, Untouched (s.cluster.nodes p).log.length address
      (s.cluster.nodes p).currentTerm (s'.cluster.nodes p) := by
  obtain ⟨rfl, hrole⟩ : a = .raft (.run p) ∧ (s.cluster.nodes p).currentRole = .leader := by
    unfold takesOffice at hx
    split at hx
    · rename_i q hq
      split at hx
      · rename_i hrole
        obtain rfl := Option.some.inj hx
        exact ⟨hq, hrole⟩
      · simp at hx
    · simp at hx
  obtain ⟨cluster, hcluster, rfl⟩ :
      ∃ cluster, s.cluster.exec (.run p) = some cluster ∧ s' = s.settle cluster := by
    simp only [NameServer.exec, isThread, if_true] at hs
    obtain ⟨cluster, hcluster, rfl⟩ := Option.map_eq_some_iff.mp hs
    exact ⟨cluster, hcluster, rfl⟩
  obtain ⟨-, rfl⟩ := Cluster.exec_run hcluster
  set cluster := (s.cluster.setNode p (s.cluster.nodes p).run).publish p with hset
  have hrun : (s.cluster.nodes p).run = (s.cluster.nodes p).enterLeader := by
    simp only [Node.run, hrole]
  have hlog : (cluster.nodes p).log = (s.cluster.nodes p).log ++ [(s.cluster.nodes p).noop] := by
    rw [hset, Cluster.publish_nodes_self, Cluster.setNode_nodes_self, hrun]
    exact Node.enterLeader_log _
  have hqueue : (cluster.nodes p).clientQueue = (s.cluster.nodes p).clientQueue := by
    rw [hset, Cluster.publish_nodes_self, Cluster.setNode_nodes_self, hrun, Node.enterLeader_eq]
    obtain ⟨talker, next, reached, heq⟩ :=
      Node.broadcastAppendEntries_eq (s.cluster.nodes p).inaugurated (s.cluster.nodes p).noop
    rw [heq]
    rfl
  -- every other dictionary has an address already
  have hother : ∀ e ∈ (s.cluster.nodes p).log ++ (s.cluster.nodes p).clientQueue,
      (e.map (Obj.allocate (freshAddress (cluster.nodes p)))).entry.address ≠
        some (freshAddress (cluster.nodes p)) := by
    intro e he
    have hsome := h.nodes p e he
    -- an address in use is below a fresh one
    have hlt : ∀ b, e.entry.address = some b → b < freshAddress (cluster.nodes p) := by
      refine fun b hb => lt_freshAddress ?_ hb
      rw [hlog, hqueue]
      rcases List.mem_append.mp he with he | he
      · exact List.mem_append_left _ (List.mem_append_left _ he)
      · exact List.mem_append_right _ he
    simp only [Entry.map, Obj.allocate, if_neg hsome]
    intro hb
    exact lt_irrefl _ (hlt _ hb)
  refine ⟨freshAddress (cluster.nodes p), ?_, fun j e hj he => ?_, fun e he => ?_⟩
  · simp [NameServer.settle, Cluster.revalue, Node.mapEntries, hlog, Entry.map, Node.noop,
      Obj.allocate, EmptyCollection.emptyCollection]
  · simp only [NameServer.settle, Cluster.revalue, Node.mapEntries, List.getElem?_map,
      Option.map_eq_some_iff, hlog] at he
    obtain ⟨e₀, he₀, rfl⟩ := he
    have hj' : j < (s.cluster.nodes p).log.length := by
      have hlt := (List.getElem?_eq_some_iff.mp he₀).1
      rw [List.length_append, List.length_singleton] at hlt
      omega
    rw [List.getElem?_append_left hj'] at he₀
    exact hother e₀ (List.mem_append_left _ (List.mem_of_getElem? he₀))
  · simp only [NameServer.settle, Cluster.revalue, Node.mapEntries, List.mem_map, hqueue] at he
    obtain ⟨e₀, he₀, rfl⟩ := he
    exact hother e₀ (List.mem_append_right _ he₀)

/-- A step of the threads. -/
theorem Untouched.raft {cluster cluster' : Cluster n Obj} {e : Event n Obj}
    (h : Untouched i address t (cluster.nodes p)) (hready : cluster.Ready)
    (hnet : ∀ q r, ∀ packet ∈ cluster.net q r, ∀ t e, packet.message = .clientRequest t e →
      e.entry.address = none)
    (hs : cluster.exec e = some cluster') (hthread : isThread e = true)
    (hloop : (cluster.nodes p).loop = .leader) : Untouched i address t (cluster'.nodes p) := by
  have hset : ∀ {taken : Cluster n Obj} {r source incoming nd},
      cluster.take r source = some (taken, incoming) → (r = p → Untouched i address t nd) →
      Untouched i address t (((taken.setNode r nd).publish r).nodes p) := by
    intro taken r source incoming nd htake hnd
    by_cases hr : p = r
    · subst hr
      rw [Cluster.publish_nodes_self, Cluster.setNode_nodes_self]
      exact (hnd rfl).congr rfl rfl
    · rw [Cluster.publish_nodes_of_ne hr, Cluster.setNode_nodes_of_ne hr, Cluster.take_nodes htake]
      exact h
  obtain ⟨r, rfl, hloop', rfl⟩ | ⟨r, source, timeout, taken, incoming, rfl, hloop', -, htake, rfl⟩ |
    ⟨r, source, timeout, taken, incoming, k, m, rfl, hloop', -, htake, rfl⟩ |
    ⟨r, heartbeat, expired, source, taken, incoming, rfl, -, -, htake, rfl⟩ |
    ⟨r, value, idNum, rfl, -⟩ | ⟨r, rfl, -⟩ | ⟨r, rfl, -⟩ | ⟨src, dst, j, -, rfl⟩ :=
    Cluster.exec_cases hs
  · have hnone : cluster.take r none = some (cluster, none) := rfl
    refine hset hnone fun hr => ?_
    -- the thread of `p` is in the loop of a leader, and in no other
    simp [← hr, hloop'] at hloop
  · refine hset htake fun hr => ?_
    simp [← hr, hloop'] at hloop
  · refine hset htake fun hr => ?_
    simp [← hr, hloop'] at hloop
  · refine hset htake fun hr => ?_
    subst hr
    refine h.leader (hready r) heartbeat expired _ fun q t e hincoming => ?_
    obtain ⟨⟨q', packet⟩, rfl, heq⟩ := Option.map_eq_some_iff.mp hincoming
    simp only [Prod.mk.injEq] at heq
    obtain ⟨hsource, htaken⟩ := Cluster.taken_of_take htake
    simp only [Cluster.taken, hsource, Option.bind_some] at htaken
    exact hnet q' r packet (List.mem_of_mem_head? htaken) t e heq.2
  · simp [isThread] at hthread
  · simp [isThread] at hthread
  · simp [isThread] at hthread
  · exact h

/-- A submission at some node, which has not committed the first entry if it is the leader. -/
theorem Untouched.submit (h : Untouched i address t (s.cluster.nodes p))
    (hcommit : (s.cluster.nodes p).commitIndex < i) (r : Fin n) (servers : Registry) :
    Untouched i address t ((s.submit r servers).cluster.nodes p) := by
  unfold NameServer.submit
  split
  · exact h
  · rename_i o ho
    simp only [Cluster.setNode_nodes]
    by_cases hr : p = r
    · subst hr
      -- the dictionary that is changed is another one
      obtain ⟨e, he, rfl⟩ := Option.map_eq_some_iff.mp ho
      have hne : e.entry.address ≠ some address := h.only _ e hcommit.ne he
      have hwritten := h.mapEntries (f := Obj.overwrite e.entry.address servers)
        (by rw [Obj.overwrite, if_neg (Ne.symm hne)])
        (fun e' _ he' => by unfold Obj.overwrite; split <;> exact he')
      rw [if_pos rfl]
      refine ⟨?_, ?_, fun e' he' => ?_⟩
      · simpa [Cluster.revalue, Node.clientRequest] using hwritten.entry
      · simpa [Cluster.revalue, Node.clientRequest] using hwritten.only
      · simp only [Cluster.revalue, Node.clientRequest, if_true] at he'
        rcases List.mem_append.mp he' with he' | he'
        · exact hwritten.queue e' he'
        · rw [List.mem_singleton.mp he']
          exact hne
    · rw [if_neg hr]
      simp only [Cluster.revalue, if_neg hr]
      exact h.mapEntries rfl fun _ _ => id

/-- As long as a leader has not committed its first entry, the entry stays as it was
broadcast. -/
theorem Untouched.exec (h : Untouched i address t (s.cluster.nodes p)) (hwf : WellFormed s)
    (hs : s.exec a = some s') (hloop : (s.cluster.nodes p).loop = .leader)
    (hcommit : (s.cluster.nodes p).commitIndex < i) :
    Untouched i address t (s'.cluster.nodes p) := by
  obtain ⟨e, cluster, -, hthread, hcluster, rfl⟩ | hsame | ⟨r, servers, owed, rfl⟩ :=
    NameServer.exec_cases hs
  · exact (h.raft hwf.ready hwf.net hcluster hthread hloop).allocate
  · rw [hsame]
    exact h
  · exact h.submit hcommit r servers

/-- The same along a run. -/
theorem untouched_of_run {G : NameServer n → Action n → Prop} {x : NameServerStep n}
    {before between : List (NameServerStep n)}
    (hrun : (nameServerSystem n).Run G (between ++ x :: before) s)
    (hx : takesOffice x = some p)
    (hleads : ∀ z ∈ between, (z.source.cluster.nodes p).loop = .leader ∧
      (z.source.cluster.nodes p).commitIndex < firstPlace x p) :
    ∃ address, Untouched (firstPlace x p) address (x.source.cluster.nodes p).currentTerm
      (s.cluster.nodes p) := by
  induction between generalizing s with
  | nil =>
    cases hrun with
    | step hrun _ hstep => exact untouched_of_takesOffice (wellFormed ⟨_, hrun⟩) hstep hx
  | cons z between ih =>
    cases hrun with
    | step hrun _ hstep =>
      obtain ⟨address, h⟩ := ih hrun fun z hz => hleads z (List.mem_cons_of_mem _ hz)
      obtain ⟨hloop, hcommit⟩ := hleads _ (List.mem_cons_self ..)
      exact ⟨address, h.exec (wellFormed ⟨_, hrun⟩) hstep hloop hcommit⟩

end Steps

/-! ## The result -/

section Result

variable {x y : NameServerStep n} {p q : Fin n} {servers : Registry}

theorem read_of_commitsFirstEntry (h : CommitsFirstEntry x p y q) : y.target.read q = some ∅ := by
  obtain ⟨-, hindex, hentry⟩ := h
  obtain ⟨e, he, heq⟩ := Option.map_eq_some_iff.mp hentry
  simp only [Prod.mk.injEq] at heq
  simp [NameServer.read, Node.checkCommittedEntry, hindex, he, heq.2.1]

/-- Where no server is registered, every heartbeat is refused and ends the process. -/
theorem exited_of_commitsFirstEntry (h : CommitsFirstEntry x p y q) (ip : String) (port : ℤ)
    (cpuUsage memoryUsage : Option Load) (now : ℚ) :
    reply (heartbeat ip port cpuUsage memoryUsage now) (y.target.read q) = .error notRegistered ∧
      heartbeatRound (reply (heartbeat ip port cpuUsage memoryUsage now) (y.target.read q)) =
        .exited 1 := by
  have hrefused : heartbeat ip port cpuUsage memoryUsage now ∅ = .error notRegistered :=
    heartbeat_eq_error_iff.mpr ⟨rfl, rfl⟩
  rw [read_of_commitsFirstEntry h]
  simp [reply, hrefused, heartbeatRound, sendHeartbeat, Answer.code]

/-- In every run, the commit of the first entry of a leader preserves the registry exactly
if it is empty; and when a leader first commits that entry, it is as it was broadcast. -/
theorem leader_change_registry {history : List (NameServerStep n)} {s : NameServer n}
    (hrun : (nameServerSystem n).Run unguarded history s)
    (hx : x ∈ history) (hoffice : takesOffice x = some p) :
    (∀ y ∈ history, ∀ q servers, y.source.read q = some servers → CommitsFirstEntry x p y q →
      (Preserved servers y.target q ↔ servers = ∅)) ∧
    ∀ y between before rest, history = rest ++ y :: (between ++ x :: before) →
      (∀ z ∈ y :: between, (z.source.cluster.nodes p).loop = .leader ∧
        (z.source.cluster.nodes p).commitIndex < firstPlace x p) →
      (y.target.cluster.nodes p).commitIndex = firstPlace x p → CommitsFirstEntry x p y p := by
  constructor
  · intro y _ q servers _ hcommits
    have hread := read_of_commitsFirstEntry hcommits
    constructor
    · rintro ⟨hsame, -⟩
      rw [hread] at hsame
      exact (Option.some.inj hsame).symm
    · rintro rfl
      refine ⟨hread, fun svrId svr hsvr => ?_⟩
      simp at hsvr
  · rintro y between before rest rfl hleads hcommit
    obtain ⟨t, hpart⟩ := hrun.of_append
    have htarget := hpart.target_eq
    subst htarget
    have hpart' : (nameServerSystem n).Run unguarded ((y :: between) ++ x :: before) y.target :=
      hpart
    obtain ⟨address, huntouched⟩ := untouched_of_run hpart' hoffice hleads
    refine ⟨(hleads y (List.mem_cons_self ..)).2.ne, hcommit, ?_⟩
    rw [huntouched.entry]
    rfl

/-- Node `0` of two takes office, a server registers, and the registration is committed on
both. Then node `1` takes office and commits its first entry. -/
def changeLeader : List (Action 2) := wonElection.map .raft ++
  [.raft (.run 0), .raft (.follower 1 (some 0) false), .raft (.follower 1 (some 0) false),
    .raft (.leader 0 false (fun _ => false) (some 1)), .raft (.follower 1 (some 0) false),
    .register 0 "a" 1 "s" 0, .raft (.leader 0 false (fun _ => false) none),
    .raft (.follower 1 (some 0) false), .raft (.leader 0 false (fun _ => false) (some 1)),
    .raft (.follower 1 (some 0) false), .raft (.follower 1 none true), .raft (.run 1),
    .raft (.candidate 1 (some 1) false), .raft (.candidate 1 (some 1) false),
    .raft (.leader 0 false (fun _ => false) (some 1)), .raft (.candidate 1 (some 0) false),
    .raft (.run 1), .raft (.run 0), .raft (.follower 0 (some 1) false),
    .raft (.follower 0 (some 1) false), .raft (.leader 1 false (fun _ => false) (some 0))]

/-- Node `1` takes office and then commits its first entry, while a server is registered. -/
def commitsOverServer (history : List (NameServerStep 2)) : Bool :=
  history.any fun x => history.any fun y => decide (takesOffice x = some 1) &&
    decide (CommitsFirstEntry x 1 y 1) &&
    (y.source.read 1).any fun servers => (servers.get? ⟨"a", 1⟩).isSome

theorem changeLeader_run : ∃ (history : List (NameServerStep 2)) (s : NameServer 2),
    (nameServerSystem 2).Run unguarded history s ∧
      ∃ x ∈ history, ∃ y ∈ history, ∃ servers svr, takesOffice x = some 1 ∧
        CommitsFirstEntry x 1 y 1 ∧ y.source.read 1 = some servers ∧
        servers.get? ⟨"a", 1⟩ = some svr := by
  have hreplay : (replay NameServer.exec (fun _ _ => true) [] NameServer.init changeLeader).any
      (fun r => commitsOverServer r.1) = true := by decide +kernel
  obtain ⟨history, s, hrun, htest⟩ :=
    exists_run_of_replay (fun history _ => commitsOverServer history) hreplay
  simp only [commitsOverServer, List.any_eq_true, Bool.and_eq_true, decide_eq_true_eq,
    Option.any_eq_true, Option.isSome_iff_exists] at htest
  obtain ⟨x, hx, y, hy, ⟨hoffice, hcommits⟩, servers, hread, svr, hsvr⟩ := htest
  exact ⟨history, s, hrun.mono fun _ _ _ => trivial, x, hx, y, hy, servers, svr, hoffice,
    hcommits, hread, hsvr⟩

theorem leader_change_registry_changeLeader : ∃ y : NameServerStep 2, ∃ servers,
    y.source.read 1 = some servers ∧ servers ≠ ∅ ∧ ¬ Preserved servers y.target 1 := by
  obtain ⟨history, s, hrun, x, hx, y, hy, servers, svr, hoffice, hcommits, hread, hsvr⟩ :=
    changeLeader_run
  have hne : servers ≠ ∅ := by
    rintro rfl
    simp at hsvr
  have hiff := (leader_change_registry hrun hx hoffice).1 y hy 1 servers hread hcommits
  exact ⟨y, servers, hread, hne, fun hpreserved => hne (hiff.mp hpreserved)⟩

/-- A leader change may wipe the registry: the first entry of the new leader is committed,
and a server that was registered is refused. -/
theorem registry_wiped :
    ¬ ∀ (n : ℕ) (history : List (NameServerStep n)) (s : NameServer n),
      (nameServerSystem n).Run unguarded history s → ∀ x ∈ history, ∀ p, takesOffice x = some p →
        ∀ y ∈ history, ∀ q servers, y.source.read q = some servers → CommitsFirstEntry x p y q →
          Preserved servers y.target q := by
  intro hpreserved
  obtain ⟨history, s, hrun, x, hx, y, hy, servers, svr, hoffice, hcommits, hread, hsvr⟩ :=
    changeLeader_run
  obtain ⟨hsame, -⟩ := hpreserved 2 history s hrun x hx 1 hoffice y hy 1 servers hread hcommits
  rw [read_of_commitsFirstEntry hcommits] at hsame
  obtain rfl := Option.some.inj hsame
  simp at hsvr

end Result

end DreamboatRpc.Namesvr
