import DreamboatRpc.Raft.Cluster

/-!
# What is under way between two nodes

An iteration sends its messages one after another and the network gets them at
its end. To follow an iteration step by step, `Cluster.inflight` counts what a
node has put in its talker as already under way; then handing it to the network
changes nothing, and taking or losing a message only ever removes one.
-/

namespace DreamboatRpc.Raft

open CS FifoNetwork

namespace Cluster

variable {n : ℕ} {V : Type*} {s s' : Cluster n V} {p q r : Fin n} {nd : Node n V}
  {source : Option (Fin n)} {incoming : Option (Fin n × Packet n V)}

/-- The packets under way from `p` to `q`, those still in the talker of `p` included. -/
def inflight (s : Cluster n V) (p q : Fin n) : List (Packet n V) :=
  s.net p q ++ addressedTo q (s.nodes p).talker

/-- `s'` has the nodes of `s`, and nothing under way that is not under way in `s`. -/
structure Fewer (s' s : Cluster n V) : Prop where
  nodes : s'.nodes = s.nodes
  inflight : ∀ p q, (s'.inflight p q).Sublist (s.inflight p q)

@[simp] theorem setNode_nodes_self : (s.setNode p nd).nodes p = nd := by
  simp [setNode]

theorem setNode_nodes_of_ne (h : q ≠ p) : (s.setNode p nd).nodes q = s.nodes q := by
  simp [setNode, h]

theorem setNode_nodes : (s.setNode p nd).nodes q = if q = p then nd else s.nodes q := by
  simp [setNode, Function.update_apply]

/-- What holds of every node still does if it holds of the one that is put in. -/
theorem forall_setNode {Q : Fin n → Node n V → Prop} (hnd : Q p nd)
    (h : ∀ q, Q q (s.nodes q)) (q : Fin n) : Q q ((s.setNode p nd).nodes q) := by
  rw [setNode_nodes]
  split
  · rename_i hq
    rw [hq]
    exact hnd
  · exact h q

@[simp] theorem setNode_setNode {nd' : Node n V} :
    (s.setNode p nd).setNode p nd' = s.setNode p nd' := by
  simp [setNode]

@[simp] theorem setNode_self : s.setNode p (s.nodes p) = s := by
  simp [setNode]

theorem inflight_setNode_of_ne (h : q ≠ p) : (s.setNode p nd).inflight q r = s.inflight q r := by
  simp [inflight, setNode, h]

/-- A node that appended `out` to its talker put its part of `out` under way. -/
theorem inflight_setNode_self (out : List (Option (Fin n) × Packet n V))
    (h : nd.talker = (s.nodes p).talker ++ out) :
    (s.setNode p nd).inflight p q = s.inflight p q ++ addressedTo q out := by
  simp [inflight, setNode, h]

/-- What is under way after a node has sent `out` was under way before, or is in `out` and
addressed so. -/
theorem mem_inflight_setNode (out : List (Option (Fin n) × Packet n V)) {packet : Packet n V}
    (htalker : nd.talker = (s.nodes p).talker ++ out)
    (hmem : packet ∈ (s.setNode p nd).inflight q r) :
    packet ∈ s.inflight q r ∨
      (q = p ∧ ∃ receiver, (receiver = none ∨ receiver = some r) ∧ (receiver, packet) ∈ out) := by
  by_cases hq : q = p
  · subst hq
    rw [inflight_setNode_self out htalker] at hmem
    rcases List.mem_append.mp hmem with hmem | hmem
    · exact .inl hmem
    · rcases mem_addressedTo.mp hmem with hmem | hmem
      · exact .inr ⟨rfl, none, .inl rfl, hmem⟩
      · exact .inr ⟨rfl, some r, .inr rfl, hmem⟩
  · rw [inflight_setNode_of_ne hq] at hmem
    exact .inl hmem

@[simp] theorem inflight_publish : (s.publish p).inflight q r = s.inflight q r := by
  by_cases h : q = p
  · subst h
    simp [inflight, publish]
  · simp [inflight, publish, h, send_of_ne]

theorem publish_nodes_self :
    (s.publish p).nodes p = { s.nodes p with talker := [], incomingMessage := none } := by
  simp [publish]

theorem publish_nodes_of_ne (h : q ≠ p) : (s.publish p).nodes q = s.nodes q := by
  simp [publish, h]

theorem mem_inflight_of_net {packet : Packet n V} (h : packet ∈ s.net p q) :
    packet ∈ s.inflight p q :=
  List.mem_append_left _ h

theorem Fewer.refl : Fewer s s := ⟨rfl, fun _ _ => List.Sublist.refl _⟩

theorem Fewer.setNode (h : Fewer s' s) (htalker : nd.talker = (s.nodes p).talker) :
    Fewer (s'.setNode p nd) (s.setNode p nd) := by
  refine ⟨by rw [Cluster.setNode, Cluster.setNode, h.nodes], fun a b => ?_⟩
  -- a node that sends nothing has the same under way as before
  by_cases ha : a = p
  · subst ha
    rw [inflight_setNode_self [] (by rw [h.nodes, htalker, List.append_nil]),
      inflight_setNode_self [] (by rw [htalker, List.append_nil])]
    simpa using h.inflight a b
  · rw [inflight_setNode_of_ne ha, inflight_setNode_of_ne ha]
    exact h.inflight a b

theorem lose_fewer (src dst : Fin n) (i : ℕ) :
    Fewer { s with net := s.net.lose src dst i } s where
  nodes := rfl
  inflight _ _ := (lose_sublist _ i).append_right _

/-! ## Taking a message -/

/-- The oldest packet of the channel an event takes from. -/
def taken (s : Cluster n V) (p : Fin n) (source : Option (Fin n)) : Option (Packet n V) :=
  source.bind fun q => (s.net q p).head?

/-- What `take` does: nothing, or it removes the oldest packet of one channel. -/
theorem take_cases (h : s.take p source = some (s', incoming)) :
    (source = none ∧ s' = s ∧ incoming = none) ∨
    ∃ q packet, source = some q ∧ incoming = some (q, packet) ∧ s'.nodes = s.nodes ∧
      s.net q p = packet :: s'.net q p ∧
      ∀ a b, ¬ (a = q ∧ b = p) → s'.net a b = s.net a b := by
  cases source with
  | none =>
    simp only [take, Option.some.injEq, Prod.mk.injEq] at h
    exact .inl ⟨rfl, h.1.symm, h.2.symm⟩
  | some q =>
    simp only [take] at h
    split at h
    · exact absurd h (by simp)
    · rename_i packet rest hnet
      simp only [Option.some.injEq, Prod.mk.injEq] at h
      obtain ⟨rfl, rfl⟩ := h
      refine .inr ⟨q, packet, rfl, rfl, rfl, by simp [hnet], fun a b hab => ?_⟩
      exact setChannel_of_ne _ _ hab

/-- A message that is taken was the oldest of the channel. -/
theorem taken_of_take {packet : Packet n V} (h : s.take p source = some (s', some (q, packet))) :
    source = some q ∧ s.taken p source = some packet := by
  obtain ⟨-, -, h'⟩ | ⟨q', packet', rfl, h', -, hnet, -⟩ := take_cases h
  · simp at h'
  · simp only [Option.some.injEq, Prod.mk.injEq] at h'
    obtain ⟨rfl, rfl⟩ := h'
    simp [taken, hnet]

theorem taken_none_of_take (h : s.take p source = some (s', none)) :
    s.taken p source = none := by
  obtain ⟨rfl, -, -⟩ | ⟨q, packet, -, h', -⟩ := take_cases h
  · rfl
  · simp at h'

theorem take_nodes (h : s.take p source = some (s', incoming)) : s'.nodes = s.nodes := by
  obtain ⟨-, rfl, -⟩ | ⟨q, packet, -, -, hnodes, -⟩ := take_cases h
  · rfl
  · exact hnodes

theorem take_inflight_head {packet : Packet n V}
    (h : s.take p source = some (s', some (q, packet))) :
    s.inflight q p = packet :: s'.inflight q p := by
  obtain ⟨-, -, h'⟩ | ⟨q', packet', -, h', hnodes, hnet, -⟩ := take_cases h
  · exact absurd h' (by simp)
  · simp only [Option.some.injEq, Prod.mk.injEq] at h'
    obtain ⟨rfl, rfl⟩ := h'
    simp [inflight, hnet, hnodes]

theorem take_fewer (h : s.take p source = some (s', incoming)) : Fewer s' s := by
  obtain ⟨-, rfl, -⟩ | ⟨q, packet, -, -, hnodes, hnet, hother⟩ := take_cases h
  · exact .refl
  · refine ⟨hnodes, fun a b => ?_⟩
    simp only [inflight, hnodes]
    -- what a node has yet to hand over is not taken
    refine List.Sublist.append_right ?_ _
    by_cases hab : a = q ∧ b = p
    · obtain ⟨rfl, rfl⟩ := hab
      rw [hnet]
      exact List.sublist_cons_self _ _
    · rw [hother a b hab]

/-- The message a loop is given was the oldest of a channel. -/
theorem received_of_take {message : Message n V} (h : s.take p source = some (s', incoming))
    (hreceived : (incoming.map fun (q, packet) => (q, packet.message)) = some (q, message)) :
    ∃ packet, source = some q ∧ s.taken p source = some packet ∧ packet.message = message ∧
      packet ∈ s.inflight q p := by
  obtain ⟨⟨q', packet⟩, rfl, heq⟩ := Option.map_eq_some_iff.mp hreceived
  simp only [Prod.mk.injEq] at heq
  obtain ⟨rfl, hmessage⟩ := heq
  obtain ⟨hsource, htaken⟩ := taken_of_take h
  refine ⟨packet, hsource, htaken, hmessage, ?_⟩
  rw [take_inflight_head h]
  exact List.mem_cons_self ..

/-- A thread event takes a message and replaces the node. -/
theorem thread_cases {body : Option (Fin n × Message n V) → Node n V}
    (h : s.thread p source body = some s') :
    ∃ taken incoming, s.take p source = some (taken, incoming) ∧
      s' = (taken.setNode p
        (body (incoming.map fun (q, packet) => (q, packet.message)))).publish p := by
  obtain ⟨⟨taken, incoming⟩, htake, rfl⟩ := Option.map_eq_some_iff.mp h
  exact ⟨taken, incoming, htake, rfl⟩

/-- A cluster can lose any part of what is in the hands of the network, one message after
another. -/
theorem loses [EmptyCollection V] {G : Cluster n V → Event n V → Prop}
    (hG : ∀ s src dst i, G s (.lose src dst i)) {net : FifoNetwork (Fin n) (Packet n V)}
    (hnet : ∀ p q, (net p q).Sublist (s.net p q)) :
    (clusterSystem n V).LeadsTo G s { s with net := net } := by
  refine Relation.ReflTransGen.lift (fun net => ({ s with net := net } : Cluster n V)) ?_ _ _
    (lose_steps hnet)
  rintro net₁ _ ⟨src, dst, i, rfl⟩
  exact ⟨.lose src dst i, hG _ _ _ _, rfl⟩

end Cluster

end DreamboatRpc.Raft
