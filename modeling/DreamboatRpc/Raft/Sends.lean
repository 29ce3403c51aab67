import DreamboatRpc.Raft.LogSteps
import DreamboatRpc.Raft.TermMonotone

/-!
# What is said about the messages under way

A statement on all messages under way is kept by every step as long as it holds of what the
iterations send; losing, repeating and reordering messages never breaks it.

## Main definitions

* `Node.Sends` — a node has sent messages that meet a condition, and nothing else
* `Cluster.Underway` — all messages under way meet it

## Main results

* `Underway.exec` — a step, given what its iteration sends
* `Underway.rearranges` — a network that rearranges
-/

namespace DreamboatRpc.Raft

open CS FifoNetwork

variable {n : ℕ} {V : Type*} {P : Fin n → Fin n → Message n V → Prop}

namespace Node

variable {nd nd' nd'' : Node n V}

/-- `nd'` is `nd` after it has sent messages that meet `P`, a condition on the sender, the
receiver and the message. -/
structure Sends (P : Fin n → Fin n → Message n V → Prop) (nd nd' : Node n V) : Prop where
  myId : nd'.myId = nd.myId
  talker : ∃ out, nd'.talker = nd.talker ++ out ∧
    ∀ receiver packet, (receiver, packet) ∈ out →
      ∀ dst, receiver = none ∨ receiver = some dst → P nd.myId dst packet.message

namespace Sends

theorem of_talker (hid : nd'.myId = nd.myId) (htalker : nd'.talker = nd.talker) :
    nd.Sends P nd' :=
  ⟨hid, [], by simp [htalker], by simp⟩

theorem refl : nd.Sends P nd := .of_talker rfl rfl

/-- One message. -/
theorem of_send {receiver : Option (Fin n)} {packet : Packet n V} (hid : nd'.myId = nd.myId)
    (htalker : nd'.talker = nd.talker ++ [(receiver, packet)])
    (hP : ∀ dst, receiver = none ∨ receiver = some dst → P nd.myId dst packet.message) :
    nd.Sends P nd' := by
  refine ⟨hid, _, htalker, fun r m hm => ?_⟩
  obtain ⟨rfl, rfl⟩ := Prod.mk.inj (List.mem_singleton.mp hm)
  exact hP

theorem trans (h : nd.Sends P nd') (h' : nd'.Sends P nd'') : nd.Sends P nd'' := by
  obtain ⟨out, hout, hP⟩ := h.talker
  obtain ⟨out', hout', hP'⟩ := h'.talker
  refine ⟨h'.myId.trans h.myId, out ++ out', by rw [hout', hout, List.append_assoc], ?_⟩
  intro receiver packet hm
  rcases List.mem_append.mp hm with hm | hm
  · exact hP receiver packet hm
  · rw [← h.myId]
    exact hP' receiver packet hm

end Sends

end Node

/-- A condition on the message alone. -/
theorem Sent.sends {P : Message n V → Prop} {nd nd' : Node n V} (h : Sent P nd nd')
    (hid : nd'.myId = nd.myId) : nd.Sends (fun _ _ message => P message) nd' := by
  obtain ⟨out, htalker, hP⟩ := h
  exact ⟨hid, out, htalker, fun _ _ hm _ _ => hP _ hm⟩

namespace Cluster

variable {s s' : Cluster n V} {e : Event n V}

/-- All messages under way meet `P`. -/
def Underway (P : Fin n → Fin n → Message n V → Prop) (s : Cluster n V) : Prop :=
  ∀ p q, ∀ packet ∈ s.inflight p q, P p q packet.message

theorem underway_init [EmptyCollection V] : (init : Cluster n V).Underway P := by
  intro p q packet hpacket
  simp [inflight, init, FifoNetwork.empty, Node.init] at hpacket

theorem Underway.rearranges {net : FifoNetwork (Fin n) (Packet n V)} (h : s.Underway P)
    (hnet : net.Rearranges s.net) : ({ s with net := net } : Cluster n V).Underway P := by
  intro p q packet hpacket
  refine h p q packet ?_
  -- what is still in a talker is not yet in the hands of the network
  rcases List.mem_append.mp hpacket with hmem | hmem
  · exact List.mem_append_left _ (hnet p q hmem)
  · exact List.mem_append_right _ hmem

/-- What is under way after a step was so before, or its sender has sent it in the step. -/
theorem Underway.exec [EmptyCollection V] (h : s.Underway P) (hids : ∀ p, (s.nodes p).myId = p)
    (hsends : ∀ p nd, s.iteration e = some (p, nd) → (s.nodes p).Sends P nd)
    (hs : s.exec e = some s') : s'.Underway P := by
  intro p q packet hpacket
  obtain ⟨r, nd, taken, hiteration, htaken, rfl⟩ | ⟨-, ⟨r, nd, ⟨queue, role, rfl, -⟩, rfl⟩ |
    hfewer⟩ := exec_iteration hs
  · obtain ⟨out, htalker, hP⟩ := (hsends r nd hiteration).talker
    rw [inflight_publish] at hpacket
    rw [← congrFun htaken.nodes r] at htalker
    rcases mem_inflight_setNode out htalker hpacket with hmem | ⟨rfl, receiver, hto, hmem⟩
    · exact h p q packet ((htaken.inflight p q).subset hmem)
    · rw [← hids p]
      exact hP receiver packet hmem q hto
  · -- a call sends nothing
    rcases mem_inflight_setNode [] (by simp) hpacket with hmem | ⟨-, receiver, -, hmem⟩
    · exact h p q packet hmem
    · simp at hmem
  · exact h p q packet ((hfewer.inflight p q).subset hpacket)

/-- Every node keeps its id. -/
theorem ids_exec [EmptyCollection V] (hids : ∀ p, (s.nodes p).myId = p)
    (hsends : ∀ p nd, s.iteration e = some (p, nd) → nd.myId = (s.nodes p).myId)
    (hs : s.exec e = some s') (p : Fin n) : (s'.nodes p).myId = p := by
  obtain ⟨nd, hiteration, heq⟩ | ⟨-, queue, role, heq, -⟩ := exec_node hs p
  · rw [heq]
    exact (hsends p nd hiteration).trans (hids p)
  · rw [heq]
    exact hids p

end Cluster

end DreamboatRpc.Raft
