import DreamboatRpc.CS.FifoNetwork

/-!
# Channels made of queues and broadcasts

Every party has a queue of messages it has yet to broadcast, a pipe to each party that the
broadcasts go through, and an inbox in which those that are meant for it are put as they
arrive. What a broadcast loses it loses for one receiver at a time, and what is not meant for
a receiver is dropped at its end of the pipe.

For two parties all this is one FIFO channel that may lose messages: what is in the inbox of
the receiver, in the pipe, and in the queue of the sender, as far as it is meant for the
receiver.

## Main definitions

* `PubSub` — the queues, pipes and inboxes
* `PubSub.put`, `PubSub.publish`, `PubSub.drop`, `PubSub.deliver`, `PubSub.get?` — its operations
* `PubSub.channel` — the channel between two parties

## Main results

* `channel_put`, `publish_channel`, `drop_channel`, `deliver_channel`, `get?_channel` — what an
  operation does to the channels
-/

namespace CS

/-! ## The operations -/

/-- Messages on their way: still in the queue of the sender, in the pipe to a receiver, or in
the inbox of the receiver, with the sender. The oldest come first. -/
structure PubSub (ι μ : Type*) where
  queue : ι → List μ
  pipe : ι → ι → List μ
  inbox : ι → List (ι × μ)

namespace PubSub

variable {ι μ : Type*} [DecidableEq ι] {b b' : PubSub ι μ} {accepts : ι → μ → Bool}
  {p q src dst : ι} {m : μ}

/-- Nothing is under way. -/
def empty : PubSub ι μ := ⟨fun _ => [], fun _ _ => [], fun _ => []⟩

/-- Queue messages to broadcast. -/
def put (b : PubSub ι μ) (src : ι) (out : List μ) : PubSub ι μ :=
  { b with queue := Function.update b.queue src (b.queue src ++ out) }

/-- Broadcast the oldest message of a queue; only the parties that are connected get it. -/
def publish (b : PubSub ι μ) (src : ι) (connected : ι → Bool) : Option (PubSub ι μ) :=
  match b.queue src with
  | [] => none
  | m :: rest => some { b with
      queue := Function.update b.queue src rest
      pipe := fun p q => if p = src ∧ connected q then b.pipe p q ++ [m] else b.pipe p q }

/-- A pipe loses a message. -/
def drop (b : PubSub ι μ) (src dst : ι) (i : ℕ) : PubSub ι μ :=
  { b with pipe := fun p q =>
      if p = src ∧ q = dst then (b.pipe p q).eraseIdx i else b.pipe p q }

/-- The oldest message of a pipe arrives, and is put in the inbox if it is meant for it. -/
def deliver (b : PubSub ι μ) (accepts : ι → μ → Bool) (src dst : ι) : Option (PubSub ι μ) :=
  match b.pipe src dst with
  | [] => none
  | m :: rest => some { b with
      pipe := fun p q => if p = src ∧ q = dst then rest else b.pipe p q
      inbox := if accepts dst m then
        Function.update b.inbox dst (b.inbox dst ++ [(src, m)]) else b.inbox }

/-- Take the oldest message of an inbox. -/
def get? (b : PubSub ι μ) (dst : ι) : Option (PubSub ι μ × ι × μ) :=
  match b.inbox dst with
  | [] => none
  | m :: rest => some ({ b with inbox := Function.update b.inbox dst rest }, m)

/-! ## Channels -/

/-- What is under way from one party to another, oldest first. -/
def channel (accepts : ι → μ → Bool) (b : PubSub ι μ) : FifoNetwork ι μ := fun p q =>
  ((b.inbox q).filterMap fun m => if m.1 = p then some m.2 else none) ++
    (b.pipe p q ++ b.queue p).filter (accepts q)

theorem channel_put (out : List μ) : (b.put src out).channel accepts p q =
    if p = src then b.channel accepts p q ++ out.filter (accepts q)
    else b.channel accepts p q := by
  unfold channel put
  split
  · rename_i h
    subst h
    simp
  · rename_i h
    simp [h]

/-- A broadcast may fail to reach a party. -/
theorem publish_channel {connected : ι → Bool} (h : b.publish src connected = some b') :
    (b'.channel accepts p q).Sublist (b.channel accepts p q) := by
  unfold publish at h
  split at h
  · simp at h
  rename_i m rest hqueue
  rw [Option.some.injEq] at h
  subst h
  refine List.Sublist.append_left (List.Sublist.filter _ ?_) _
  simp only
  by_cases hp : p = src
  · subst hp
    rw [Function.update_self, hqueue]
    split
    · rw [List.append_assoc]
      exact List.Sublist.refl _
    · exact List.Sublist.append_left (List.sublist_cons_self m rest) _
  · rw [Function.update_of_ne hp, if_neg fun hand => hp hand.1]

theorem drop_channel (i : ℕ) :
    ((b.drop src dst i).channel accepts p q).Sublist (b.channel accepts p q) := by
  unfold channel drop
  refine List.Sublist.append_left (List.Sublist.filter _ (List.Sublist.append_right ?_ _)) _
  simp only
  split
  · exact List.eraseIdx_sublist ..
  · exact List.Sublist.refl _

/-- Arriving changes the place of a message, not the channel it is in. -/
theorem deliver_channel (h : b.deliver accepts src dst = some b') :
    b'.channel accepts p q = b.channel accepts p q := by
  unfold deliver at h
  split at h
  · simp at h
  rename_i m rest hpipe
  rw [Option.some.injEq] at h
  subst h
  unfold channel
  by_cases hpq : p = src ∧ q = dst
  · obtain ⟨rfl, rfl⟩ := hpq
    by_cases hm : accepts q m = true
    · simp [hm, hpipe]
    · simp [hm, hpipe]
  · simp only [hpq, if_false]
    congr 1
    split
    · by_cases hq : q = dst
      · have hp : src ≠ p := fun hp => hpq ⟨hp.symm, hq⟩
        subst hq
        simp [hp]
      · rw [Function.update_of_ne hq]
    · rfl

/-- The oldest message of an inbox is the oldest of the channel it has come through. -/
theorem get?_channel (h : b.get? dst = some (b', src, m)) :
    b.channel accepts src dst = m :: b'.channel accepts src dst ∧
      ∀ p q, ¬ (p = src ∧ q = dst) → b'.channel accepts p q = b.channel accepts p q := by
  unfold get? at h
  split at h
  · simp at h
  rename_i first rest hinbox
  rw [Option.some.injEq, Prod.mk.injEq] at h
  obtain ⟨rfl, rfl⟩ := h
  unfold channel
  constructor
  · simp [hinbox]
  · intro p q hpq
    simp only
    congr 1
    by_cases hq : q = dst
    · have hp : src ≠ p := fun hp => hpq ⟨hp.symm, hq⟩
      subst hq
      simp [hinbox, hp]
    · rw [Function.update_of_ne hq]

end PubSub

end CS
