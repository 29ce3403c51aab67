import Mathlib.Algebra.Order.Group.Nat
import Mathlib.Data.List.Infix

/-!
# Records on a byte stream

A queue of records is written to a stream one record at a time, where a call may take only
the first bytes of a record. Whoever reads the stream gets it in chunks, which need not be
the records.

## Main definitions

* `written` — what a sequence of calls has put on the stream
* `Intact` — no record was taken off the queue before all of it was written

## Main results

* `intact_iff` — this is so iff every call took the whole record
* `length_chunks_iff`, `chunks_eq` — the chunks are the records iff all of them are as long
-/

namespace CS

variable {β : Type*} {sends : List (List β × ℕ)} {queued : List (List β)}

/-- What is on the stream after calls that were given these records, and took so many of their
bytes. -/
def written (sends : List (List β × ℕ)) : List β := sends.flatMap fun x => x.1.take x.2

/-- The records that were given to a call are on the stream, which has nothing but what was
queued, in order. -/
structure Intact (sends : List (List β × ℕ)) (queued : List (List β)) : Prop where
  taken : (sends.map Prod.fst).flatten <+: written sends
  order : written sends <+: queued.flatten

@[simp] theorem written_cons (x : List β × ℕ) (sends : List (List β × ℕ)) :
    written (x :: sends) = x.1.take x.2 ++ written sends := rfl

theorem length_written_le (sends : List (List β × ℕ)) :
    (written sends).length ≤ (sends.map Prod.fst).flatten.length := by
  induction sends with
  | nil => exact le_rfl
  | cons x sends ih =>
    simp only [written_cons, List.map_cons, List.flatten_cons, List.length_append]
    exact Nat.add_le_add (List.length_take_le' ..) ih

/-- All of the records is written iff every call took the whole record. -/
theorem flatten_prefix_written_iff : (sends.map Prod.fst).flatten <+: written sends ↔
    ∀ x ∈ sends, x.1.length ≤ x.2 := by
  induction sends with
  | nil => simp [written]
  | cons x sends ih =>
    simp only [written_cons, List.map_cons, List.flatten_cons, List.forall_mem_cons]
    constructor
    · intro h
      -- fewer bytes of one record are missed, whatever the others put on the stream
      have hlength := h.length_le
      have hle := length_written_le sends
      simp only [List.length_append, List.length_take] at hlength
      have hwhole : x.1.length ≤ x.2 := by omega
      rw [List.take_of_length_le hwhole, List.prefix_append_right_inj] at h
      exact ⟨hwhole, ih.mp h⟩
    · rintro ⟨hwhole, hall⟩
      rw [List.take_of_length_le hwhole, List.prefix_append_right_inj]
      exact ih.mpr hall

/-- Where the calls were given the first records of a queue, these are intact iff every call
took the whole record. -/
theorem intact_iff (h : sends.map Prod.fst <+: queued) :
    Intact sends queued ↔ ∀ x ∈ sends, x.1.length ≤ x.2 := by
  constructor
  · exact fun hintact => flatten_prefix_written_iff.mp hintact.taken
  · intro hall
    have htaken := flatten_prefix_written_iff.mpr hall
    refine ⟨htaken, ?_⟩
    rw [← htaken.eq_of_length_le (length_written_le sends)]
    obtain ⟨rest, rfl⟩ := h
    rw [List.flatten_append]
    exact List.prefix_append _ _

/-! ## Chunks -/

section Chunks

variable {k : ℕ} {chunks records : List (List β)}

theorem length_flatten_of_forall (h : ∀ c ∈ chunks, c.length = k) :
    chunks.flatten.length = chunks.length * k := by
  rw [List.length_flatten, List.map_eq_replicate_iff.mpr h, List.sum_replicate_nat]

/-- Chunks of at most `k` elements that together have as many as so many chunks can have are
all as long as `k`. -/
theorem length_flatten_le (h : ∀ c ∈ chunks, c.length ≤ k) :
    chunks.flatten.length ≤ chunks.length * k ∧
      (chunks.length * k ≤ chunks.flatten.length → ∀ c ∈ chunks, c.length = k) := by
  induction chunks with
  | nil => simp
  | cons c chunks ih =>
    rw [List.forall_mem_cons] at h
    obtain ⟨hle, hall⟩ := ih h.2
    simp only [List.flatten_cons, List.length_append, List.length_cons, Nat.succ_mul,
      List.forall_mem_cons]
    refine ⟨by omega, fun hge => ⟨by omega, hall (by omega)⟩⟩

/-- A stream of records of `k` elements that is read in chunks of at most `k` has as many
chunks as records iff all chunks are as long as records. -/
theorem length_chunks_iff (hk : 0 < k) (hrecords : ∀ r ∈ records, r.length = k)
    (hchunks : ∀ c ∈ chunks, c.length ≤ k) (hflatten : chunks.flatten = records.flatten) :
    chunks.length = records.length ↔ ∀ c ∈ chunks, c.length = k := by
  have hlength := length_flatten_of_forall hrecords
  rw [← hflatten] at hlength
  constructor
  · intro heq
    refine (length_flatten_le hchunks).2 ?_
    rw [hlength, heq]
  · intro hall
    rw [length_flatten_of_forall hall] at hlength
    exact Nat.eq_of_mul_eq_mul_right hk hlength

/-- Chunks as long as the records are the records. -/
theorem chunks_eq (hk : 0 < k) (hrecords : ∀ r ∈ records, r.length = k)
    (hchunks : ∀ c ∈ chunks, c.length = k) (hflatten : chunks.flatten = records.flatten) :
    chunks = records := by
  have hle : ∀ c ∈ chunks, c.length ≤ k := fun c hc => (hchunks c hc).le
  have hcount := (length_chunks_iff hk hrecords hle hflatten).mpr hchunks
  rw [List.eq_iff_flatten_eq, List.map_eq_replicate_iff.mpr hchunks,
    List.map_eq_replicate_iff.mpr hrecords, hcount]
  exact ⟨hflatten, rfl⟩

end Chunks

end CS
